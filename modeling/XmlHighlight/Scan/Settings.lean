/-!
# Scan settings — how often a scan looks up

* `Settings` — how often to ask whether to stop, and how often to hand out spans;
* `Settings.reportingInterval`, `Settings.pollEvery` — the numbers that follow.
-/

namespace XmlHighlight

/-- How often a scan polls for a request to stop, and how often it hands out what it has found. -/
structure Settings where
  /-- Tokens from one poll to the next. -/
  pollInterval : Nat := 8
  /-- How many times spans should be handed out over a document. -/
  flushesPerDocument : Nat := 48
  /-- Lines that have to lie between two hand-outs. -/
  minReportingInterval : Nat := 4
  deriving DecidableEq, Repr, Inhabited

namespace Settings

/-- Lines from one hand-out to the next in a document of `lines` lines; at least one. -/
def reportingInterval (settings : Settings) (lines : Nat) : Nat :=
  max (max (lines / max settings.flushesPerDocument 1) settings.minReportingInterval) 1

/-- Tokens from one poll to the next; at least one. -/
def pollEvery (settings : Settings) : Nat := max settings.pollInterval 1

/-- Reports are at least one line apart. -/
theorem reportingInterval_pos (settings : Settings) (lines : Nat) :
    0 < settings.reportingInterval lines := by
  unfold reportingInterval
  omega

/-- Polls are at least one item apart. -/
theorem pollEvery_pos (settings : Settings) : 0 < settings.pollEvery := by
  unfold pollEvery
  omega

end Settings

end XmlHighlight
