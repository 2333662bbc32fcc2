import XmlHighlight.Proofs.Outlook

/-!
# Interleaving — a host and a worker side by side

Any number of hands edit the text, take note of the time and set the signal, requests are handled,
the worker goes on and time passes, in any order.

* `Edit`, `Hand` — what hands do;
* `Workplace`, `Move` — what there is, and what can happen;
* `Workplace.move?`, `Workplace.run?` — what happens next, and one thing after the other;
* `Worker.Awaits`, `Worker.Fits` — which requests a worker waits for, and that no others are in its
  way;
* `Worker.advanceScan_cases` — what a scan does next, as far as requests and the signal are
  concerned;
* `Worker.advance?_awaits`, `Worker.advance?_signal` — what a worker asks for, and when it clears
  the signal.
-/

namespace XmlHighlight

/-! ### What can happen -/

/-- A change of the text. -/
inductive Edit where
  | setText (text : String)
  | replaceText (text : String)
  | insert (offset : Nat) (text : String)
  | remove (first last : Nat)

/-- What a change makes of a buffer. -/
def Edit.apply : Edit → StyledBuffer → StyledBuffer
  | setText text, b => b.setText text
  | replaceText text, b => b.replaceText text
  | insert offset text, b => b.insert offset text
  | remove first last, b => b.remove first last

/-- How far somebody is who edits the text and makes that known. -/
inductive Hand where
  /-- Nothing is left to be made known. -/
  | idle
  /-- The text has been edited. -/
  | edited
  /-- The clock knows of an edit, but the signal has not been set since. -/
  | recorded
  deriving DecidableEq

/-- What is known of a pass: its copy of the text, and how it ended if it has. -/
structure PassRecord where
  text : String
  ending : Option Ending

/-- What is known of the latest pass after the worker has gone on. -/
def PassRecord.next (last : Option PassRecord) : (before after : Worker) → Option PassRecord
  | .awaitingText, .resetting text => some ⟨text, none⟩
  | .scanning p, .settling => some ⟨p.text, some (.ok .preempted)⟩
  | .scanning p, .waiting => some ⟨p.text, some p.ending⟩
  | .scanning p, .notifying _ => some ⟨p.text, some p.ending⟩
  | _, _ => last

/-- A session among hands that edit, and a clock. -/
structure Workplace where
  session : Session
  edits : EditClock
  now : Nat
  quietPeriod : Nat
  hands : List Hand
  /-- Somebody has set the signal before. -/
  everSet : Bool
  lastPass : Option PassRecord

/-- Something that can happen. -/
inductive Move where
  | edit (hand : Nat) (edit : Edit)
  /-- A hand tells the clock a time that it has looked up. -/
  | record (hand time : Nat)
  /-- A hand sets the signal. -/
  | set (hand : Nat)
  /-- The worker goes on. -/
  | work
  /-- The first request is handled. -/
  | handle
  | passTime (duration : Nat)
  /-- The surface disappears. -/
  | drop

namespace Workplace

/-- Nothing has happened. -/
def start (settings : Settings) (quietPeriod hands : Nat) (buffer : StyledBuffer) : Workplace :=
  ⟨.start settings buffer, .blank, 0, quietPeriod, List.replicate hands .idle, false, none⟩

/-- What the worker finds around it. -/
def surroundings (c : Workplace) : Surroundings :=
  ⟨c.session.signal, c.session.channel.isSome, c.now, c.edits, c.quietPeriod⟩

/-- The worker has gone on. -/
def follow (c : Workplace) (s : Session) : Workplace :=
  { c with session := s, lastPass := PassRecord.next c.lastPass c.session.worker s.worker }

/-- A hand that may edit. One that has told the clock goes on to set the signal. -/
def mayEdit (c : Workplace) (hand : Nat) : Bool := (c.hands[hand]?).any (· != .recorded)

/-- What happens next, if it can happen. -/
def move? (c : Workplace) : Move → Option Workplace
  | .edit hand e =>
    if c.mayEdit hand then
      some { c with
        session := c.session.mapSurface (·.mapBuffer e.apply)
        hands := c.hands.set hand .edited }
    else none
  | .record hand time =>
    if c.mayEdit hand ∧ time ≤ c.now then
      some { c with edits := c.edits.record time, hands := c.hands.set hand .recorded }
    else none
  | .set hand =>
    if hand < c.hands.length then
      some { c with
        session := c.session.notice
        hands := c.hands.set hand .idle
        everSet := true }
    else none
  | .work => (c.session.worker.advance? c.surroundings).map fun t => c.follow (c.session.apply t)
  | .handle => c.session.handleNext?.map fun next => c.follow next.2
  | .passTime duration => some { c with now := c.now + duration }
  | .drop => some { c with session := c.session.dropSurface }

/-- One thing happens after the other. -/
def run? (c : Workplace) : List Move → Option Workplace
  | [] => some c
  | m :: rest => (c.move? m).bind (run? · rest)

end Workplace

/-! ### Requests that are waited for -/

namespace Worker

/-- The worker waits until the request has been handled. -/
def Awaits : Worker → Request → Prop
  | awaitingText, .readText => True
  | awaitingReset _, .resetStyling => True
  | awaitingBatch _, .applyBatch _ => True
  | _, _ => False

/-- Among some requests at most the last one is waited for, and that by the worker. -/
def Fits (w : Worker) : List Request → Prop
  | [] => True
  | r :: rest => (r.isBlocking = true → rest = [] ∧ w.Awaits r) ∧ w.Fits rest

variable {w v : Worker} {queue : List Request} {r : Request} {around : Surroundings} {t : Turn}

/-- If a worker waits for nothing, no request that is waited for is on its way, so another worker
    may take its place. -/
theorem Fits.of_not_awaits (h : w.Fits queue) (hw : ∀ r, ¬ w.Awaits r) : v.Fits queue := by
  induction queue with
  | nil => trivial
  | cons r rest ih =>
    refine ⟨fun hblocking => ?_, ih h.2⟩
    exact absurd (h.1 hblocking).2 (hw r)

/-- A worker that waits for nothing may send a request, and wait for that. -/
theorem Fits.append (h : w.Fits queue) (hw : ∀ r, ¬ w.Awaits r)
    (hr : r.isBlocking = true → v.Awaits r) : v.Fits (queue ++ [r]) := by
  induction queue with
  | nil => exact ⟨fun hblocking => ⟨rfl, hr hblocking⟩, trivial⟩
  | cons first rest ih =>
    refine ⟨fun hblocking => ?_, ih h.2⟩
    exact absurd (h.1 hblocking).2 (hw first)

/-! ### What a worker does by itself -/

/-- A scan that goes on asks for nothing, or reports progress, or has spans painted and waits for
    that. It clears the signal only if it is given up. -/
theorem advanceScan_cases {p : Pass} (h : advanceScan p around = t) :
    t.request = none ∧ (t.signal = around.signal ∨ t.worker = settling) ∨
      t.signal = around.signal ∧
        ((∃ progress, t.request = some (.showProgress progress)) ∨
          ∃ q spans, t.worker = awaitingBatch q ∧ t.request = some (.applyBatch spans)) := by
  unfold advanceScan at h
  split at h
  · refine .inl ?_
    split at h
    · subst h
      exact ⟨rfl, .inl rfl⟩
    · split at h <;> subst h <;> exact ⟨rfl, .inl rfl⟩
  · subst h
    exact .inl ⟨rfl, .inl rfl⟩
  · refine .inl ?_
    split at h
    · subst h
      exact ⟨rfl, .inl rfl⟩
    · subst h
      -- Clearing a signal that is not set makes no difference.
      rcases around with ⟨⟨isSet⟩, connected, now, edits, quietPeriod⟩
      cases isSet with
      | true => exact ⟨rfl, .inr rfl⟩
      | false => exact ⟨rfl, .inl rfl⟩
  · split at h
    · subst h
      exact .inl ⟨rfl, .inl rfl⟩
    · split at h
      · subst h
        exact .inl ⟨rfl, .inl rfl⟩
      · split at h
        · subst h
          exact .inr ⟨rfl, .inl ⟨_, rfl⟩⟩
        · subst h
          exact .inr ⟨rfl, .inr ⟨_, _, rfl, rfl⟩⟩

/-- The only request of a scan that the worker waits for is that spans be painted. -/
theorem advanceScan_awaits {p : Pass} (h : advanceScan p around = t) (hr : t.request = some r)
    (hblocking : r.isBlocking = true) : t.worker.Awaits r := by
  rcases advanceScan_cases h with ⟨hnone, -⟩ | ⟨-, ⟨progress, hshow⟩ | ⟨q, spans, hworker, hbatch⟩⟩
  · cases hnone.symm.trans hr
  · obtain rfl := Option.some.inj (hshow.symm.trans hr)
    cases hblocking
  · obtain rfl := Option.some.inj (hbatch.symm.trans hr)
    rw [hworker]
    trivial

/-- A worker that goes on while the surface is there has waited for nothing, and waits for what it
    asks for now if that has to be waited for. -/
theorem advance?_awaits (hconnected : around.connected = true) (h : w.advance? around = some t) :
    (∀ r, ¬ w.Awaits r) ∧
      ∀ r, t.request = some r → r.isBlocking = true → t.worker.Awaits r := by
  cases w with
  | waiting =>
    obtain ⟨s, -, rfl⟩ := Option.map_eq_some_iff.mp h
    exact ⟨fun r => id, by rintro r ⟨⟩⟩
  | settling =>
    cases h
    exact ⟨fun r => id, by rintro r ⟨⟩⟩
  | sleeping wakeTime =>
    simp only [advance?] at h
    split at h
    · cases h
    · cases h
      exact ⟨fun r => id, by rintro r ⟨⟩⟩
  | reading =>
    simp only [advance?, hconnected, if_true] at h
    cases h
    exact ⟨fun r => id, by rintro r ⟨⟩ -; trivial⟩
  | resetting text =>
    simp only [advance?, hconnected, if_true] at h
    cases h
    exact ⟨fun r => id, by rintro r ⟨⟩ -; trivial⟩
  | notifying message =>
    simp only [advance?, hconnected, if_true] at h
    cases h
    exact ⟨fun r => id, by rintro r ⟨⟩ ⟨⟩⟩
  | scanning p =>
    have hscan : advanceScan p around = t := Option.some.inj h
    exact ⟨fun r => id, fun r hr => advanceScan_awaits hscan hr⟩
  | awaitingText | awaitingReset | awaitingBatch => simp [advance?, hconnected] at h
  | stopped => cases h

/-- Only a worker that is about to begin anew clears the signal. -/
theorem advance?_signal (h : w.advance? around = some t) :
    t.signal = around.signal ∨ t.worker = settling := by
  -- Only a worker that waits, or one that is told to stop a scan, clears the signal.
  cases w with
  | waiting =>
    obtain ⟨s, -, rfl⟩ := Option.map_eq_some_iff.mp h
    exact .inr rfl
  | scanning p =>
    have hscan : advanceScan p around = t := Option.some.inj h
    rcases advanceScan_cases hscan with ⟨-, hsignal⟩ | ⟨hsignal, -⟩
    · exact hsignal
    · exact .inl hsignal
  | settling =>
    cases h
    exact .inl rfl
  | sleeping | awaitingText | awaitingReset | awaitingBatch =>
    simp only [advance?] at h
    split at h
    · cases h
    · cases h
      exact .inl rfl
  | reading | resetting | notifying =>
    simp only [advance?] at h
    split at h
    · cases h
      exact .inl rfl
    · cases h
      exact .inl rfl
  | stopped => cases h

end Worker

end XmlHighlight
