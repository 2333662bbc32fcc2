import XmlHighlight.Worker.Session

/-!
# Calls — what a worker asks of the surface

A worker makes a call of the surface in some of its actions. The call either is a request that is
sent, or it tells the worker that the surface is gone, and then a worker ends, or passes over the
rest of its scan.

* `Call`, `Worker.call?` — a call of the surface and what becomes of it;
* `Worker.hasLost` — a worker that has been told that the surface is gone;
* `Worker.Acts` — what an action comes to, with `Worker.acts_advanceScan` and
  `Worker.acts_advance?`;
* `Worker.advance?_of_hasLost` — a worker that has been told has less and less to do.
-/

namespace XmlHighlight

/-! ### Calls -/

/-- A call of the surface, by what becomes of it. -/
inductive Call where
  /-- The request is on its way. -/
  | sent (r : Request)
  /-- The surface is gone, so the request cannot be sent. -/
  | refused (r : Request)
  /-- The surface has gone before it has answered. -/
  | unanswered
  deriving DecidableEq

/-- The call has told that the surface is gone. -/
def Call.isLost : Call → Bool
  | sent _ => false
  | refused _ => true
  | unanswered => true

namespace Worker

/-- The worker waits for an answer. -/
def isAwaiting : Worker → Bool
  | awaitingText => true
  | awaitingReset _ => true
  | awaitingBatch _ => true
  | _ => false

/-- The call that a worker makes next, or whose answer it learns not to come. It makes a call if it
    would send a request as long as the surface is there. -/
def call? (w : Worker) (around : Surroundings) : Option Call :=
  match (w.advance? { around with connected := true }).bind Turn.request with
  | some r => some (if around.connected then .sent r else .refused r)
  | none => if w.isAwaiting && !around.connected then some .unanswered else none

/-- The worker has been told that the surface is gone. -/
def hasLost : Worker → Bool
  | scanning p => p.lost
  | stopped => true
  | _ => false

/-- A scan that waits for spans to be painted has not been told. -/
def IsSane : Worker → Prop
  | awaitingBatch p => p.lost = false
  | _ => True

/-! ### One action -/

/-- What an action of a worker comes to, as far as calls are concerned. -/
inductive Acts (w : Worker) (around : Surroundings) (t : Turn) : Prop where
  /-- It makes no call, and is told nothing. -/
  | silently (call : w.call? around = none) (request : t.request = none)
      (same : t.worker.hasLost = w.hasLost)
  /-- It sends a request. -/
  | sending (r : Request) (call : w.call? around = some (.sent r))
      (connected : around.connected = true)
      (request : t.request = some r) (before : w.hasLost = false) (after : t.worker.hasLost = false)
  /-- It is told that the surface is gone. -/
  | told (lost : Call) (call : w.call? around = some lost) (isLost : lost.isLost = true)
      (gone : around.connected = false) (request : t.request = none) (before : w.hasLost = false)
      (after : t.worker.hasLost = true)

variable {w : Worker} {around : Surroundings} {t : Turn}

/-- A scan tries to hand out spans or to show progress as long as it has not been told. -/
theorem acts_advanceScan (p : Pass) (around : Surroundings) :
    (advanceScan p around).worker.IsSane ∧ (scanning p).Acts around (advanceScan p around) := by
  obtain ⟨text, todo, ending, lost⟩ := p
  obtain ⟨⟨isSet⟩, connected, now, edits, quietPeriod⟩ := around
  cases todo with
  | nil =>
    -- Once the host is lost nothing more is sent, whatever is left to do.
    cases lost with
    | true => exact ⟨trivial, .silently rfl rfl rfl⟩
    | false => rcases ending with e | (_ | _ | _) <;> exact ⟨trivial, .silently rfl rfl rfl⟩
  | cons a rest =>
    cases a with
    | pull => exact ⟨trivial, .silently rfl rfl rfl⟩
    | poll =>
      cases lost with
      | true => exact ⟨trivial, .silently rfl rfl rfl⟩
      | false => cases isSet <;> exact ⟨trivial, .silently rfl rfl rfl⟩
    | flush f =>
      obtain ⟨progress, spans⟩ := f
      cases lost with
      | true => exact ⟨trivial, .silently rfl rfl rfl⟩
      | false =>
        cases connected with
        | true =>
          cases spans with
          | nil => exact ⟨trivial, .sending _ rfl rfl rfl rfl rfl⟩
          | cons span more => exact ⟨rfl, .sending _ rfl rfl rfl rfl rfl⟩
        | false => cases spans <;> exact ⟨trivial, .told _ rfl rfl rfl rfl rfl rfl⟩

/-- Whatever a worker does next: it makes no call, or it sends a request, or it is told. -/
theorem acts_advance? (h : w.advance? around = some t) : t.worker.IsSane ∧ w.Acts around t := by
  obtain ⟨⟨isSet⟩, connected, now, edits, quietPeriod⟩ := around
  cases w with
  | waiting =>
    cases isSet with
    | true =>
      cases h
      exact ⟨trivial, .silently rfl rfl rfl⟩
    | false => cases h
  | settling =>
    cases h
    split <;> exact ⟨trivial, .silently rfl rfl rfl⟩
  | sleeping wakeTime =>
    by_cases hasleep : now < wakeTime
    · simp [advance?, hasleep] at h
    · simp only [advance?, if_neg hasleep, Option.some.injEq] at h
      subst h
      -- A worker that is asleep has no call out, and waking up makes none.
      have hcall : call? (sleeping wakeTime) ⟨⟨isSet⟩, connected, now, edits, quietPeriod⟩
        = none := by
        simp [call?, advance?, hasleep, isAwaiting]
      split <;> exact ⟨trivial, .silently hcall rfl rfl⟩
  | reading | resetting | notifying =>
    cases connected with
    | true =>
      cases h
      exact ⟨trivial, .sending _ rfl rfl rfl rfl rfl⟩
    | false =>
      cases h
      exact ⟨trivial, .told _ rfl rfl rfl rfl rfl rfl⟩
  | scanning p =>
    obtain rfl := Option.some.inj h
    exact acts_advanceScan p _
  | awaitingText | awaitingReset | awaitingBatch =>
    cases connected with
    | true => cases h
    | false =>
      cases h
      exact ⟨trivial, .told _ rfl rfl rfl rfl rfl rfl⟩
  | stopped => cases h

/-- No request is sent once the surface is gone. -/
theorem request_of_gone (hgone : around.connected = false) (h : w.advance? around = some t) :
    t.request = none := by
  cases (acts_advance? h).2 with
  | silently _ request => exact request
  | sending _ _ connected => cases hgone.symm.trans connected
  | told _ _ _ _ request => exact request

/-! ### The last actions -/

/-- What is left to do for a worker that has been told that the surface is gone. -/
def leftToDo : Worker → Nat
  | scanning p => p.todo.length + 1
  | _ => 0

/-- A worker that has been told, and has not ended, is in a scan. It leaves the scan out, or passes
    over its next action. -/
theorem advance?_of_hasLost (hlost : w.hasLost = true) (around : Surroundings) :
    w = stopped ∨ ∃ t, w.advance? around = some t ∧ t.worker.hasLost = true ∧
      t.worker.leftToDo < w.leftToDo := by
  cases w with
  | scanning p =>
    refine .inr ⟨advanceScan p around, rfl, ?_⟩
    obtain ⟨text, todo, ending, lost⟩ := p
    obtain rfl : lost = true := hlost
    cases todo with
    | nil => exact ⟨rfl, Nat.succ_pos _⟩
    | cons a rest =>
      cases a with
      | pull | flush => exact ⟨rfl, Nat.lt_succ_self _⟩
      | poll => exact ⟨rfl, Nat.succ_pos _⟩
  | stopped => exact .inl rfl
  | waiting | settling | sleeping | reading | awaitingText | resetting | awaitingReset
      | awaitingBatch
  | notifying => cases hlost

end Worker

end XmlHighlight
