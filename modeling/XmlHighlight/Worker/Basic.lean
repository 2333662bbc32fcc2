import XmlHighlight.Scan.Run
import XmlHighlight.Surface.Basic
import XmlHighlight.Worker.Clock
import XmlHighlight.Worker.Signal

/-!
# Worker — highlighting in the background

A worker waits for the signal, lets the user finish typing, takes a copy of the text, resets the
styling and scans the copy. While it scans it polls the signal, and begins again if that is set. If
the user goes on typing for a whole quiet period it waits for the signal again. It ends only when
the surface is gone.

* `Pass` — a scan that a worker is carrying out;
* `Worker` — what a worker is doing;
* `Worker.advance?` — the next thing that it does by itself;
* `Worker.receive` — how it goes on after an answer.
-/

namespace XmlHighlight

/-- A scan that is being carried out. -/
structure Pass where
  /-- The copy of the text. -/
  text : String
  todo : List Action
  ending : Ending
  /-- The surface was found to be gone, so nothing is handed out any more. -/
  lost : Bool

namespace Pass

/-- A scan of a text that is about to begin. -/
def ofText (settings : Settings) (text : String) : Pass :=
  let s := Source.ofText text
  let plan := documentPlan s (.build s) settings
  ⟨text, plan.actions.toList, plan.ending, false⟩

/-- After the first action. -/
def skip (p : Pass) : Pass := { p with todo := p.todo.tail }

/-- The spans of the first action have been handed out, but not its progress. -/
def dropSpans (p : Pass) : Pass :=
  match p.todo with
  | .flush f :: rest => { p with todo := .flush ⟨f.progress, []⟩ :: rest }
  | _ => p

/-- The surface was found to be gone. -/
def lose (p : Pass) : Pass := { p with lost := true }

end Pass

/-- What a worker is doing. -/
inductive Worker where
  /-- It waits for the signal. -/
  | waiting
  /-- It is about to look whether the user is typing. -/
  | settling
  /-- It sleeps, at least until the given time, and then looks again. -/
  | sleeping (wakeTime : Nat)
  /-- It is about to ask for the text. -/
  | reading
  | awaitingText
  /-- It is about to have the styling reset. -/
  | resetting (text : String)
  | awaitingReset (text : String)
  | scanning (pass : Pass)
  /-- It waits until spans have been painted. -/
  | awaitingBatch (pass : Pass)
  /-- It is about to tell why a scan has failed. -/
  | notifying (message : String)
  /-- It has ended. -/
  | stopped

/-- What a worker finds around it. -/
structure Surroundings where
  signal : RestartSignal
  /-- The surface is there. -/
  connected : Bool
  now : Nat
  edits : EditClock
  /-- How long the user must not have typed before a scan begins. -/
  quietPeriod : Nat

/-- The user has typed less than a quiet period ago. -/
def Surroundings.isTyping (around : Surroundings) : Bool :=
  around.edits.isTyping around.now around.quietPeriod

/-- What a worker has done: how it goes on, what has become of the signal, and what it has asked
    for. -/
structure Turn where
  worker : Worker
  signal : RestartSignal
  request : Option Request

namespace Worker

/-- The first thing that is left to do in a scan. -/
def advanceScan (p : Pass) (around : Surroundings) : Turn :=
  let goOn (w : Worker) : Turn := ⟨w, around.signal, none⟩
  match p.todo with
  | [] =>
    if p.lost then goOn .stopped
    else
      match p.ending with
      | .ok .preempted => goOn .settling
      | .ok _ => goOn .waiting
      | .error e => goOn (.notifying e.message)
  | .pull :: _ => goOn (.scanning p.skip)
  | .poll :: _ =>
    if p.lost then goOn .stopped
    else
      let (wasSet, signal) := around.signal.consume
      ⟨if wasSet then .settling else .scanning p.skip, signal, none⟩
  | .flush f :: _ =>
    -- Spans are handed out before the progress, which is left in the plan while they are painted.
    if p.lost then goOn (.scanning p.skip)
    else if !around.connected then goOn (.scanning p.lose.skip)
    else if f.spans.isEmpty then ⟨.scanning p.skip, around.signal, some (.showProgress f.progress)⟩
    else ⟨.awaitingBatch p.dropSpans, around.signal, some (.applyBatch f.spans)⟩

/-- The next thing that a worker does, unless it has to wait or has ended. -/
def advance? (w : Worker) (around : Surroundings) : Option Turn :=
  let goOn (w : Worker) : Option Turn := some ⟨w, around.signal, none⟩
  let send (r : Request) (w : Worker) : Option Turn :=
    if around.connected then some ⟨w, around.signal, some r⟩ else goOn .stopped
  match w with
  | waiting => around.signal.wait?.map (⟨settling, ·, none⟩)
  | settling =>
    goOn (if around.isTyping then sleeping (around.now + around.quietPeriod) else reading)
  | sleeping wakeTime =>
    if around.now < wakeTime then none else goOn (if around.isTyping then waiting else reading)
  | reading => send .readText awaitingText
  | awaitingText => if around.connected then none else goOn stopped
  | resetting text => send .resetStyling (awaitingReset text)
  | awaitingReset _ => if around.connected then none else goOn stopped
  | scanning p => some (advanceScan p around)
  | awaitingBatch p => if around.connected then none else goOn (scanning p.lose.skip)
  | notifying message => send (.notify message) waiting
  | stopped => none

/-- How a worker goes on after the request that it waits for has been handled, while the document
    had the given text. -/
def receive (w : Worker) (settings : Settings) (text : String) : Worker :=
  match w with
  | awaitingText => resetting text
  | awaitingReset copy => scanning (.ofText settings copy)
  | awaitingBatch p => scanning p
  | w => w

/-! ### How long a worker goes on by itself -/

/-- A bound on the number of things that a worker does before it has to wait, if the user does not
    type. -/
def stepBound : Worker → Nat
  | stopped => 0
  | awaitingText => 1
  | awaitingReset _ => 1
  | reading => 2
  | resetting _ => 2
  | settling => 3
  | sleeping _ => 3
  | waiting => 4
  | notifying _ => 5
  | scanning p => 2 * p.todo.length + 6
  | awaitingBatch p => 2 * (p.todo.length - 1) + 7

theorem length_todo_dropSpans (p : Pass) : p.dropSpans.todo.length = p.todo.length := by
  unfold Pass.dropSpans
  split
  · next h => simp [h]
  · rfl

/-- A scan that goes on has fewer steps left. -/
theorem stepBound_advanceScan (p : Pass) (around : Surroundings) :
    (advanceScan p around).worker.stepBound < stepBound (.scanning p) := by
  have dropped := length_todo_dropSpans p
  obtain ⟨text, todo, ending, lost⟩ := p
  cases todo with
  | nil =>
    cases lost with
    | true => simp [advanceScan, stepBound]
    | false => rcases ending with e | (_ | _ | _) <;> simp [advanceScan, stepBound]
  | cons a rest =>
    cases a with
    | pull => simp [advanceScan, stepBound, Pass.skip]
    | poll =>
      cases lost with
      | true => simp [advanceScan, stepBound]
      | false =>
        simp only [advanceScan, Bool.false_eq_true, if_false]
        split
        · simp [stepBound]
        · simp [stepBound, Pass.skip]
    | flush f =>
      simp only [advanceScan]
      split
      · simp [stepBound, Pass.skip]
      · split
        · simp [stepBound, Pass.skip, Pass.lose]
        · split
          · simp [stepBound, Pass.skip]
          · simp only [stepBound, dropped, List.length_cons]; omega

/-- Each thing that a worker does brings it closer to a point where it has to wait. -/
theorem stepBound_advance {w : Worker} {around : Surroundings} {t : Turn}
    (quiet : around.isTyping = false)
    (h : w.advance? around = some t) : t.worker.stepBound < w.stepBound := by
  cases w with
  | scanning p =>
    simp only [advance?, Option.some.injEq] at h
    exact h ▸ stepBound_advanceScan p around
  | waiting =>
    obtain ⟨s, -, rfl⟩ := Option.map_eq_some_iff.mp h
    simp [stepBound]
  | settling =>
    simp only [advance?, quiet, Option.some.injEq] at h
    simp [← h, stepBound]
  | sleeping wakeTime =>
    simp only [advance?, quiet] at h
    split at h
    · simp at h
    · simp only [Option.some.injEq] at h
      simp [← h, stepBound]
  | awaitingBatch p =>
    simp only [advance?] at h
    split at h
    · simp at h
    · rw [Option.some.injEq] at h
      subst h
      simp [stepBound, Pass.skip, Pass.lose]
  | stopped => simp [advance?] at h
  | awaitingText | awaitingReset | reading | resetting | notifying =>
    simp only [advance?] at h
    split at h <;> simp at h <;> simp [← h, stepBound]

end Worker

end XmlHighlight
