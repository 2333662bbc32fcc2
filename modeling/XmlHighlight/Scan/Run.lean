import XmlHighlight.Scan.Plan
import XmlHighlight.Token.Stream

/-!
# Running a scan

* `Report` — what a scan did: hand-outs, polls, tokens taken, and its end;
* `Plan.run` — a plan carried out, with an answer to every poll;
* `documentPlan` — the plan of a scan over a document.
-/

namespace XmlHighlight

/-- What a scan did. -/
structure Report where
  flushes : Array Flush
  polls : Nat
  pulled : Nat
  ending : Ending

namespace Plan

/-- Carries out actions after those already reported. The poll of a given number, counted from one,
    is told to stop if `cancel` says so. -/
def runActions (cancel : Nat → Bool) (ending : Ending) : List Action → Report → Report
  | [], r => { r with ending }
  | .pull :: rest, r => runActions cancel ending rest { r with pulled := r.pulled + 1 }
  | .flush flush :: rest, r =>
    runActions cancel ending rest { r with flushes := r.flushes.push flush }
  | .poll :: rest, r =>
    let r := { r with polls := r.polls + 1 }
    if cancel r.polls then { r with ending := .ok .preempted }
    else runActions cancel ending rest r

/-- Carries out a plan. -/
def run (plan : Plan) (cancel : Nat → Bool) : Report :=
  runActions cancel plan.ending plan.actions.toList ⟨#[], 0, 0, plan.ending⟩

end Plan

/-- The plan of a scan over a document. A blank document is finished at once, and one that is not
    well formed fails at once. -/
def documentPlan (s : Source) (index : LineIndex) (settings : Settings) : Plan :=
  if isBlankText s.text then ⟨#[.flush ⟨.complete, []⟩], .ok .completed⟩
  else
    match tokens s with
    | .error e => ⟨#[], .error (.malformed (e.message s))⟩
    | .ok tokens => planOf s index settings true (tokens.toList.map .ok)

end XmlHighlight
