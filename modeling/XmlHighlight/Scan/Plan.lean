import XmlHighlight.Scan.Settings
import XmlHighlight.Scan.TokenSpans

/-!
# Scan plan — what a scan does, step by step

A scan takes tokens one after the other, polls now and then whether it should stop, and hands out
spans together with its progress. Its plan is the list of these actions, as they happen if no poll
says to stop, and the way in which the scan then ends.

* `Flush`, `Action`, `Outcome`, `Plan` — the pieces of a plan;
* `Scanner.take` — what a scan does with one token;
* `planOf` — the plan of a scan over some tokens.
-/

namespace XmlHighlight

/-- Spans that are handed out together, and the progress made. -/
structure Flush where
  progress : Progress
  spans : List Span
  deriving DecidableEq, Repr

/-- A thing that a scan does. -/
inductive Action where
  /-- Takes the next token. -/
  | pull
  /-- Asks whether it should stop. -/
  | poll
  /-- Hands out spans. -/
  | flush (flush : Flush)
  deriving DecidableEq, Repr

/-- How a scan ends that does not fail. -/
inductive Outcome where
  | completed
  | preempted
  /-- The tokens have no positions, so nothing can be painted. -/
  | noPositions
  deriving DecidableEq, Repr

/-- How a scan ends. -/
abbrev Ending := Except ScanError Outcome

/-- What a scan does if it is not told to stop, and how it ends then. -/
structure Plan where
  actions : Array Action
  ending : Ending

/-- What a scan is given one at a time: a token, or the message that there cannot be one. -/
abbrev TokenItem := Except String Token

/-- A scan under way. -/
structure Scanner where
  /-- What has been done. -/
  actions : Array Action
  /-- How many tokens have been taken. -/
  pulled : Nat
  /-- What has been found since the last hand-out, latest token last. -/
  batch : Array Span
  /-- The group of lines in which the last hand-out took place. -/
  bucket : Option Nat
  progress : Progress

namespace Scanner

/-- A scan before its first token. -/
def start : Scanner := ⟨#[], 0, #[], none, .none⟩

variable (s : Source) (index : LineIndex) (settings : Settings)

/-- Takes a token, and polls if it is time to. -/
def pull (sc : Scanner) : Scanner :=
  let actions := sc.actions.push .pull
  { sc with
    actions := if sc.pulled % settings.pollEvery = 0 then actions.push .poll else actions
    pulled := sc.pulled + 1 }

/-- Hands out what has been found if the first token, or a token in a later group of lines than the
    last hand-out, stands on the given line. -/
def reach (sc : Scanner) (line : Nat) : Scanner :=
  let bucket := line / settings.reportingInterval index.lineCount
  if sc.bucket.all (· < bucket) then
    let progress := sc.progress.max (.atLine line index.lineCount)
    { sc with
      actions := sc.actions.push (.flush ⟨progress, sc.batch.toList⟩)
      batch := #[]
      bucket := some bucket
      progress }
  else sc

/-- Deals with the next token. What it paints is handed out later on, even the part of it that comes
    before a failure. -/
def take (sc : Scanner) (item : TokenItem) : Scanner × Option ScanError :=
  let sc := sc.pull settings
  match item with
  | .error message => (sc, some (.malformed message))
  | .ok token =>
    -- What is handed out here was found before this token.
    let sc := sc.reach index settings token.pos.line
    let painting := tokenSpans s index token
    let sc := { sc with batch := sc.batch ++ painting.spans.toArray }
    match painting.result with
    | .error e => (sc, some e)
    | .ok () => (sc, none)

/-- The end of the tokens: the rest is handed out, and the document has been covered. -/
def finish (sc : Scanner) : Plan :=
  ⟨sc.actions.push (.flush ⟨.complete, sc.batch.toList⟩), .ok .completed⟩

/-- Deals with the tokens that are left. After a failure nothing more is handed out. -/
def takeAll : Scanner → List TokenItem → Plan
  | sc, [] => sc.finish
  | sc, item :: rest =>
    match sc.take s index settings item with
    | (sc, none) => takeAll sc rest
    | (sc, some e) => ⟨sc.actions, .error e⟩

end Scanner

/-- The plan of a scan over some tokens, which may come without positions. -/
def planOf (s : Source) (index : LineIndex) (settings : Settings) (hasPositions : Bool)
    (items : List TokenItem) : Plan :=
  if hasPositions then Scanner.start.takeAll s index settings items
  else ⟨#[], .ok .noPositions⟩

end XmlHighlight
