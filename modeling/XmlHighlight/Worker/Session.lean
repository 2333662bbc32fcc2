import XmlHighlight.Surface.Channel
import XmlHighlight.Worker.Basic

/-!
# Session — a worker together with a surface

The host handles the requests of the worker one after the other. In between the worker goes on by
itself as far as it can.

* `Session` — a worker, the channel between it and the surface, and the signal;
* `Session.load`, `Session.edit`, `Session.dropSurface` — what the host does;
* `Session.goOn` — the worker goes on until it has to wait;
* `Session.step?`, `Session.pump` — requests are handled.
-/

namespace XmlHighlight

/-- A worker and what it works on. There is no channel once the surface has been dropped. -/
structure Session where
  settings : Settings
  channel : Option Channel
  signal : RestartSignal
  worker : Worker

namespace Session

/-- A worker that has just begun, over a buffer. -/
def start (settings : Settings) (buffer : StyledBuffer) : Session :=
  ⟨settings, some (.ofBuffer buffer), .unset, .waiting⟩

/-! ### The host -/

/-- Changes the surface. -/
def mapSurface (s : Session) (f : Surface → Surface) : Session :=
  { s with channel := s.channel.map fun c => { c with surface := f c.surface } }

/-- Tells the worker that there is something to highlight. -/
def notice (s : Session) : Session := { s with signal := s.signal.set }

/-- Puts a document in place of the one before, if one is given, and has it highlighted. -/
def load (s : Session) (text : Option String) : Session :=
  (match text with
    | some text => s.mapSurface (·.mapBuffer (·.setText text))
    | none => s).notice

/-- Replaces the text, if one is given, and has the document highlighted. -/
def edit (s : Session) (text : Option String) : Session :=
  (match text with
    | some text => s.mapSurface (·.mapBuffer (·.replaceText text))
    | none => s).notice

/-- The surface is gone, with all requests on their way to it. -/
def dropSurface (s : Session) : Session := { s with channel := none }

/-! ### The worker -/

/-- What the worker finds around it. The quiet period is over at once. -/
def surroundings (s : Session) : Surroundings := ⟨s.signal, s.channel.isSome, 0, .blank, 0⟩

theorem isTyping_surroundings (s : Session) : s.surroundings.isTyping = false :=
  EditClock.isTyping_zero _ _

/-- Takes over what the worker has done. -/
def apply (s : Session) (t : Turn) : Session :=
  { s with
    worker := t.worker
    signal := t.signal
    channel :=
      match t.request with
      | some r => s.channel.map (·.post r)
      | none => s.channel }

/-- The worker goes on until it has to wait. -/
def goOn (s : Session) : Session :=
  match _h : s.worker.advance? s.surroundings with
  | none => s
  | some t => (s.apply t).goOn
termination_by s.worker.stepBound
decreasing_by exact Worker.stepBound_advance s.isTyping_surroundings _h

/-- The worker has ended. -/
def hasStopped (s : Session) : Bool :=
  match s.worker with
  | .stopped => true
  | _ => false

/-! ### Requests -/

/-- Handles the first request in the queue, and lets the worker know if it waits for that. -/
def handleNext? (s : Session) : Option (Event × Session) :=
  match s.channel with
  | some ⟨surface, r :: rest⟩ =>
    let (surface, event) := surface.handle r
    let worker :=
      if r.isBlocking then s.worker.receive s.settings surface.buffer.text else s.worker
    some (event, { s with channel := some ⟨surface, rest⟩, worker })
  | _ => none

/-- The worker goes on, and the next request is handled if there is one. -/
def step? (s : Session) : Option (Event × Session) := s.goOn.handleNext?

/-- An edit that happens while a request is being handled, before the worker goes on. -/
structure Interruption where
  /-- The kind of request. -/
  during : Event → Bool
  /-- How many requests of that kind are left up to the one in which it happens. -/
  countdown : Nat
  text : Option String

/-- A request has been handled, during which an edit may have happened. -/
def interrupt (s : Session) (i : Option Interruption) (e : Event) : Option Interruption × Session :=
  match i with
  | some i =>
    if i.during e then
      if i.countdown ≤ 1 then (none, s.edit i.text)
      else (some { i with countdown := i.countdown - 1 }, s)
    else (some i, s)
  | none => (none, s)

/-- Handles requests up to the end of a pass, or as long as there are any, but at most `patience` of
    them. -/
def pump : (patience : Nat) → Option Interruption → Session → List Event × Session
  | 0, _, s => ([], s.goOn)
  | patience + 1, i, s =>
    match s.step? with
    | none => ([], s.goOn)
    | some (e, s) =>
      let (i, s) := s.interrupt i e
      -- The worker may have something to do at once if there was an edit after its last poll.
      if e.endsPass then ([e], s.goOn)
      else
        let (events, s) := pump patience i s
        (e :: events, s)

/-- Handles at most `n` requests, whatever they are. -/
def handle : (n : Nat) → Session → List Event × Session
  | 0, s => ([], s)
  | n + 1, s =>
    match s.step? with
    | none => ([], s)
    | some (e, s) =>
      let (events, s) := handle n s
      (e :: events, s)

end Session

end XmlHighlight
