import XmlHighlight.Program

/-!
# Watch — a document is printed anew whenever it has changed

One worker is kept for the whole time. It goes on as far as it can, and one request is handled at a
time. After each, or when there has been none for a while, the document is looked at again. A new
text replaces the one before as far as they differ, and the worker waits for a pause in the changes.

* `Watch` — a document that is watched;
* `Watch.work?`, `Watch.handle?` — the worker goes on, and a request is handled;
* `Watch.printed` — what is written then;
* `Watch.reload` — the document has changed.
-/

namespace XmlHighlight

/-- Clears the screen of a terminal. -/
def clearScreen : String := "\x1b[2J\x1b[H"

/-- A document that is watched: a worker over its text, and the time of the latest change. -/
structure Watch where
  run : RunConfig
  theme : Theme
  session : Session
  edits : EditClock

namespace Watch

/-- The worker has been told that there is a document. -/
def start (job : Job) : Watch :=
  let session := Session.start job.run.highlighting.scan (.ofText job.text)
  ⟨job.run, job.theme, session.load none, .blank⟩

/-- What the worker finds around it. Times are in milliseconds. -/
def surroundings (w : Watch) (now : Nat) : Surroundings :=
  ⟨w.session.signal, w.session.channel.isSome, now, w.edits, w.run.highlighting.quietMs⟩

/-- The worker goes on, unless it has to wait. -/
def work? (w : Watch) (now : Nat) : Option Watch :=
  (w.session.worker.advance? (w.surroundings now)).map fun t =>
    { w with session := w.session.apply t }

/-- What is written when a request has been handled, first for the user and then about failures. The
    text is printed when a pass is complete, on a screen without anything else on it if it is
    printed for a terminal. -/
def printed (w : Watch) : Event → String × String
  | .notified message => ("", message ++ "\n")
  | event =>
    match event.isComplete, w.session.channel with
    | true, some c =>
      let screen := if w.run.format = .ansi then clearScreen else ""
      (screen ++ c.surface.buffer.render w.theme w.run.format, "")
    | _, _ => ("", "")

/-- The first request is handled if there is one, with what is written then. -/
def handle? (w : Watch) : Option ((String × String) × Watch) :=
  w.session.handleNext?.map fun (event, session) =>
    let w := { w with session }
    (w.printed event, w)

/-- The document has changed. While it is being saved there may be no file, which is no failure,
    since the file will change again. -/
def reload (w : Watch) (found : Lookup) (now : Nat) : Except Output Watch :=
  let changed (text : Option String) : Watch :=
    { w with session := w.session.edit text, edits := w.edits.record now }
  match found.text with
  | .ok text => .ok (changed (some text))
  | .error e => if found.exists? then .error (.unreadable w.run.file e) else .ok (changed none)

end Watch

end XmlHighlight
