import XmlHighlight.Surface.Basic

/-!
# Channel — requests on their way to a surface

* `Channel` — a surface, and the requests that it has not handled yet;
* `Channel.post?` — sends a request, if the surface is still there;
* `Channel.next?`, `Channel.drain`, `Channel.drainUntil` — handling requests in order.
-/

namespace XmlHighlight

/-- A surface, and the requests that it has not handled yet, in order. -/
structure Channel where
  surface : Surface
  queue : List Request
  deriving DecidableEq

/-- There is no surface to send requests to. -/
inductive ChannelError where
  | disconnected
  deriving DecidableEq, Repr

/-- What the user is told. -/
def ChannelError.message : ChannelError → String
  | disconnected => "highlight surface has been dropped"

namespace Channel

/-- A channel to a surface over a buffer. -/
def ofBuffer (buffer : StyledBuffer) : Channel := ⟨.ofBuffer buffer, []⟩

/-- Puts a request at the end of the queue. -/
def post (c : Channel) (r : Request) : Channel := { c with queue := c.queue ++ [r] }

/-- Sends a request to a surface that may be gone. -/
def post? (c : Option Channel) (r : Request) : Except ChannelError Channel :=
  match c with
  | some c => .ok (c.post r)
  | none => .error .disconnected

/-- Handles the first request in the queue. -/
def next? (c : Channel) : Option (Event × Channel) :=
  match c.queue with
  | [] => none
  | r :: rest =>
    let (surface, event) := c.surface.handle r
    some (event, ⟨surface, rest⟩)

/-- Handles requests up to the first whose event satisfies `stop`. -/
def handleUntil (stop : Event → Bool) : Surface → List Request → List Event × Channel
  | surface, [] => ([], ⟨surface, []⟩)
  | surface, r :: rest =>
    let (surface, event) := surface.handle r
    if stop event then ([event], ⟨surface, rest⟩)
    else
      let (events, c) := handleUntil stop surface rest
      (event :: events, c)

/-- Handles requests up to the first whose event satisfies `stop`, or all of them. -/
def drainUntil (c : Channel) (stop : Event → Bool) : List Event × Channel :=
  handleUntil stop c.surface c.queue

/-- Handles all requests. -/
def drain (c : Channel) : List Event × Channel := c.drainUntil fun _ => false

end Channel

end XmlHighlight
