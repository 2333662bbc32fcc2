/-!
# Restart signal

The signal says that there is something to highlight. It may be set any number of times before it is
cleared, which makes no difference.

* `RestartSignal.set`, `RestartSignal.consume`, `RestartSignal.wait?`.
-/

namespace XmlHighlight

/-- Whether a document waits to be highlighted. -/
structure RestartSignal where
  isSet : Bool
  deriving DecidableEq, Repr

namespace RestartSignal

/-- A signal that nobody has set. -/
def unset : RestartSignal := ⟨false⟩

/-- Sets the signal. -/
def set (_ : RestartSignal) : RestartSignal := ⟨true⟩

/-- Clears the signal, and tells whether it was set. -/
def consume (s : RestartSignal) : Bool × RestartSignal := (s.isSet, unset)

/-- Clears the signal, if it is set. Whoever waits for it has to go on waiting otherwise. -/
def wait? (s : RestartSignal) : Option RestartSignal := if s.isSet then some unset else none

end RestartSignal

end XmlHighlight
