/-!
# Edit clock

The clock remembers when the user typed last, so that a worker can wait for a pause. Times are
counted in some fixed unit from some fixed moment on.

* `EditClock.record`, `EditClock.isTyping`.
-/

namespace XmlHighlight

/-- The time of the latest edit, if there has been one. -/
structure EditClock where
  lastEdit : Option Nat
  deriving DecidableEq, Repr

namespace EditClock

/-- There has been no edit. -/
def blank : EditClock := ⟨none⟩

/-- Takes note of an edit. -/
def record (_ : EditClock) (time : Nat) : EditClock := ⟨some time⟩

/-- The latest edit was less than a quiet period ago. -/
def isTyping (c : EditClock) (now quietPeriod : Nat) : Bool :=
  c.lastEdit.any fun time => now - time < quietPeriod

/-- Nobody is found typing if the quiet period is empty. -/
@[simp] theorem isTyping_zero (c : EditClock) (now : Nat) : c.isTyping now 0 = false := by
  cases h : c.lastEdit <;> simp [isTyping, h]

end EditClock

end XmlHighlight
