import XmlHighlight.Digit
import XmlHighlight.Source

/-!
# Colors

* `Color` — red, green, blue and opacity;
* `Color.ofHex` — a color written in hexadecimal digits.
-/

namespace XmlHighlight

/-- A color in four channels. -/
structure Color where
  red : UInt8
  green : UInt8
  blue : UInt8
  alpha : UInt8
  deriving DecidableEq, Repr, Inhabited

/-- Why a text is no color. -/
inductive ColorError where
  /-- The text, without the hash signs before it, has the wrong length, or cannot be cut into
      channels. -/
  | badFormat (text : String)
  /-- A channel is not a number in base sixteen. -/
  | badDigit
  deriving DecidableEq, Repr

/-- What the user is told. -/
def ColorError.message : ColorError → String
  | badFormat text => "Invalid color format: " ++ text
  | badDigit => "invalid digit found in string"

namespace Color

/-- A number in base sixteen of at least one digit, after the number `n` of the digits before. -/
def hexDigits? (n : Nat) : List Char → Option Nat
  | [] => none
  | [c] => (hexDigit? c).map (n * 16 + ·)
  | c :: rest => (hexDigit? c).bind fun d => hexDigits? (n * 16 + d) rest

/-- The value of a channel, which may have a plus sign. -/
def channelValue? (text : String) : Option UInt8 :=
  (match text.toList with
    | '+' :: digits => hexDigits? 0 digits
    | digits => hexDigits? 0 digits).map UInt8.ofNat

/-- The channel written in two bytes from offset `i` on. -/
def channel (s : Source) (i : Nat) : Except ColorError UInt8 :=
  match s.slice? i (i + 2) with
  | none => .error (.badFormat s.text)
  | some text =>
    match channelValue? text with
    | some value => .ok value
    | none => .error .badDigit

/-- A color of three or four channels of two bytes each, after any number of hash signs. Three
    channels make an opaque color. -/
def ofHex (text : String) : Except ColorError Color := do
  let s := Source.ofText (String.ofList (text.toList.dropWhile (· == '#')))
  if s.size = 6 ∨ s.size = 8 then
    let red ← channel s 0
    let green ← channel s 2
    let blue ← channel s 4
    let alpha ← if s.size = 8 then channel s 6 else pure 255
    return ⟨red, green, blue, alpha⟩
  else throw (.badFormat s.text)

end Color

end XmlHighlight
