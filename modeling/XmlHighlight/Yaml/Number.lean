import XmlHighlight.Yaml.Scalar

/-!
# Numbers — plain scalars that are no mere text

A plain scalar may read as nothing, as a truth value or as a number.

* `Yaml.unsigned?` — a whole number without a minus sign;
* `Yaml.isInteger`, `Yaml.isFloat` — scalars that read as numbers;
* `Yaml.isTyped` — scalars that read as something other than a text.
-/

namespace XmlHighlight.Yaml

/-! ### Whole numbers -/

/-- The value of at least one digit in a base of at most sixteen. -/
def digitsValue? (base : Nat) (digits : List Char) : Option Nat :=
  if digits.isEmpty then none
  else
    digits.foldlM (fun n c => do
      let d ← hexDigit? c
      if d < base then some (n * base + d) else none) 0

/-- Without a plus sign at the beginning. -/
def withoutPlus : List Char → List Char
  | '+' :: rest => rest
  | text => text

/-- Without a minus sign at the beginning, which has to be there. -/
def afterMinus? : List Char → Option (List Char)
  | '-' :: rest => some rest
  | _ => none

/-- Several digits of which the first is zero. -/
def hasLeadingZero : List Char → Bool
  | '0' :: rest => !rest.isEmpty && rest.all Char.isDigit
  | _ => false

/-- The value of digits without a sign. They are in base sixteen, eight or two after `0x`, `0o` or
    `0b`, and else in base ten, where several digits do not begin with a zero. -/
def magnitude? : List Char → Option Nat
  | '0' :: 'x' :: digits => digitsValue? 16 digits
  | '0' :: 'o' :: digits => digitsValue? 8 digits
  | '0' :: 'b' :: digits => digitsValue? 2 digits
  | digits => if hasLeadingZero digits then none else digitsValue? 10 digits

/-- A whole number below `limit`, maybe with a plus sign. -/
def unsigned? (limit : Nat) (text : List Char) : Option Nat :=
  (magnitude? (withoutPlus text)).filter (· < limit)

/-- A whole number that fits in 128 bits, with or without a sign. -/
def isInteger (text : List Char) : Bool :=
  (unsigned? (Nat.pow 2 128) text).isSome
    || ((afterMinus? text).bind magnitude?).any (· ≤ Nat.pow 2 127)

/-! ### Other numbers -/

/-- A decimal number: its digits as one number, and the power of ten that this is to be multiplied
    by. -/
structure Decimal where
  digits : Nat
  exponent : Int
  deriving DecidableEq, Repr

/-- The exponent after a decimal number, which is zero if there is none. -/
def exponent? : List Char → Option Int
  | [] => some 0
  | e :: rest =>
    if e == 'e' || e == 'E' then
      match rest with
      | '-' :: digits => (digitsValue? 10 digits).map (- Int.ofNat ·)
      | digits => (digitsValue? 10 (withoutPlus digits)).map Int.ofNat
    else none

/-- A decimal number without a sign, with digits on at least one side of a point, and maybe with an
    exponent. -/
def decimal? (text : List Char) : Option Decimal :=
  let whole := text.takeWhile Char.isDigit
  let (fraction, rest) :=
    match text.dropWhile Char.isDigit with
    | '.' :: rest => (rest.takeWhile Char.isDigit, rest.dropWhile Char.isDigit)
    | rest => ([], rest)
  match digitsValue? 10 (whole ++ fraction), exponent? rest with
  | some digits, some e => some ⟨digits, e - fraction.length⟩
  | _, _ => none

/-- The least number that is too large for 64 bits. Half of the last place is added to the largest
    number that is not. -/
def infinityBound : Nat := Nat.pow 2 1024 - Nat.pow 2 970

/-- A decimal number is small enough for 64 bits. -/
def Decimal.isFinite (d : Decimal) : Bool :=
  let length : Int := (Nat.toDigits 10 d.digits).length
  if d.digits = 0 ∨ length + d.exponent < 308 then true
  else if 310 < length + d.exponent then false
  else if 0 ≤ d.exponent then d.digits * Nat.pow 10 d.exponent.toNat < infinityBound
  else d.digits < infinityBound * Nat.pow 10 (-d.exponent).toNat

/-- A number with a point or an exponent, an infinity, or what is not a number. -/
def isFloat (text : List Char) : Bool :=
  let special (names : List String) (t : List Char) : Bool := names.contains (String.ofList t)
  let infinity := [".inf", ".Inf", ".INF"]
  let finite (t : List Char) : Bool := (decimal? t).any Decimal.isFinite
  match text with
  | '+' :: rest => special infinity rest || finite rest
  | '-' :: rest => special infinity rest || !hasLeadingZero rest && finite rest
  | _ =>
    special infinity text || special [".nan", ".NaN", ".NAN"] text
      || !hasLeadingZero text && finite text

/-! ### All of them -/

/-- A scalar without characters, or a word for nothing. -/
def isNull (text : String) : Bool := ["", "~", "null", "Null", "NULL"].contains text

/-- A truth value. -/
def isTruth (text : String) : Bool :=
  ["true", "True", "TRUE", "false", "False", "FALSE"].contains text

/-- Several digits with a zero in front, maybe after a sign. They are a text, but look like a
    number. -/
def looksNumeric : List Char → Bool
  | '+' :: rest => hasLeadingZero rest
  | '-' :: rest => hasLeadingZero rest
  | text => hasLeadingZero text

/-- A plain scalar that reads as something other than a text, or looks like it. -/
def isTyped (text : String) : Bool :=
  isNull text || isTruth text || isInteger text.toList || isFloat text.toList
    || looksNumeric text.toList

end XmlHighlight.Yaml
