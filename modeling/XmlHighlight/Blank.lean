/-!
# Blank characters

The characters with the Unicode property White_Space. A text made of nothing else is blank, and an
element name in running text ends at one of them.

* `isBlank` — the property;
* `isBlankText` — every character has it.
-/

namespace XmlHighlight

/-- A character with the Unicode property White_Space. -/
def isBlank (c : Char) : Bool :=
  let n := c.val
  (9 ≤ n && n ≤ 13) || n == 0x20 || n == 0x85 || n == 0xA0 || n == 0x1680
    || (0x2000 ≤ n && n ≤ 0x200A) || n == 0x2028 || n == 0x2029 || n == 0x202F || n == 0x205F
    || n == 0x3000

/-- A text in which there is nothing to see. -/
def isBlankText (text : String) : Bool := text.toList.all isBlank

end XmlHighlight
