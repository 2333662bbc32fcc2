/-!
# The characters of XML

* `Xml.isSpace` — the four bytes of white space in markup;
* `Xml.isXmlChar` — what a document may contain at all;
* `Xml.isNameStart`, `Xml.isNameChar` — what a name may begin with, and go on with.
-/

namespace XmlHighlight.Xml

/-- Space, tab, line feed or carriage return. -/
def isSpace (b : UInt8) : Bool := b == 32 || b == 9 || b == 10 || b == 13

/-- A character that a document may contain: no control character but tab, line feed and carriage
    return, and not one of the two noncharacters at the end of the basic plane. -/
def isXmlChar (c : Char) : Bool :=
  let n := c.val
  if n < 0x20 then n == 9 || n == 10 || n == 13 else n != 0xFFFE && n != 0xFFFF

/-- The first character of a name. -/
def isNameStart (c : Char) : Bool :=
  let n := c.val
  if n ≤ 128 then
    (0x41 ≤ n && n ≤ 0x5A) || (0x61 ≤ n && n ≤ 0x7A) || n == 0x3A || n == 0x5F
  else
    (0xC0 ≤ n && n ≤ 0xD6) || (0xD8 ≤ n && n ≤ 0xF6) || (0xF8 ≤ n && n ≤ 0x2FF)
      || (0x370 ≤ n && n ≤ 0x37D) || (0x37F ≤ n && n ≤ 0x1FFF) || (0x200C ≤ n && n ≤ 0x200D)
      || (0x2070 ≤ n && n ≤ 0x218F) || (0x2C00 ≤ n && n ≤ 0x2FEF) || (0x3001 ≤ n && n ≤ 0xD7FF)
      || (0xF900 ≤ n && n ≤ 0xFDCF) || (0xFDF0 ≤ n && n ≤ 0xFFFD) || (0x10000 ≤ n && n ≤ 0xEFFFF)

/-- A further character of a name. -/
def isNameChar (c : Char) : Bool :=
  let n := c.val
  isNameStart c || (0x30 ≤ n && n ≤ 0x39) || n == 0x2D || n == 0x2E || n == 0xB7
    || (0x300 ≤ n && n ≤ 0x36F) || (0x203F ≤ n && n ≤ 0x2040)

end XmlHighlight.Xml
