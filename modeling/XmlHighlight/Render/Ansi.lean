import XmlHighlight.Digit
import XmlHighlight.Style.Buffer
import XmlHighlight.Style.Theme

/-!
# Terminal output

A character is shown in the color of its first byte. The color is set where the class changes, and
is reset before that if there was one.

* `Ansi.setColor`, `Ansi.reset` — the sequences for a terminal;
* `StyledBuffer.toAnsi` — a buffer for a terminal.
-/

namespace XmlHighlight

namespace Ansi

/-- The sequence that resets the color. -/
def reset : String := "\x1b[0m"

/-- The sequence that sets the color of the text. -/
def setColor (color : Color) : String :=
  "\x1b[38;2;" ++ decimal color.red.toNat ++ ";" ++ decimal color.green.toNat ++ ";"
    ++ decimal color.blue.toNat ++ "m"

/-- What has been written, and the class of its last character. -/
structure Writer where
  written : String
  style : Option StyleClass
  deriving DecidableEq

namespace Writer

/-- What comes before a character of a class after one of another. -/
def change (theme : Theme) (before after : Option StyleClass) : String :=
  (if before.isSome then reset else "") ++ ((after.bind theme.color?).map setColor).getD ""

/-- Writes a character of a class. -/
def write (w : Writer) (theme : Theme) (style : Option StyleClass) (c : Char) : Writer :=
  if style = w.style then { w with written := w.written.push c }
  else ⟨(w.written ++ change theme w.style style).push c, style⟩

/-- Ends with no color. -/
def finish (w : Writer) : String := if w.style.isSome then w.written ++ reset else w.written

end Writer

/-- Writes characters, the first of which stands at an offset. -/
def writeChars (theme : Theme) (style : Nat → Option StyleClass) :
    List Char → (offset : Nat) → Writer → Writer
  | [], _, w => w
  | c :: rest, offset, w =>
    writeChars theme style rest (offset + c.utf8Size) (w.write theme (style offset) c)

end Ansi

/-- The text of a buffer with its colors, for a terminal. -/
def StyledBuffer.toAnsi (b : StyledBuffer) (theme : Theme) : String :=
  (Ansi.writeChars theme b.classAt b.text.toList 0 ⟨"", none⟩).finish

end XmlHighlight
