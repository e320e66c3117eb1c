import Downlevel.Text.CodeRange

/-! # Blanks and line ends

The characters with the Unicode property `White_Space`, and the four characters that end a line of
a script. -/

namespace Downlevel.Text

def blankRanges : List (Nat × Nat) :=
  [(0x9, 0xD), (0x20, 0x20), (0x85, 0x85), (0xA0, 0xA0), (0x1680, 0x1680), (0x2000, 0x200A),
   (0x2028, 0x2029), (0x202F, 0x202F), (0x205F, 0x205F), (0x3000, 0x3000)]

def isBlank (c : Char) : Bool := inRanges blankRanges c

/-- Whether `c` ends a line of a script: line feed, carriage return, line separator or paragraph
separator. -/
def isLineEnd (c : Char) : Bool :=
  c == '\n' || c == '\r' || c == '\u2028' || c == '\u2029'

end Downlevel.Text
