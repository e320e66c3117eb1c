import Downlevel.Text.Utf8

/-! # Lines and columns

Offsets into a text and positions in it by line and column. Columns count 16-bit units, as the
engines that run the compiled code do. On a line of ASCII alone, units are bytes. -/

namespace Downlevel

/-- A line and a column, both counted from zero. -/
structure Position where
  line : Nat
  column : Nat
deriving DecidableEq, Repr, Inhabited

namespace Text

def units (c : Char) : Nat := if c.toNat < 0x10000 then 1 else 2

def unitSize : List Char → Nat
  | [] => 0
  | c :: cs => units c + unitSize cs

/-- The line starts of a text, and the lines that have more than ASCII on them. -/
structure LineIndex where
  starts : List Nat
  wide : List Nat
  size : Nat
deriving Repr

namespace LineIndex

/-- The line starts after the first, and the wide lines, of a text that begins at byte `offset` of
line `line`. -/
def scan (offset line : Nat) : List Char → List Nat × List Nat
  | [] => ([], [])
  | c :: cs =>
    if c == '\n' then
      let (starts, wide) := scan (offset + 1) (line + 1) cs
      ((offset + 1) :: starts, wide)
    else
      let (starts, wide) := scan (offset + c.utf8Size) line cs
      (starts, if c.toNat < 0x80 || wide.head? == some line then wide else line :: wide)

def ofText (text : List Char) : LineIndex :=
  let (starts, wide) := scan 0 0 text
  { starts := 0 :: starts, wide, size := Text.size text }

def lineCount (index : LineIndex) : Nat := index.starts.length

def lineStart? (index : LineIndex) (line : Nat) : Option Nat := index.starts[line]?

def lineOf (index : LineIndex) (offset : Nat) : Nat :=
  (index.starts.takeWhile (· ≤ offset)).length - 1

/-- The position of an offset, when it is a place of the text from which the index was made. -/
def position? (index : LineIndex) (text : List Char) (offset : Nat) : Option Position := do
  if index.size < offset then none
  let line := index.lineOf offset
  let start ← index.lineStart? line
  if index.wide.contains line then
    return ⟨line, unitSize (← slice? start offset text)⟩
  else return ⟨line, offset - start⟩

/-- The number of bytes up to the first place at or after `column` units, or of the whole text when
there is none. -/
def bytesTo (column : Nat) : List Char → Nat
  | [] => 0
  | c :: cs => if column == 0 then 0 else c.utf8Size + bytesTo (column - units c) cs

/-- How many offsets there are, since they are 32 bits wide. -/
def offsetCount : Nat := 0x100000000

/-- The offset of a position. On a line of ASCII alone the column is added to the start of the line
as it is, and on any other it is looked for up to the end of the text. A sum beyond the last offset
goes on from zero. -/
def offset? (index : LineIndex) (text : List Char) (p : Position) : Option Nat := do
  let start ← index.lineStart? p.line
  if index.wide.contains p.line then
    return start + bytesTo p.column (← drop? start text)
  else return (start + p.column) % offsetCount

end LineIndex

end Text

end Downlevel
