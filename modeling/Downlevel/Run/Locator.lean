import Downlevel.Run.Frame
import Downlevel.SourceMap.Basic

/-! # Finding errors in snippets

Code runs as the body of a function, so that lines of its prologue come before it. They are taken
off before an error is looked up in the source map. -/

namespace Downlevel

/-- How many lines come before the body of a function: those of the prologue up to its last brace,
and one more if a line feed follows the brace. -/
def prologueLines (prologue : String) : Nat :=
  let cs := prologue.toList.reverse
  match cs.dropWhile (· != '{') with
  | [] => 0
  | _ :: before =>
    let after := (cs.takeWhile (· != '{')).reverse
    before.count '\n' + (if after.head? == some '\n' then 1 else 0)

structure Locator where
  mappings : SourceMap.Mappings
  lineOffset : Nat

namespace Locator

def ofMap (map : SourceMap) (prologue : String) : Except SourceMap.DecodeError Locator := do
  return { mappings := ← map.decode, lineOffset := prologueLines prologue }

/-- How many numbers there are for lines, since they are 32 bits wide. -/
def lineNumberCount : Nat := 0x100000000

/-- The number of a line that has `line` lines before it. After the last number comes zero. -/
def lineNumber (line : Nat) : Nat := (line + 1) % lineNumberCount

/-- Where in the snippet an error comes from. Only the starts of mapped segments are found; nothing
is guessed between them. -/
def locate? (l : Locator) (e : Thrown) : Option Location := do
  let (line, column) ← e.reported?
  if line < 1 + l.lineOffset then none
  let segment ← l.mappings.segmentAt? (line - 1 - l.lineOffset) (column - 1)
  let origin ← segment.origin
  return { line := lineNumber origin.line, column := origin.column }

def resolve (l : Locator) (e : Thrown) : Thrown := { e with location := l.locate? e }

end Locator

end Downlevel
