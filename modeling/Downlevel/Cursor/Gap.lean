import Downlevel.Text.Blank
import Downlevel.Text.Point

/-! # Gaps

The gap before a token: blanks and comments. A comment that runs to the end of a line takes the
line end with it, and a first line that starts with `#!` is a comment. -/

namespace Downlevel

inductive Gap where
  | ends (length : Nat)
  /-- a block comment that is never closed starts after `before` characters -/
  | openComment (before : Nat)
deriving DecidableEq, Repr

namespace Gap

inductive Place where
  | between
  | lineComment
  /-- in a block comment that started after `start` characters -/
  | blockComment (start : Nat)

def isSpace (c : Char) : Bool := Text.isBlank c || c == '\ufeff'

/-- Reads on in a gap of which `n` characters are read. -/
def scan : Place → Nat → List Char → Gap
  | .between, n, '/' :: '/' :: cs => scan .lineComment (n + 2) cs
  | .between, n, '/' :: '*' :: cs => scan (.blockComment n) (n + 2) cs
  | .between, n, c :: cs => if isSpace c then scan .between (n + 1) cs else .ends n
  | .lineComment, n, c :: cs =>
    scan (if Text.isLineEnd c then .between else .lineComment) (n + 1) cs
  | .blockComment _, n, '*' :: '/' :: cs => scan .between (n + 2) cs
  | .blockComment start, n, _ :: cs => scan (.blockComment start) (n + 1) cs
  | .blockComment start, _, [] => .openComment start
  | _, n, [] => .ends n

def at? (p : Text.Point) : Gap :=
  match p.offset, p.rest with
  | 0, '#' :: '!' :: cs => scan .lineComment 2 cs
  | _, cs => scan .between 0 cs

end Gap

end Downlevel
