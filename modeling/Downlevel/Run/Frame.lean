import Downlevel.Run.Thrown
import Downlevel.Text.Numeral

/-! # Stack frames

Engines write the place of an error in code that was made from a string as `<anonymous>:3:7` or as
`> Function:3:7`. -/

namespace Downlevel.Frame

def heads : List (List Char) := ["<anonymous>".toList, "> Function".toList]

def field? : List Char → Option (List Char × List Char)
  | ':' :: cs =>
    match cs.takeWhile Text.isDecimalDigit with
    | [] => none
    | digits => some (digits, cs.dropWhile Text.isDecimalDigit)
  | _ => none

def here? (cs : List Char) : Option (List Char × List Char) := do
  let head ← heads.find? (·.isPrefixOf cs)
  let (line, rest) ← field? (cs.drop head.length)
  let (column, _) ← field? rest
  return (line, column)

def first? : List Char → Option (List Char × List Char)
  | [] => none
  | c :: cs => (here? (c :: cs)).or (first? cs)

/-- A number in ASCII digits, if it is not too large. -/
def number? (digits : List Char) : Option Nat :=
  if digits.all Char.isDigit then
    let n := digits.foldl (fun n c => 10 * n + (c.toNat - '0'.toNat)) 0
    if n ≤ Location.limit then some n else none
  else none

def position? (stack : String) : Option (Nat × Nat) := do
  let (line, column) ← first? stack.toList
  return (← number? line, ← number? column)

end Downlevel.Frame

namespace Downlevel

/-- The line and column of an error as the engine gives them, both counted from one: in fields of
their own, or else in the stack. -/
def Thrown.reported? (e : Thrown) : Option (Nat × Nat) :=
  match e.lineNumber, e.columnNumber with
  | some line, some column => some (line, column)
  | _, _ => e.stack.bind Frame.position?

end Downlevel
