import Downlevel.Lowering.Basic

/-! # Types

Tokens that belong to types go. -/

namespace Downlevel.Lowering

/-- Removes the run of type tokens that starts at the current one; the gap before it stays. -/
def eraseTypes : Lowering Unit := do
  blank
  whileHolds (return (← current).isType && !(← atEnd)) remove

/-- The index of the first token from `index` on that belongs to no type. -/
def afterTypes (s : Sheet) (index : Nat) : Nat :=
  index + ((s.tokens.toList.drop index).takeWhile (·.isType)).length

/-- The index of the arrow, when the current token is the parenthesis in `): T =>`. -/
def arrowAfterType? (s : Sheet) (index : Nat) : Option Nat :=
  let arrow := afterTypes s (index + 1)
  if s.hasKinds index [.parenR, .colon] && arrow != index + 1 && s.hasKinds arrow [.arrow] then
    some arrow
  else none

/-- Lowers `): T =>` to `) =>`. The parenthesis moves to the arrow, so that no line break of the
type comes between them. -/
def eraseReturnType (arrow : Nat) : Lowering Unit := do
  blank
  whileHolds (return (← position) < arrow) remove
  replaceTrimmed ") =>"

end Downlevel.Lowering
