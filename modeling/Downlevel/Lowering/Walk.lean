import Downlevel.Lowering.Element
import Downlevel.Lowering.Enumeration
import Downlevel.Lowering.Erasure
import Downlevel.Lowering.Module

/-! # The walk through a snippet

Each token goes to the first part of lowering that has a use for it, and is copied if there is
none. -/

namespace Downlevel.Lowering

def Scene.moduleStatementAt? (c : Scene) (index : Nat) : Option Statement :=
  c.moduleStatements.find? (·.start == index)

def valueToken (k : Knot) (t : Token) : Lowering Unit := do
  let scene ← read
  let index ← position
  match t.kind with
  | .jsxTagStart => if scene.pragmas.isSome then k.element else copy
  | .kwImport | .kwExport =>
    match scene.moduleStatementAt? index with
    | some statement => moduleStatement k statement
    | none => copy
  | .name | .kwConst =>
    if scene.options.has .typescript && isEnumerationAt scene.sheet index then enumeration k
    else if t.kind == .name then name
    else copy
  | .jsxName => name
  | _ => copy

def token (k : Knot) : Lowering Unit := do
  let t ← current
  if t.isType then eraseTypes
  else
    match arrowAfterType? (← sheet) (← position) with
    | some arrow => eraseReturnType arrow
    | none => valueToken k t

/-- The lowering of constructs nested at most `n` deep. -/
def nested : Nat → Knot
  | 0 => ⟨throw (.fault .outOfFuel), throw (.fault .outOfFuel)⟩
  | n + 1 => ⟨token (nested n), element (nested n)⟩

def openWrap : Lowering Unit := do
  match (← get).wrapping with
  | .before plan =>
    if (← position) == plan.start then
      prepend plan.separator
      prependMapped WrapPlan.opening
      modify fun d => { d with wrapping := .inside plan }
  | _ => pure ()

def closeWrap : Lowering Unit := do
  match (← get).wrapping with
  | .inside plan =>
    if plan.expressionEnd ≤ (← position) then
      append plan.suffix
      modify fun d => { d with wrapping := .off }
  | _ => pure ()

def snippet : Lowering Unit := do
  let k := nested (2 * (← budget))
  whileHolds (return !(← atEnd)) do
    openWrap
    k.token
    closeWrap

end Downlevel.Lowering
