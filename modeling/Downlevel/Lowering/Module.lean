import Downlevel.Lowering.Basic

/-! # Imports and exports

Imports become the code for their module; exports become assignments to members of `exports`. -/

namespace Downlevel.Lowering

def moduleCode (statement : Statement) : Lowering String := do
  let scene ← read
  if scene.options.removeImports then return ""
  match scene.linkage with
  | none => return ""
  | some linkage =>
    match linkage.survey.planAt? statement.start with
    | some (.load path) =>
      let (code, loaded) := linkage.load (← get).loaded path
      modify fun d => { d with loaded }
      return code
    | _ => return ""

def replaceStatement (statement : Statement) (code : String) : Lowering Unit := do
  replace code
  upTo statement.stop remove

/-- The assignments for `export { a as b }`. -/
def Scene.localExports (c : Scene) (statement : Statement) : String :=
  let pairs := Survey.specifiers c.sheet.text ((Survey.tokensOf c.sheet statement).drop 2)
  " ".intercalate (pairs.map fun (bound, exported) =>
    member "exports" exported ++ " = " ++ (c.replacement? bound).getD bound ++ ";")

def exportedDeclaration (k : Knot) (statement : Statement) : Lowering Unit := do
  let s ← sheet
  let stop := (← current).rhsEnd.getD statement.stop
  let declared := (s.tokens.toList.take stop).drop (statement.start + 1)
  let names := Survey.declaredNames s.text declared
  blank
  trimNextGap
  upTo stop k.token
  append (String.join (names.map fun name => " " ++ member "exports" name ++ " = " ++ name ++ ";"))

def exported (k : Knot) (statement : Statement) : Lowering Unit := do
  let scene ← read
  match scene.sheet.kindAt (statement.start + 1) with
  | .star => replaceStatement statement (← moduleCode statement)
  | .braceL =>
    let tokens := (Survey.tokensOf scene.sheet statement).drop 1
    if tokens.any (·.isWord .kwFrom) then replaceStatement statement (← moduleCode statement)
    else replaceStatement statement (scene.localExports statement)
  | _ => exportedDeclaration k statement

/-- The index at which a function or class has its name, when one starts at an index. -/
def declaredNameIndex? (s : Sheet) (index : Nat) : Option Nat :=
  let index := if s.hasWord index .kwAsync && s.hasKinds (index + 1) [.kwFunction] then index + 1
    else index
  if s.hasKinds index [.kwFunction, .star] then some (index + 2)
  else if s.hasKinds index [.kwFunction] || s.hasKinds index [.kwClass] then some (index + 1)
  else none

def declaredName? (s : Sheet) (index : Nat) : Option String := do
  let index := index + ((s.tokens.toList.drop index).takeWhile (·.isType)).length
  let place ← declaredNameIndex? s index
  let t ← s.token? place
  if t.kind == .name && t.role.any (·.isDeclaration) then some (s.textAt place) else none

/-- Lowers the default export. A function or class with a name keeps it. -/
def exportedDefault (k : Knot) (statement : Statement) : Lowering Unit := do
  match declaredName? (← sheet) (statement.start + 2) with
  | some name =>
    blank
    remove
    trimNextGap
    upTo statement.stop k.token
    append (" exports.default = " ++ name ++ ";")
  | none =>
    replace "exports.default ="
    remove
    upTo statement.stop k.token

def moduleStatement (k : Knot) (statement : Statement) : Lowering Unit := do
  match statement.kind with
  | .importStatement => replaceStatement statement (← moduleCode statement)
  | .exportDefault => exportedDefault k statement
  | .exportStatement => exported k statement
  | _ => copy

end Downlevel.Lowering
