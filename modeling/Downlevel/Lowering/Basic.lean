import Downlevel.Compile.Options
import Downlevel.Compile.Wrap
import Downlevel.Edit.Editor
import Downlevel.Linkage.Scaffold

/-! # Lowering

Lowering goes through the tokens of a snippet with an editor. What is written here are the steps
that all parts of it share: looking at tokens, editing them, and going on for as long as a condition
holds. -/

namespace Downlevel.Lowering

/-- What elements become calls of in the classic runtime. -/
structure Pragmas where
  element : String
  fragment : String
deriving Repr

structure Scene where
  sheet : Sheet
  options : CompileOptions
  linkage : Option Linkage
  moduleStatements : List Statement
  lines : Text.LineIndex
  pragmas : Option Pragmas

inductive Wrapping where
  | off
  | before (plan : WrapPlan)
  | inside (plan : WrapPlan)
deriving Repr

structure Draft where
  editor : Editor := {}
  names : NameSupply
  loaded : List String := []
  /-- the modules that calls for elements need -/
  runtime : Dict ImportRecord := []
  wrapping : Wrapping

end Lowering

abbrev Lowering := ReaderT Lowering.Scene (StateT Lowering.Draft (Except Halt))

namespace Lowering

/-- The lowering of what is nested in a construct. -/
structure Knot where
  token : Lowering Unit
  element : Lowering Unit

/-! ## Looking -/

def sheet : Lowering Sheet := return (← read).sheet

def options : Lowering CompileOptions := return (← read).options

def editor : Lowering Editor := return (← get).editor

def position : Lowering Nat := return (← editor).index

def current : Lowering Token := return (← editor).current (← sheet)

def currentText : Lowering String := return (← editor).currentText (← sheet)

def atEnd : Lowering Bool := return (← editor).atEnd (← sheet)

def seeing (kinds : List Kind) : Lowering Bool := return (← editor).sees (← sheet) kinds

def broken (invariant : Invariant) : Lowering α := do
  throw (.error ((← editor).broken (← sheet) invariant))

/-! ## Editing -/

def edit (f : Sheet → Editor → Editor) : Lowering Unit := do
  let s ← sheet
  modify fun d => { d with editor := f s d.editor }

def copy : Lowering Unit := edit fun s e => e.copy s

def replace (code : String) : Lowering Unit := edit fun s e => e.replace s code

def replaceTrimmed (code : String) : Lowering Unit := edit fun s e => e.replaceTrimmed s code

def remove : Lowering Unit := edit fun s e => e.remove s

def blank : Lowering Unit := edit fun s e => e.blank s

def append (code : String) : Lowering Unit := edit fun _ e => e.append code

def prepend (code : String) : Lowering Unit := edit fun _ e => e.prepend code

def prependMapped (code : String) : Lowering Unit := edit fun _ e => e.prependMapped code

def trimNextGap : Lowering Unit := edit fun _ e => e.trimNextGap

def copyExpected (kind : Kind) : Lowering Unit := do
  if (← current).kind == kind then copy else broken (.expectedToken kind)

def removeExpected (kind : Kind) : Lowering Unit := do
  if ← seeing [kind] then remove else broken (.expectedToken kind)

/-! ## Going on -/

def whileBounded (condition : Lowering Bool) (body : Lowering Unit) : Nat → Lowering Unit
  | 0 => throw (.fault .outOfFuel)
  | n + 1 => do
    if ← condition then
      body
      whileBounded condition body n

/-- How often a loop may go round that passes a token each time. -/
def budget : Lowering Nat := return (← sheet).tokens.size + 1

/-- Runs `body`, which passes a token, while `condition` holds. -/
def whileHolds (condition : Lowering Bool) (body : Lowering Unit) : Lowering Unit := do
  whileBounded condition body (← budget)

def upTo (stop : Nat) (body : Lowering Unit) : Lowering Unit :=
  whileHolds (return (← position) < stop && !(← atEnd)) body

/-! ## Names -/

def Scene.replacement? (c : Scene) (name : String) : Option String :=
  if c.options.removeImports then none else c.linkage.bind (·.replacement? name)

/-- Whether the name at an index is called as a function: `f()`, `f?.()` or a tagged template, but
not `new f()`. -/
def isCalledAt (s : Sheet) (index : Nat) : Bool :=
  (s.hasKinds (index + 1) [.parenL] || s.hasKinds (index + 1) [.questionDot, .parenL] ||
      s.hasKinds (index + 1) [.backQuote]) &&
    !(index != 0 && s.hasKinds (index - 1) [.kwNew])

def Scene.nameCode? (c : Scene) (index : Nat) : Option String := do
  let t ← c.sheet.token? index
  let role ← t.role
  if !(role == .access || role == .objectShorthand) || t.shadowed then none
  let name := c.sheet.textAt index
  let code ← c.replacement? name
  if role == .objectShorthand then some (name ++ ": " ++ code)
  else if isCalledAt c.sheet index then some ("(0, " ++ code ++ ")")
  else some code

def name : Lowering Unit := do
  match (← read).nameCode? (← position) with
  | some code => replace code
  | none => copy

end Lowering

end Downlevel
