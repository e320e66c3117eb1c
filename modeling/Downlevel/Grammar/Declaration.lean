import Downlevel.Grammar.Class
import Downlevel.Grammar.Type

/-! # Declarations -/

namespace Downlevel.Grammar

variable (k : Knot)

/-- `a: T = b, c` after `var`, `let` or `const`. -/
def declarators (binding : Binding) (noIn : Bool) : Parser Unit := separatedBy .comma do
  k.bindingAtom binding
  if (← typescript) && (← seeing .bang) then nextAsType
  optionalAnnotation k
  initializer k noIn

def variableStatement (binding : Binding) : Parser Unit := do
  next
  declarators k binding false
  semicolon

/-- `enum A { B, C = 1 }` -/
def enumeration : Parser Unit := do
  next
  identifier (some (← declarationRole .blockScoped false))
  expect .braceL
  commaList .braceR do
    if !(← eat .string) then identifierName
    initializer k false

/-- `type A<T> = B` and, in Flow, `type A: B = C` -/
def typeAlias : Parser Unit := typeContext do
  next
  identifier none
  if ← seeing .lessThan then typeParameters k
  if (← flow) && (← seeing .colon) then
    next
    k.type
  if ← eat .eq then k.type
  semicolon

/-- `interface A<T> extends B, C { … }` -/
def interfaceDeclaration : Parser Unit := typeContext do
  next
  identifier none
  if ← seeing .lessThan then typeParameters k
  if ← eat .kwExtends then separatedBy .comma k.type
  objectType k

/-- `namespace A.B { }`, `module 'x' { }` or `global { }` after `declare`. -/
def ambientModule : Parser Unit := do
  let isGlobal ← seeingWord .kwGlobal
  next
  if !isGlobal then
    if !(← eat .string) then
      identifierName
      dottedNames
  if ← seeing .braceL then block k false else semicolon

/-- `declare …`, which is left out up to the end of what it declares. -/
def ambientDeclaration : Parser Unit := do
  let start ← position
  typeContext do
    next
    if ← seeingAnyWord [.kwGlobal, .kwNamespace, .kwModule] then ambientModule k
    else discard k.statement
  markTypeFrom start

end Downlevel.Grammar
