import Downlevel.Grammar.Part

/-! # Where types are attached

Annotations, type parameters and type arguments. All their tokens belong to types. -/

namespace Downlevel.Grammar

variable (k : Knot)

/-- `: T`, from the colon on. -/
def typeAnnotation : Parser Unit := typeContext do
  next
  k.type

/-- A type, or what a function may promise of its argument: `x is T`, `asserts x`,
`asserts x is T`. -/
def typeOrPredicate : Parser Unit := do
  let ahead ← lookahead
  if (← seeingWord .kwAsserts) && !ahead.lineBreakBefore &&
      (ahead.kind == .name || ahead.kind == .kwThis) then
    next
    next
    if ← eatWord .kwIs then k.type
  else if (← seeingAny [.name, .kwThis]) && ahead.isWord .kwIs && !ahead.lineBreakBefore then
    next
    next
    k.type
  else k.type

/-- `: T` after the parameters of a function, from the colon on. -/
def returnAnnotation : Parser Unit := typeContext do
  next
  typeOrPredicate k

/-- `: T`, when types are read and a colon follows. -/
def optionalAnnotation : Parser Unit := do
  if (← typed) && (← seeing .colon) then typeAnnotation k

def optionalReturnAnnotation : Parser Unit := do
  if (← typed) && (← seeing .colon) then returnAnnotation k

/-- `<T extends U = V, …>`, from the `<` on. -/
def typeParameters : Parser Unit := typeContext do
  next
  commaList .greaterThan do
    whileTrue
      (return (← seeingAny [.kwConst, .kwIn]) ||
        ((← seeingWord .kwOut) && (← beforeAny [.name])))
      next
    if (← flow) && (← seeing .plusMinus) then next
    identifier none
    if (← flow) && (← seeing .colon) then
      next
      k.type
    if ← eat .kwExtends then k.type
    if ← eat .eq then k.type

/-- `<A, B>`, from the `<` on. -/
def typeArguments : Parser Unit := typeContext do
  next
  commaList .greaterThan k.type

def splitShift : Parser Unit := do
  if ← seeing .shiftL then reread Cursor.splitShift?

/-- Type arguments, if they can be read as such. With `callOnly`, a call or a template has to
follow them. -/
def tryTypeArguments (callOnly : Bool) : Parser Bool := attempt do
  splitShift
  typeArguments k
  return !(← failed) && (!callOnly || (← seeingAny [.parenL, .backQuote]))

end Downlevel.Grammar
