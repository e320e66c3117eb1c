import Downlevel.Grammar.Expression

/-! # Classes -/

namespace Downlevel.Grammar

variable (k : Knot)

/-- Whether the current word is a modifier of a member and not its name. -/
def isModifier : Parser Bool := do
  let ahead ← nextKind
  return isMemberKey ahead || ahead == .braceL

def typeModifiers : List Contextual :=
  [.kwDeclare, .kwAbstract, .kwOverride, .kwReadonly, .kwPublic, .kwPrivate, .kwProtected]

/-- Takes one modifier; answers whether there was one, and whether it erases the member. -/
def classModifier : Parser (Option Bool) := do
  if (← typescript) && (← seeingAnyWord typeModifiers) then
    if ← isModifier then
      let erases ← seeingAnyWord [.kwDeclare, .kwAbstract]
      nextAsType
      return some erases
  else if ← seeingAnyWord [.kwStatic, .kwAccessor] then
    if ← isModifier then
      next
      return some false
  return none

def classModifiers : Nat → Parser Bool
  | 0 => throw .outOfFuel
  | n + 1 => do
    match ← classModifier with
    | none => return false
    | some erases => return (← classModifiers n) || erases

/-- Whether the current bracket opens an index signature, `[key: …`. -/
def isIndexSignature : Parser Bool := peek do
  next
  if ← eat .name then seeing .colon else return false

/-- `[key: K]?: V;` -/
def indexSignature : Parser Unit := typeContext do
  next
  next
  typeAnnotation k
  expect .bracketR
  skip .question
  if ← seeing .colon then typeAnnotation k
  if !(← eat .semi) then skip .comma

def fieldOrMethod (start : Nat) : Parser Unit := do
  if (← seeingAnyWord [.kwAsync, .kwGet, .kwSet]) && (← isModifier) &&
      !((← seeingWord .kwAsync) && (← lookahead).lineBreakBefore) then next
  skip .star
  propertyName k
  if (← typed) && (← seeingAny [.question, .bang]) then nextAsType
  if ← seeingAny [.parenL, .lessThan] then method k start true
  else
    optionalAnnotation k
    initializer k false
    semicolon

def classMember : Parser Unit := do
  let start ← position
  decorators k
  if (← seeingWord .kwStatic) && (← beforeAny [.braceL]) then
    next
    block k false
  else
    let erased ← classModifiers (← read).budget
    if (← typescript) && (← seeing .bracketL) && (← isIndexSignature) then
      indexSignature k
      markTypeFrom start
    else
      fieldOrMethod k start
      if erased then markTypeFrom start

def classHeritage : Parser Unit := do
  if ← eat .kwExtends then
    discard k.atom
    subscripts k true
    if (← typed) && (← seeingAny [.lessThan, .shiftL]) then typeArguments k
  if (← seeingWord .kwImplements) && (← typed) then
    typeContext do
      next
      separatedBy .comma k.type

def classTail : Parser Unit := do
  if (← typed) && (← seeing .lessThan) then typeParameters k
  classHeritage k
  expect .braceL
  untilClose .braceR do
    if !(← eat .semi) then classMember k

def seeingClassName : Parser Bool := return (← seeing .name) && !(← seeingWord .kwImplements)

/-- A class that is a statement, from `class` on. Its name is declared around it. -/
def classStatement (optionalName : Bool) : Parser Unit := do
  next
  if ← seeingClassName then
    identifier (some (← declarationRole .blockScoped false))
    classTail k
  else if optionalName then classTail k
  else expecting "class name"

/-- A class that is an expression, from `class` on. Its name is declared inside it. -/
def classExpression : Parser Unit := do
  next
  inScope false do
    if ← seeingClassName then identifier (some (.declaration .block false))
    classTail k

end Downlevel.Grammar
