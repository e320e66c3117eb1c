import Downlevel.Grammar.Pattern

/-! # Types

Types are never compiled, only left out. The callers of these rules have entered a type context, so
that every token here is marked as belonging to a type. -/

namespace Downlevel.Grammar

variable (k : Knot)

/-- `A.B.C<Args>` -/
def typeReference : Parser Unit := do
  identifierName
  dottedNames
  if (← seeing .lessThan) && !(← lineBreakBefore) then typeArguments k

/-- `import('x').A<B>` -/
def importType : Parser Unit := do
  next
  expect .parenL
  expect .string
  expect .parenR
  dottedNames
  if ← seeing .lessThan then typeArguments k

/-- `[A, name?: B, ...C]`, from the bracket on. -/
def tupleType : Parser Unit := do
  next
  commaList .bracketR do
    skip .ellipsis
    k.type
    skip .question
    if ← eat .colon then k.type

/-- `<T>(a: A): B` of a signature. -/
def signature : Parser Unit := do
  if ← seeing .lessThan then typeParameters k
  functionParameters k
  if ← seeing .colon then
    next
    typeOrPredicate k

def memberType : Parser Unit := do
  skip .question
  if ← seeingAny [.parenL, .lessThan] then signature k
  else if ← eat .colon then k.type

def typeMember : Parser Unit := do
  if ← seeingAny [.parenL, .lessThan] then signature k
  else if (← seeing .kwNew) && (← beforeAny [.parenL, .lessThan]) then
    next
    signature k
  else if ← eat .ellipsis then k.type
  else
    if (← seeingWord .kwReadonly) &&
        !(← beforeAny [.parenL, .colon, .question, .comma, .semi, .braceR]) then next
    if (← flow) && (← seeing .plusMinus) then next
    if ← eat .bracketL then
      if (← seeing .name) && (← beforeAny [.colon]) then
        next
        next
      k.type
      expect .bracketR
    else
      if (← seeingAnyWord [.kwGet, .kwSet]) && (← beforeAny [.name, .string, .num, .bracketL]) then
        next
      propertyName k
    memberType k

/-- `{ a: A; b(): B }`, also the body of an interface. -/
def objectType : Parser Unit := do
  let close := if ← seeing .braceBarL then .braceBarR else .braceR
  if ← seeingAny [.braceL, .braceBarL] then
    next
    untilClose close do
      typeMember k
      if !(← eat .comma) then
        if !(← eat .semi) then
          if !(← seeing close) && !(← lineBreakBefore) then expecting ";"
  else expecting "\x7b"

/-- `{ readonly [K in T as U]?: V }`; answers whether the braces hold that. -/
def mappedType : Parser Bool := do
  next
  skip .plusMinus
  discard (eatWord .kwReadonly)
  if !(← eat .bracketL) then return false
  if !(← eat .name) then return false
  if !(← seeing .kwIn) then return false
  next
  k.type
  if ← eatWord .kwAs then k.type
  expect .bracketR
  skip .plusMinus
  skip .question
  if ← eat .colon then k.type
  if !(← eat .semi) then skip .comma
  expect .braceR
  return true

def tryMappedType : Parser Bool := do
  if ← seeing .braceL then attempt (mappedType k) else return false

def primaryType : Parser Unit := do
  match ← kind with
  | .name => typeReference k
  | .kwVoid | .kwNull | .kwThis | .kwTrue | .kwFalse | .num | .bigInt | .string => next
  | .plusMinus =>
    next
    if !(← eat .num) then
      if !(← eat .bigInt) then expecting "number"
  | .kwTypeof =>
    next
    if ← seeing .kwImport then importType k else typeReference k
  | .kwImport => importType k
  | .braceL | .braceBarL =>
    if !(← tryMappedType k) then objectType k
  | .bracketL => tupleType k
  | .parenL =>
    next
    k.type
    expect .parenR
  | .backQuote => template k.type
  | .star => if ← flow then next else expecting "type"
  | _ => expecting "type"

/-- `T[]` and `T[K]` -/
def arrayType : Parser Unit := do
  primaryType k
  whileTrue (do if ← lineBreakBefore then return false else eat .bracketL) do
    if !(← seeing .bracketR) then k.type
    expect .bracketR

/-- `keyof T`, `unique T`, `readonly T`, `infer U` and, in Flow, `?T`. -/
def typeOperator : Parser Unit := do
  if (← seeingAnyWord [.kwKeyof, .kwUnique, .kwReadonly]) &&
      !(← beforeAny [.comma, .greaterThan, .parenR, .bracketR, .semi, .eq, .braceR]) then
    next
    k.typeOperator
  else if (← seeingWord .kwInfer) && (← beforeAny [.name]) then
    next
    next
    -- `infer U extends X ? …` is a conditional type and not a constraint on `U`
    if ← seeing .kwExtends then
      discard <| attempt do
        next
        k.plainType
        return !(← failed) && !(← seeing .question)
  else if (← flow) && (← seeing .question) then
    next
    k.typeOperator
  else arrayType k

/-- `A & B` -/
def intersectionType : Parser Unit := do
  skip .bitAnd
  separatedBy .bitAnd (typeOperator k)

/-- `A | B` -/
def unionType : Parser Unit := do
  skip .bitOr
  separatedBy .bitOr (intersectionType k)

/-- `(a: A) => B`, after any type parameters. -/
def functionType : Parser Unit := do
  functionParameters k
  expect .arrow
  typeOrPredicate k

def tryFunctionType : Parser Bool := attempt do
  functionParameters k
  if (← failed) || !(← seeing .arrow) then return false
  next
  typeOrPredicate k
  return true

def plainType : Parser Unit := do
  if ← seeing .lessThan then
    typeParameters k
    functionType k
  else if ← (do if ← seeing .parenL then tryFunctionType k else return false) then return
  else if (← seeing .kwNew) || ((← seeingWord .kwAbstract) && (← beforeAny [.kwNew])) then
    discard (eatWord .kwAbstract)
    next
    if ← seeing .lessThan then typeParameters k
    functionType k
  else unionType k

def type : Parser Unit := do
  plainType k
  if !(← lineBreakBefore) then
    if ← eat .kwExtends then
      plainType k
      expect .question
      k.type
      expect .colon
      k.type

end Downlevel.Grammar
