import Downlevel.Grammar.Function

/-! # Expressions

Parsers of what may turn out to be an arrow function answer whether it was one, so that no member
access or operator is looked for after it. -/

namespace Downlevel.Grammar

variable (k : Knot)

/-! ## Arrow functions -/

/-- `=> body`, from the arrow on, inside the scope of the parameters. -/
def arrowBody : Parser Unit := do
  next
  if ← seeing .braceL then block k true else k.value

/-- `x => body` -/
def nameArrow : Parser Bool := inScope true do
  identifier (some (.declaration .function false))
  if !(← seeing .arrow) then expecting "=>"
  arrowBody k
  return true

/-- `(a, b): T => body`, when the parentheses open one. -/
def tryArrow : Parser Bool := attempt <| inScope true do
  functionParameters k
  optionalReturnAnnotation k
  if (← failed) || !(← seeing .arrow) || (← lineBreakBefore) then return false
  arrowBody k
  return true

/-- `<T>(a) => body`, when the `<` opens one. -/
def tryGenericArrow : Parser Bool := attempt do
  typeParameters k
  if !(← failed) && (← seeing .parenL) then tryArrow k else return false

/-! ## Object literals -/

/-- Whether what follows can be the key of a member, so that the word before it is a modifier. -/
def isMemberKey (ahead : Kind) : Bool :=
  [Kind.name, .string, .num, .bigInt, .bracketL, .star, .privateName].contains ahead ||
    ahead.isReserved

/-- `*`, `async`, `get` or `set` before the key of a member; answers whether there was one. -/
def memberModifier : Parser Bool := do
  if ← eat .star then return true
  if ← seeingAnyWord [.kwAsync, .kwGet, .kwSet] then
    let ahead ← lookahead
    if isMemberKey ahead.kind && !((← seeingWord .kwAsync) && ahead.lineBreakBefore) then
      next
      skip .star
      return true
  return false

def objectMember (close : Kind) : Parser Unit := do
  let start ← position
  let modified ← memberModifier
  if !modified && (← seeing .name) && (← beforeAny [.comma, .eq, close]) then
    identifier (some .objectShorthand)
    defaultValue k
  else
    if ← seeing .name then identifier (some .objectKey) else propertyName k
    if ← seeingAny [.parenL, .lessThan] then method k start false
    else
      expect .colon
      k.value

/-- `{ a, b: c, ...d }` -/
def objectLiteral : Parser Unit := do
  let close := if ← seeing .braceBarL then .braceBarR else .braceR
  next
  commaList close do
    if ← eat .ellipsis then k.value else objectMember k close

/-- `[a, , ...b]` -/
def arrayLiteral : Parser Unit := do
  next
  untilClose .bracketR do
    if !(← eat .comma) then
      skip .ellipsis
      k.value
      if !(← seeing .bracketR) then expect .comma

/-! ## Members and calls -/

def memberName : Parser Unit := do
  if ← seeing .privateName then next else identifierName

/-- `[expression]` -/
def computedMember : Parser Unit := do
  next
  k.expression
  expect .bracketR

/-- What follows `?.`; answers whether more may follow. -/
def optionalMember : Parser Bool := do
  next
  match ← kind with
  | .parenL =>
    callArguments k
    return true
  | .bracketL =>
    computedMember k
    return true
  | .lessThan =>
    if ← typescript then
      if ← tryTypeArguments k true then return true
      unexpected
      return false
    else
      memberName
      return true
  | _ =>
    memberName
    return true

/-- Member accesses, calls, tagged templates and non-null assertions, as often as they follow. -/
def subscripts (noCalls : Bool) : Parser Unit := repeatWhile do
  match ← kind with
  | .dot =>
    next
    memberName
    return true
  | .questionDot => optionalMember k
  | .bracketL =>
    computedMember k
    return true
  | .parenL =>
    if noCalls then return false
    callArguments k
    return true
  | .backQuote =>
    template k.expression
    return true
  | .bang =>
    if (← typescript) && !(← lineBreakBefore) then
      nextAsType
      return true
    else return false
  | .lessThan | .shiftL =>
    if (← typescript) && !noCalls then tryTypeArguments k true else return false
  | _ => return false

/-- `new C(args)` and `new.target` -/
def newExpression : Parser Unit := do
  next
  if ← eat .dot then identifierName
  else
    discard k.atom
    subscripts k true
    if (← typescript) && (← seeingAny [.lessThan, .shiftL]) then discard (tryTypeArguments k false)
    if ← seeing .parenL then callArguments k

/-! ## Operators -/

/-- Operators that bind tighter than `min`, each with its right operand. -/
def operators (min : Int) (noIn : Bool) : Parser Unit := repeatWhile do
  -- `as` and `satisfies` bind like a comparison
  if (← typescript) && (← seeingAnyWord [.kwAs, .kwSatisfies]) && !(← lineBreakBefore) &&
      min < 7 then
    typeContext do
      next
      if !(← eat .kwConst) then k.type
    return true
  let operator ← kind
  match operator.precedence? with
  | none => return false
  | some precedence =>
    if (noIn && operator == .kwIn) || precedence ≤ min then return false
    next
    if !(← k.unary) then
      k.operators (if operator == .exponent then precedence - 1 else precedence) noIn
    return true

def unary : Parser Bool := do
  if (← typescript) && !(← dialect).jsx && (← seeing .lessThan) then
    -- `<T>operand`
    typeArguments k
    k.unary
  else if ← seeingAny [.incDec, .bang, .tilde, .plusMinus, .kwTypeof, .kwVoid, .kwDelete] then
    next
    discard k.unary
    return false
  else if (← seeingWord .kwAwait) && (← nextKind).startsExpression then
    next
    discard k.unary
    return false
  else if ← k.atom then return true
  else
    subscripts k false
    if (← seeing .incDec) && !(← lineBreakBefore) then next
    return false

/-- `a ? b : c` -/
def conditional (noIn : Bool) : Parser Bool := do
  if ← unary k then return true
  operators k (-1) noIn
  if ← eat .question then
    k.value
    expect .colon
    k.value noIn
  return false

/-- `yield`, `yield a`, `yield* a` -/
def yieldExpression (noIn : Bool) : Parser Unit := do
  next
  if !(← lineBreakBefore) &&
      !(← seeingAny [.parenR, .bracketR, .braceR, .comma, .semi, .colon, .eof]) then
    skip .star
    k.value noIn

def assignment (noIn : Bool) : Parser Bool := do
  if ← seeing .kwYield then
    yieldExpression k noIn
    return false
  if (← typescript) && (← seeing .lessThan) then
    if ← tryGenericArrow k then return true
  if ← conditional k noIn then return true
  if (← kind).isAssignment then nextWithRhs (k.value noIn)
  return false

end Downlevel.Grammar
