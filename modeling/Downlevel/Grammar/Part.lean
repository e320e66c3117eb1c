import Downlevel.Grammar.Rule

/-! # Parts of larger productions

Templates, call arguments, property names and decorators. -/

namespace Downlevel.Grammar

/-- A round of a template that begins on one of its pieces, with `inner` for what stands in `${ }`;
answers whether another piece follows. -/
def templateRound (inner : Parser Unit) : Parser Bool := do
  next
  match ← kind with
  | .backQuote =>
    next
    return false
  | .dollarBraceL =>
    next
    inner
    if ← seeing .braceR then
      advance .template
      return true
    else
      expecting "\x7d"
      return false
  | _ =>
    expecting "\x60"
    return false

def template (inner : Parser Unit) : Parser Unit := do
  advance .template
  repeatWhile (templateRound inner)

variable (k : Knot)

/-- `(a, ...b)` -/
def callArguments : Parser Unit := do
  expect .parenL
  commaList .parenR do
    skip .ellipsis
    k.value

/-- The key of a property: a name, a string, a number or `[computed]`. -/
def propertyName : Parser Unit := do
  match ← kind with
  | .bracketL =>
    next
    k.value
    expect .bracketR
  | .string | .num | .bigInt | .privateName => next
  | _ => identifierName

/-- `@a.b(c)` or `@(expression)` -/
def decorator : Parser Unit := do
  next
  if ← seeing .parenL then
    next
    k.expression
    expect .parenR
  else
    identifier (some .access)
    dottedNames
  if ← seeing .parenL then callArguments k

def decorators : Parser Unit := whileTrue (seeing .atSign) (decorator k)

/-- `= value`, when it follows; the `=` is noted with the end of its value. -/
def initializer (noIn : Bool) : Parser Unit := do
  if ← seeing .eq then nextWithRhs (k.value noIn)

def defaultValue : Parser Unit := do
  if ← eat .eq then k.value

end Downlevel.Grammar
