import Downlevel.Grammar.Class
import Downlevel.Grammar.Element

/-! # Atoms

The smallest expressions: literals, names, groups, functions, classes and elements. -/

namespace Downlevel.Grammar

variable (k : Knot)

/-- An expression that begins with a name: an arrow function or the name itself. -/
def nameAtom : Parser Bool := do
  let ahead ← lookahead
  if (← seeingWord .kwAsync) && !ahead.lineBreakBefore then
    match ahead.kind with
    | .kwFunction =>
      let start ← position
      next
      functionExpression k start
      return false
    | .name =>
      next
      return ← nameArrow k
    | .parenL =>
      if ← attempt (do next; tryArrow k) then return true
    | _ => pure ()
  if ahead.kind == .arrow && !ahead.lineBreakBefore then nameArrow k
  else
    identifier (some .access)
    return false

/-- `(a, b)` and, in Flow, `(a: T)` -/
def group : Parser Unit := do
  next
  k.expression
  if (← flow) && (← seeing .colon) then typeAnnotation k
  expect .parenR

/-- `import(x)` and `import.meta` -/
def importExpression : Parser Unit := do
  next
  if ← eat .dot then identifierName
  else if ← seeing .parenL then callArguments k
  else expecting "("

/-- `@a class { }` -/
def decoratedClass : Parser Unit := do
  decorators k
  if ← seeing .kwClass then classExpression k else expecting "class"

def regex : Parser Unit := do
  let source := (← read).source
  reread fun c => c.asRegex? source
  next

/-- A smallest expression; answers whether it was an arrow function. -/
def atom : Parser Bool := do
  match ← kind with
  | .name => nameAtom k
  | .parenL =>
    if ← tryArrow k then return true
    group k
    return false
  | other =>
    match other with
    | .slash => regex
    | .assign => if (← currentText) == "/=" then regex else unexpected
    | .lessThan =>
      if (← dialect).jsx then
        elementExpression k
        next
      else unexpected
    | .num | .bigInt | .string | .kwNull | .kwTrue | .kwFalse | .kwThis | .kwSuper
    | .privateName => next
    | .bracketL => arrayLiteral k
    | .braceL | .braceBarL => objectLiteral k
    | .kwFunction => functionExpression k (← position)
    | .kwClass => classExpression k
    | .atSign => decoratedClass k
    | .kwNew => newExpression k
    | .backQuote => template k.expression
    | .kwImport => importExpression k
    | _ => unexpected
    return false

end Downlevel.Grammar
