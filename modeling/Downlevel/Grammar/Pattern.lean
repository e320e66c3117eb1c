import Downlevel.Grammar.Annotation

/-! # Binding patterns

Declared names, destructuring patterns and parameter lists. -/

namespace Downlevel.Grammar

variable (k : Knot)

def bindingElement (binding : Binding) : Parser Unit := do
  skip .ellipsis
  k.bindingAtom binding
  if ← typed then
    if ← seeing .question then nextAsType
    if ← seeing .colon then typeAnnotation k
  defaultValue k

/-- `{ a, b: c = d, ...e }`, from the brace on. -/
def objectPattern (binding : Binding) : Parser Unit := do
  next
  commaList .braceR do
    if ← eat .ellipsis then k.bindingAtom binding
    else if (← seeing .name) && !(← beforeAny [.colon]) then
      identifier (some (← declarationRole binding true))
      defaultValue k
    else
      propertyName k
      expect .colon
      k.bindingAtom binding
      defaultValue k

/-- `[a, , ...b]`, from the bracket on. -/
def arrayPattern (binding : Binding) : Parser Unit := do
  next
  untilClose .bracketR do
    if !(← eat .comma) then
      bindingElement k binding
      if !(← seeing .bracketR) then expect .comma

def bindingAtom (binding : Binding) : Parser Unit := do
  match ← kind with
  | .name => identifier (some (← declarationRole binding false))
  | .bracketL => arrayPattern k binding
  | .braceL => objectPattern k binding
  | _ => expecting "binding pattern"

/-- `this: T` in a parameter list, which is left out with its comma. -/
def thisParameter (start : Nat) : Parser Unit := do
  next
  typeAnnotation k
  if !(← seeing .parenR) then expect .comma
  markTypeFrom start

/-- `(a, b?: T, ...c)` -/
def functionParameters : Parser Unit := do
  expect .parenL
  untilClose .parenR do
    let start ← position
    decorators k
    if (← typescript) && (← seeing .kwThis) && (← beforeAny [.colon]) then thisParameter k start
    else
      if ← typescript then
        whileTrue
          (return (← seeingAnyWord
              [.kwPublic, .kwPrivate, .kwProtected, .kwReadonly, .kwOverride]) &&
            (← beforeAny [.name, .braceL, .bracketL]))
          nextAsType
      bindingElement k .functionScoped
      if !(← seeing .parenR) then expect .comma

end Downlevel.Grammar
