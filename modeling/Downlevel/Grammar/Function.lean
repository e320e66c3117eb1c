import Downlevel.Grammar.Pattern

/-! # Functions and blocks -/

namespace Downlevel.Grammar

variable (k : Knot)

def block (isFunction : Bool) : Parser Unit := inScope isFunction do
  expect .braceL
  untilClose .braceR (discard k.statement)

/-- Type parameters, parameters, return type and body of a function.

With `bodyless`, TypeScript may leave the body out: an overload or an abstract member, all of whose
tokens from index `start` on belong to a type then. -/
def method (start : Nat) (bodyless : Bool) : Parser Unit := inScope true do
  if (← typed) && (← seeing .lessThan) then typeParameters k
  functionParameters k
  optionalReturnAnnotation k
  if ← seeing .braceL then block k true
  else if bodyless && (← typescript) && (← canEnd) then
    skip .semi
    markTypeFrom start
  else expecting "\x7b"

/-- A function that is a statement, from `function` on. Its name is declared around it. -/
def functionStatement (start : Nat) (optionalName : Bool) : Parser Unit := do
  next
  skip .star
  if ← seeing .name then
    identifier (some (← declarationRole .functionScoped false))
    method k start true
  else if optionalName then method k start true
  else expecting "function name"

/-- A function that is an expression, from `function` on. Its name is declared inside it. -/
def functionExpression (start : Nat) : Parser Unit := do
  next
  skip .star
  if ← seeing .name then
    inScope true do
      identifier (some (.declaration .function false))
      method k start false
  else method k start false

end Downlevel.Grammar
