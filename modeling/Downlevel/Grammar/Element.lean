import Downlevel.Text.LetterCase
import Downlevel.Grammar.Rule

/-! # Markup elements

Inside a tag and between tags, tokens are read in modes of their own. After an element the current
token is its last `>`; the caller goes past it in the mode of what comes next. -/

namespace Downlevel.Grammar

/-- Whether a tag name stands for a component, which is an expression, and not for an element of the
document, which is a string. -/
def isComponentTag (name : String) : Bool :=
  !name.toList.contains ':' &&
    (name.toList.contains '.' || name.toList.head?.any fun c => !Text.isLowercase c)

def nextInTag : Parser Unit := advance .tag

def tagNamePart : Parser Unit := do
  if ← seeing .jsxName then nextInTag else expecting "JSX identifier"

/-- The parts `.b.c` of a tag name, at most `n` of them, after the parts in `name`. -/
def dottedTagName (name : String) : Nat → Parser String
  | 0 => throw .outOfFuel
  | n + 1 => do
    if ← seeing .dot then
      nextInTag
      let part ← currentText
      tagNamePart
      dottedTagName (name ++ "." ++ part) n
    else return name

/-- `a`, `a.b.c` or `a:b`; answers the name without blanks. In an opening tag, a component's name is
read as an identifier. -/
def tagName (opening : Bool) : Parser String := do
  let index ← position
  if ← seeing .jsxName then
    let first ← currentText
    nextInTag
    let name ←
      if ← seeing .colon then
        nextInTag
        let part ← currentText
        tagNamePart
        pure (first ++ ":" ++ part)
      else dottedTagName first (← read).budget
    if opening && isComponentTag name then setRole index .access
    return name
  else
    expecting "JSX element name"
    return ""

def tagName? (opening : Bool) : Parser (Option String) := do
  if ← seeing .jsxTagEnd then return none else return some (← tagName opening)

variable (k : Knot)

def attributeValue : Parser Unit := do
  match ← kind with
  | .string => nextInTag
  | .braceL =>
    next
    k.value
    if ← seeing .braceR then nextInTag else expecting "\x7d"
  | .jsxTagStart =>
    let start ← position
    nextInTag
    k.element start
    nextInTag
  | _ => expecting "JSX attribute value"

/-- `a`, `a="x"`, `a={x}`, `a=<b/>` or `ns:a=…` -/
def tagAttribute : Parser Unit := do
  if !(← seeing .jsxName) then expecting "JSX attribute"
  else
    nextInTag
    if ← seeing .colon then
      nextInTag
      tagNamePart
    if ← seeing .eq then
      nextInTag
      attributeValue k

def spreadAttribute : Parser Bool := do
  next
  expect .ellipsis
  k.value
  if ← seeing .braceR then
    nextInTag
    return true
  else
    expecting "\x7d"
    return false

structure Attributes where
  spread : Bool := false
  /-- whether a `key` came after a spread -/
  keyAfterSpread : Bool := false
  complete : Bool := true

def tagAttributes (seen : Attributes) : Nat → Parser Attributes
  | 0 => throw .outOfFuel
  | n + 1 => do
    if (← seeingAny [.slash, .jsxTagEnd]) || (← failed) then return seen
    else if ← seeing .braceL then
      if ← spreadAttribute k then tagAttributes { seen with spread := true } n
      else return { seen with complete := false }
    else
      let isKey := (← currentText) == "key"
      tagAttribute k
      tagAttributes { seen with keyAfterSpread := seen.keyAfterSpread || (seen.spread && isKey) } n

/-- `</name>`, from the slash on. -/
def closingTag (name : Option String) : Parser Unit := do
  let start := (← get).cursor.start.offset
  nextInTag
  let closing ← tagName? false
  if !(← failed) then
    if closing != name then
      let stop := (← get).cursor.stop.offset
      failAt (.mismatchedClosingTag (name.getD "") (closing.getD "")) start stop
    else if !(← seeing .jsxTagEnd) then expecting ">"

inductive Child where
  /-- something that counts for `count` children; more may follow -/
  | counts (count : Nat)
  | closing
  /-- an error, after which the element is given up -/
  | broken

/-- `{expression}`, `{...expression}` or `{}` between tags. -/
def childExpression : Parser Child := do
  next
  let count ←
    if ← eat .ellipsis then
      k.expression
      pure 2
    else if ← seeing .braceR then pure 0
    else
      k.expression
      pure 1
  if ← seeing .braceR then return .counts count
  else
    expecting "\x7d"
    return .broken

def child (name : Option String) : Parser Child := do
  advance .child
  match ← kind with
  | .jsxTagStart =>
    let start ← position
    nextInTag
    if ← seeing .slash then
      closingTag name
      return .closing
    else
      k.element start
      return .counts 1
  | .jsxText => return .counts 1
  | .jsxEmptyText => return .counts 0
  | .braceL => childExpression k
  | _ => return .broken

/-- The children of the element called `name`, at most `n` of them, with its closing tag; answers
how many there were after the first `count`, or none when the element is given up. -/
def children (name : Option String) (count : Nat) : Nat → Parser (Option Nat)
  | 0 => throw .outOfFuel
  | n + 1 => do
    match ← child k name with
    | .closing => return some count
    | .broken => return none
    | .counts m => if ← failed then return none else children name (count + m) n

def elementShape (keyAfterSpread : Bool) (count : Nat) : ElementShape :=
  if keyAfterSpread then .keyAfterSpread
  else if count == 0 then .noChildren
  else if count == 1 then .oneChild
  else .staticChildren

/-- The rest of the element whose `<` is the token at `start`. -/
def element (start : Nat) : Parser Unit := do
  let name ← tagName? true
  let budget := (← read).budget
  let found ← if name.isSome then tagAttributes k {} budget else pure {}
  if !found.complete then return
  if ← seeing .slash then
    nextInTag
    if ← seeing .jsxTagEnd then setShape start (elementShape found.keyAfterSpread 0)
    else expecting ">"
  else if ← seeing .jsxTagEnd then
    if let some count ← children k name 0 budget then
      setShape start (elementShape found.keyAfterSpread count)
  else expecting ">"

def elementExpression : Parser Unit := do
  onCursor fun c => { c with kind := .jsxTagStart }
  let start ← position
  nextInTag
  k.element start

end Downlevel.Grammar
