import Downlevel.Cursor.Basic

/-! # The parser

The parser walks a cursor over a snippet and collects tokens and scopes. It builds no tree: it
checks that the tokens follow the grammar and notes on them what it finds. Every step of the grammar
is made of the moves in this module.

A snippet that breaks the grammar is no failure of the parser: the first error is kept on the
cursor, and from then on the current token is the end of the input. -/

namespace Downlevel.Grammar

structure State where
  cursor : Cursor
  tokens : Array Token := #[]
  scopes : Array Scope := #[]

/-- The snippet, and how often a loop over its tokens may go round. -/
structure Context where
  source : Source
  budget : Nat

abbrev Parser := ReaderT Context (StateT State (Except Fault))

/-! ## Looking -/

def kind : Parser Kind := return (← get).cursor.kind

def seeing (k : Kind) : Parser Bool := return (← kind) == k

def seeingAny (ks : List Kind) : Parser Bool := return ks.contains (← kind)

def seeingWord (word : Contextual) : Parser Bool := return (← get).cursor.isWord word

def seeingAnyWord (words : List Contextual) : Parser Bool := do
  let c := (← get).cursor
  return words.any c.isWord

def demand (fault : Fault) : Option α → Parser α
  | some a => return a
  | none => throw fault

def lineBreakBefore : Parser Bool := do
  let c := (← get).cursor
  demand (.insideCharacter c.start.offset) c.lineBreakBefore?

def failed : Parser Bool := return (← get).cursor.error.isSome

def position : Parser Nat := return (← get).tokens.size

def currentText : Parser String := return String.ofList (← get).cursor.text

def dialect : Parser Dialect := return (← read).source.dialect

def typescript : Parser Bool := return (← dialect).typescript

def flow : Parser Bool := return (← dialect).flow

def typed : Parser Bool := return (← dialect).typed

/-! ## Moving -/

def onCursor (f : Cursor → Cursor) : Parser Unit :=
  modify fun s => { s with cursor := f s.cursor }

def reread (f : Cursor → Option Cursor) : Parser Unit := do
  let c := (← get).cursor
  let again ← demand (.insideCharacter c.start.offset) (f c)
  onCursor fun _ => again

def advance (mode : Mode) : Parser Unit := do
  let source := (← read).source
  modify fun s =>
    { s with tokens := s.tokens.push s.cursor.token, cursor := s.cursor.advance source mode }

def next : Parser Unit := advance .code

def eat (k : Kind) : Parser Bool := do
  if ← seeing k then
    next
    return true
  else return false

def eatWord (word : Contextual) : Parser Bool := do
  if ← seeingWord word then
    next
    return true
  else return false

def skip (k : Kind) : Parser Unit := do
  if ← seeing k then next

/-! ## Going back -/

structure Snapshot where
  cursor : Cursor
  tokens : Nat
  scopes : Nat

def State.snapshot (s : State) : Snapshot := ⟨s.cursor, s.tokens.size, s.scopes.size⟩

/-- The state back at a snapshot: tokens and scopes that came later are dropped. -/
def State.back (s : State) (before : Snapshot) : State :=
  { cursor := before.cursor
    tokens := s.tokens.shrink before.tokens
    scopes := s.scopes.shrink before.scopes }

/-- Runs `p`, and goes back when it answers `false`. -/
def attempt (p : Parser Bool) : Parser Bool := do
  let before := (← get).snapshot
  if ← p then return true
  else
    modify (·.back before)
    return false

/-- Runs `p` for its answer, and goes back. -/
def peek (p : Parser α) : Parser α := do
  let before := (← get).snapshot
  let a ← p
  modify (·.back before)
  return a

structure Lookahead where
  kind : Kind
  keyword : Option Contextual
  lineBreakBefore : Bool

def Lookahead.isWord (ahead : Lookahead) (word : Contextual) : Bool :=
  ahead.kind == .name && ahead.keyword == some word

def lookahead : Parser Lookahead := peek do
  next
  let c := (← get).cursor
  return { kind := c.kind, keyword := c.keyword, lineBreakBefore := ← lineBreakBefore }

def nextKind : Parser Kind := return (← lookahead).kind

def beforeAny (ks : List Kind) : Parser Bool := return ks.contains (← nextKind)

/-! ## Errors -/

def failAt (cause : SyntaxError.Cause) (start stop : Nat) : Parser Unit := do
  let source := (← read).source
  onCursor fun c => c.fail source cause start stop

def failHere (cause : SyntaxError.Cause) : Parser Unit := do
  let c := (← get).cursor
  failAt cause c.start.offset c.stop.offset

/-- What a message calls the current token: its text, or the label of its kind if it has none. -/
def found : Parser String := do
  let c := (← get).cursor
  return if c.text.isEmpty then c.kind.label else String.ofList c.text

def unexpected : Parser Unit := do failHere (.unexpected (← found))

def expecting (label : String) : Parser Unit := do
  failHere (.unexpectedToken label (← found))

def unsupported (what : String) : Parser Unit := failHere (.unsupported what)

def expect (k : Kind) : Parser Unit := do
  if !(← eat k) then expecting k.label

def expectWord (word : Contextual) (label : String) : Parser Unit := do
  if !(← eatWord word) then expecting label

/-! ## Statement ends -/

def canEnd : Parser Bool := do
  return (← seeingAny [.semi, .braceR, .eof]) || (← lineBreakBefore)

/-- Ends a statement, with a `;` or where one may be left out. -/
def semicolon : Parser Unit := do
  if !(← eat .semi) && !(← canEnd) then expecting ";"

/-! ## Notes on tokens -/

def note (index : Nat) (f : Token → Token) : Parser Unit :=
  modify fun s => { s with tokens := s.tokens.modify index f }

def noteAt (index : Nat) (f : Token → Token) : Parser Unit := do
  if index < (← position) then note index f else throw (.missingToken index)

def setRole (index : Nat) (role : Role) : Parser Unit :=
  note index fun t => { t with role := some role }

def setShape (index : Nat) (shape : ElementShape) : Parser Unit :=
  noteAt index fun t => { t with shape := some shape }

/-- Notes on the token at `index` that what it opens ends before the current token. -/
def setRhsEnd (index : Nat) : Parser Unit := do
  let stop ← position
  noteAt index fun t => { t with rhsEnd := some stop }

/-- Takes the current token and what `p` reads after it, and notes on the token where that ends. -/
def nextWithRhs (p : Parser Unit) : Parser Unit := do
  let index ← position
  next
  p
  setRhsEnd index

def markTypeFrom (start : Nat) : Parser Unit :=
  modify fun s =>
    { s with
      tokens := s.tokens.mapIdx fun i t => if start ≤ i then { t with isType := true } else t }

/-- Whether all tokens from index `start` on belong to types. There are `start` tokens at least. -/
def allTypeFrom (start : Nat) : Parser Bool := do
  if start ≤ (← position) then return ((← get).tokens.toList.drop start).all (·.isType)
  else throw (.missingToken start)

def lastToken : Parser Token := do demand (.missingToken 0) (← get).tokens.back?

/-! ## Types and scopes around a part -/

/-- Runs `p` inside a type. The token after it is still read as in a type. -/
def typeContext (p : Parser α) : Parser α := do
  let outer := (← get).cursor.inType
  onCursor fun c => { c with inType := true }
  let a ← p
  onCursor fun c => { c with inType := outer }
  return a

def nextAsType : Parser Unit := typeContext next

def closeScope : Parser Unit := do
  if (← get).cursor.depth = 0 then throw .noScope
  else onCursor fun c => { c with depth := c.depth - 1 }

/-- Runs `p` inside a scope of its own, which begins at the current token. -/
def inScope (isFunction : Bool) (p : Parser α) : Parser α := do
  let start ← position
  onCursor fun c => { c with depth := c.depth + 1 }
  let a ← p
  closeScope
  modify fun s => { s with scopes := s.scopes.push ⟨start, s.tokens.size, isFunction⟩ }
  return a

/-! ## Loops

No loop goes round more often than the snippet has characters, because each round takes a token or
ends in an error. The budget of the context is above that. -/

def repeatUpTo (body : Parser Bool) : Nat → Parser Unit
  | 0 => throw .outOfFuel
  | n + 1 => do
    if ← body then repeatUpTo body n

def repeatWhile (body : Parser Bool) : Parser Unit := do
  repeatUpTo body (← read).budget

def whileTrue (test : Parser Bool) (body : Parser Unit) : Parser Unit :=
  repeatWhile do
    if ← test then
      body
      return true
    else return false

def untilClose (close : Kind) (body : Parser Unit) : Parser Unit := do
  whileTrue (return !(← seeingAny [close, .eof])) body
  expect close

/-- Runs `item` for each of the parts between commas, up to a token of kind `close`, and takes
that. A last comma may stand before it. -/
def commaList (close : Kind) (item : Parser Unit) : Parser Unit :=
  untilClose close do
    item
    if !(← seeing close) then expect .comma

/-- Runs `item` at least once, and again after each token of kind `separator`. -/
def separatedBy (separator : Kind) (item : Parser Unit) : Parser Unit :=
  repeatWhile do
    item
    eat separator

/-! ## Identifiers -/

inductive Binding where
  /-- `var`, functions and parameters -/
  | functionScoped
  /-- `let`, `const`, classes and caught errors -/
  | blockScoped
  | imported
deriving DecidableEq

def declarationRole (binding : Binding) (shorthand : Bool) : Parser Role := do
  let depth := (← get).cursor.depth
  return match binding with
    | .imported => .importDeclaration
    | .functionScoped => .declaration (if depth == 0 then .topLevel else .function) shorthand
    | .blockScoped => .declaration (if depth == 0 then .topLevel else .block) shorthand

/-- Takes an identifier, or a reserved word that stands for a property, as a name. -/
def identifierName : Parser Unit := do
  let k ← kind
  if k == .name || k.isReserved then
    onCursor fun c => { c with kind := .name }
    next
  else expecting "identifier"

def identifier (role : Option Role) : Parser Unit := do
  if ← seeing .name then
    let index ← position
    next
    if let some r := role then setRole index r
  else expecting "identifier"

def dottedNames : Parser Unit := whileTrue (eat .dot) identifierName

def moduleName : Parser Unit := do
  if ← seeing .string then next else identifierName

end Downlevel.Grammar
