import Downlevel.Grammar.Atom
import Downlevel.Grammar.Statement

/-! # Whole snippets

`tokenize` reads a snippet and keeps what it has when it meets an error; `parse` gives the error
instead. -/

namespace Downlevel.Grammar

def production (k : Knot) : Knot
  | .statement => statement k
  | .assignment noIn => assignment k noIn
  | .operators min noIn => operators k min noIn
  | .unary => unary k
  | .atom => atom k
  | .type => type k
  | .plainType => plainType k
  | .typeOperator => typeOperator k
  | .bindingAtom binding => bindingAtom k binding
  | .element start => element k start

/-- The grammar with rules nested at most `n` deep. -/
def grammar : Nat → Knot
  | 0, _ => throw .outOfFuel
  | n + 1, rule => production (grammar n) rule

def endsInSemicolon (kind : StatementKind) : Parser Bool := do
  if kind == .expression then return (← lastToken).kind == .semi else return false

/-- One top-level statement; answers it, or none when nothing could be read. -/
def topLevelStatement (k : Knot) : Parser (Option Statement) := do
  let start ← position
  let kind ← k.statement
  let stop ← position
  if stop == start then
    unexpected
    return none
  let kind := if ← allTypeFrom start then .typeOnly else kind
  let expressionEnd := if ← endsInSemicolon kind then stop - 1 else stop
  return some { kind, start, stop, expressionEnd }

/-- The top-level statements up to the end of the input, at most `n` of them, after those in
`seen`. -/
def topLevel (k : Knot) (seen : Array Statement) : Nat → Parser (Array Statement)
  | 0 => throw .outOfFuel
  | n + 1 => do
    if ← seeing .eof then return seen
    match ← topLevelStatement k with
    | some s => topLevel k (seen.push s) n
    | none => return seen

def program (k : Knot) : Parser (Array Statement) := do
  let statements ← topLevel k #[] (← read).budget
  modify fun s =>
    let tokens := s.tokens.push s.cursor.token
    { s with tokens, scopes := s.scopes.push ⟨0, tokens.size, true⟩ }
  return statements

def loopBudget (n : Nat) : Nat := 4 * n + 64

def nestingBudget (n : Nat) : Nat := 16 * n + 64

def Context.of (text : List Char) (dialect : Dialect) : Context :=
  { source := { text, dialect }, budget := loopBudget text.length }

def State.first (source : Source) : State :=
  { cursor := (Cursor.before source.text).scan source .code }

end Grammar

open Grammar in
/-- Reads a snippet. After an error, what was read up to it is kept. -/
def tokenize (text : List Char) (dialect : Dialect) : Except Fault TokenStream := do
  let context := Context.of text dialect
  let (statements, s) ← (program (grammar (nestingBudget text.length))).run context
    |>.run (.first context.source)
  return { tokens := s.tokens, scopes := s.scopes, statements, error := s.cursor.error }

/-- Reads a snippet, and gives the first error if there is one. -/
def parse (text : List Char) (dialect : Dialect) :
    Except Fault (Except SyntaxError TokenStream) := do
  let stream ← tokenize text dialect
  return match stream.error with
    | some e => .error e
    | none => .ok stream

end Downlevel
