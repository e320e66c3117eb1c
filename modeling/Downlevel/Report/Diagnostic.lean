import Downlevel.Run.Outcome

/-! # Diagnostics

Problems of a snippet as they are told to its author. -/

namespace Downlevel

inductive Diagnostic.Code where
  | syntaxError
  | transformError
  | runtimeError
  /-- a module that was not found when the code ran -/
  | moduleNotFound
  /-- a module that is known to be missing before the code runs -/
  | unresolvedImport
deriving DecidableEq, Repr

inductive Diagnostic.Severity where
  /-- the snippet compiles and runs all the same -/
  | warning
  | error
deriving DecidableEq, Repr

namespace Diagnostic.Code

def name : Code → String
  | syntaxError => "syntax-error"
  | transformError => "transform-error"
  | runtimeError => "runtime-error"
  | moduleNotFound => "module-not-found"
  | unresolvedImport => "unresolved-import"

def severity : Code → Severity
  | unresolvedImport => .warning
  | syntaxError | transformError | runtimeError | moduleNotFound => .error

def label : Code → String
  | syntaxError | transformError => "here"
  | runtimeError | moduleNotFound | unresolvedImport => "thrown here"

end Diagnostic.Code

def Diagnostic.Severity.name : Severity → String
  | warning => "warning"
  | error => "error"

structure Diagnostic where
  code : Diagnostic.Code
  message : String
  span : Option Span := none
  location : Option Location := none
deriving DecidableEq, Repr

namespace Diagnostic

def severity (d : Diagnostic) : Severity := d.code.severity

def withSpan (d : Diagnostic) (text : List Char) (span : Span) : Diagnostic :=
  { d with
    span := some span
    location := ((Text.LineIndex.ofText text).position? text span.start).map fun p =>
      { line := p.line + 1, column := p.column } }

def isWordChar (c : Char) : Bool := Text.isAlphanumeric c || c == '_' || c == '$'

def wordAt? (text : List Char) (position : Position) : Option Span := do
  let start ← (Text.LineIndex.ofText text).offset? text position
  let rest ← Text.drop? start text
  return ⟨start, start + Text.size (rest.takeWhile isWordChar)⟩

/-- Points at a location in the snippet, and at the word that starts there. -/
def withLocation (d : Diagnostic) (text : List Char) (location : Location) : Diagnostic :=
  { d with
    span := wordAt? text { line := location.line - 1, column := location.column }
    location := some location }

def ofCompileError (text : List Char) (e : CompileError) : Diagnostic :=
  let code : Code :=
    match e with
    | .invalid _ => .syntaxError
    | .broken _ _ => .transformError
  withSpan { code, message := e.message } text e.span

def ofThrown (text : List Char) (e : Thrown) : Diagnostic :=
  let d : Diagnostic := { code := .runtimeError, message := e.title }
  match e.location with
  | some location => d.withLocation text location
  | none => d

def ofFailure (text : List Char) : RunFailure → Diagnostic
  | .moduleNotFound missing e =>
    { ofThrown text e with code := .moduleNotFound, message := missing.message }
  | .threw e => ofThrown text e

def ofMissing (m : MissingModule) : Diagnostic :=
  { code := .unresolvedImport, message := m.message }

def render (d : Diagnostic) : String :=
  let body := d.code.name ++ ": " ++ d.message
  match d.location with
  | some l => l.render ++ ": " ++ body
  | none => body

def toJson (d : Diagnostic) : Json :=
  .object [("code", .string d.code.name), ("severity", .string d.severity.name),
    ("message", .string d.message), ("location", .option Location.toJson d.location)]

end Diagnostic

end Downlevel
