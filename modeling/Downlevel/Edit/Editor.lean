import Downlevel.Compile.Error
import Downlevel.Edit.Rendering
import Downlevel.Edit.Sheet

/-! # Editors

An editor goes through the tokens of a sheet once and notes what becomes of each: it is copied,
replaced or removed, and code is put around it. Nothing is rendered before the end. Where all tokens
are copied, the rendering is the snippet itself. -/

namespace Downlevel

inductive Action where
  | copy
  | replace (text : String)
  /-- the token goes, and only the line feeds in it stay -/
  | remove
deriving DecidableEq, Repr

inductive Edit where
  /-- code between tokens -/
  | insert (code : String)
  /-- a token with its gap; `lead` is code between the two, the offsets `marks` of which come from
  the start of the token; with `trimGap`, only the line feeds of the gap stay -/
  | token (index : Nat) (action : Action) (lead : String) (marks : List Nat) (trimGap : Bool)
deriving DecidableEq, Repr

structure Editor where
  index : Nat := 0
  log : Array Edit := #[]
  /-- code that is to stand directly before the next token -/
  lead : String := ""
  /-- offsets into `lead` that come from the start of the next token -/
  marks : List Nat := []
  trimNext : Bool := false
deriving Repr

structure Editor.Bookmark where
  index : Nat
  logSize : Nat
  lead : String
  marks : List Nat
  trimNext : Bool
deriving Repr

/-- Text from which only the line feeds are kept, if it is to be trimmed. -/
def Edit.trimmed (trim : Bool) (cs : List Char) : String :=
  String.ofList (if trim then Text.lineFeeds cs else cs)

def Action.render (t : Token) (text : List Char) : Action → Rendering
  | copy => .mapped (String.ofList text) t.span.start
  | replace code => if code.isEmpty then .plain "" else .mapped code t.span.start
  | remove => .plain (String.ofList (Text.lineFeeds text))

def Edit.render (s : Sheet) : Edit → Rendering
  | insert code => .plain code
  | token index action lead marks trimGap =>
    match s.token? index with
    | none => .plain ""
    | some t =>
      Rendering.plain (trimmed trimGap (s.gap index)) ++
        { code := lead, places := (marks.map fun m => (m, t.span.start)).toArray } ++
        action.render t (t.text s.text)

def Edit.renderAll (s : Sheet) (edits : List Edit) : Rendering :=
  edits.foldl (fun done e => done ++ e.render s) {}

namespace Editor

variable (s : Sheet) (e : Editor)

/-! ## Looking -/

/-- The token the editor stands on, or the last one once it is through. -/
def current : Token :=
  ((s.token? e.index).or s.tokens.back?).getD { kind := .eof, span := ⟨0, 0⟩ }

def atEnd : Bool := (e.current s).kind == .eof

def currentText : String := s.textAt e.index

def sees (kinds : List Kind) : Bool := s.hasKinds e.index kinds

def broken (invariant : Invariant) : CompileError := .broken invariant (e.current s).span.start

/-! ## Editing -/

/-- Notes what becomes of the current token, and goes to the next. The end of the input is never
passed. A gap that is trimmed on its own account leaves the request to trim the next one standing.
-/
def edit (action : Action) (trimGap : Bool) : Editor :=
  if s.tokens.size - 1 ≤ e.index then e
  else
    { index := e.index + 1,
      log := e.log.push (.token e.index action e.lead e.marks (trimGap || e.trimNext)),
      trimNext := trimGap && e.trimNext }

def copy : Editor := e.edit s .copy false

def replace (text : String) : Editor := e.edit s (.replace text) false

def replaceTrimmed (text : String) : Editor := e.edit s (.replace text) true

/-- Removes the current token and its gap; only the line feeds of both stay. -/
def remove : Editor := e.edit s .remove true

/-- Removes the current token and keeps its gap, for the first token of a stretch that goes. -/
def blank : Editor := e.edit s (.replace "") false

def copyExpected (kind : Kind) : Except CompileError Editor :=
  if (e.current s).kind == kind then .ok (e.copy s)
  else .error (e.broken s (.expectedToken kind))

omit s in
/-- Puts code before the gap of the current token. -/
def append (code : String) : Editor :=
  if code.isEmpty then e else { e with log := e.log.push (.insert code) }

/-- Puts code directly before the current token. -/
def prepend (code : String) : Editor := { e with lead := e.lead ++ code }

/-- Puts code directly before the current token that comes from where the token starts. -/
def prependMapped (code : String) : Editor :=
  if code.isEmpty then e
  else { e with lead := e.lead ++ code, marks := e.marks ++ [e.lead.utf8ByteSize] }

def trimNextGap : Editor := { e with trimNext := true }

def copyUpTo : Nat → Editor → Editor
  | 0, e => e
  | n + 1, e => if e.atEnd s then e else copyUpTo n (e.copy s)

def copyAll : Editor := copyUpTo s s.tokens.size e

/-! ## Going back -/

def bookmark : Bookmark :=
  { index := e.index, logSize := e.log.size, lead := e.lead, marks := e.marks,
    trimNext := e.trimNext }

/-- Goes back to a bookmark. Notes made before it and undone since then do not come back. -/
def restore (b : Bookmark) : Editor :=
  { index := b.index, log := e.log.take b.logSize, lead := b.lead, marks := b.marks,
    trimNext := b.trimNext }

/-- Takes out the notes since a bookmark and renders them, without going back. There is nothing to
take when the notes no longer reach the bookmark. -/
def extract? (b : Bookmark) : Option (String × Editor) :=
  if b.logSize ≤ e.log.size then
    some ((Edit.renderAll s (e.log.toList.drop b.logSize)).code,
      { e with log := e.log.take b.logSize })
  else none

/-! ## Rendering -/

def finish : Except CompileError Rendering :=
  if e.atEnd s then
    .ok <| Edit.renderAll s e.log.toList ++
      .plain (Edit.trimmed e.trimNext (s.gap (s.tokens.size - 1)) ++ e.lead)
  else .error (e.broken s .unprocessedTokens)

end Editor

end Downlevel
