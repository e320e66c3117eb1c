import Downlevel.Cursor.Gap
import Downlevel.Cursor.Piece
import Downlevel.Token.Stream

/-! # The cursor

The cursor stands on one token of a snippet and can move to the next. What the next token is depends
on the mode in which it is read: as code, as a template piece, inside a tag or between tags. Once an
error is recorded, every further token is the end of the input.

Offsets are exact here. Those of a text with fewer than 2 ^ 32 bytes are all kept as they are when
they are stored in 32 bits (`Span.ofOffsets`). -/

namespace Downlevel

open Text (Point)

structure Source where
  text : List Char
  dialect : Dialect

/-- The token that the reader looks at, and what it has to know to find the next. -/
structure Cursor where
  kind : Kind := .eof
  keyword : Option Contextual := none
  start : Point
  stop : Point
  lastEnd : Point
  inType : Bool := false
  depth : Nat := 0
  error : Option SyntaxError := none
  /-- the errors that were raised up to here, the first one first; nothing is decided by them -/
  raised : List SyntaxError := []

inductive Mode where
  | code
  | template
  | tag
  | child
deriving DecidableEq

namespace Cursor

def before (text : List Char) : Cursor :=
  { start := .first text, stop := .first text, lastEnd := .first text }

def token (c : Cursor) : Token :=
  { kind := c.kind, keyword := c.keyword, span := ⟨c.start.offset, c.stop.offset⟩,
    depth := c.depth, isType := c.inType }

def text (c : Cursor) : List Char := c.start.upTo c.stop

def isWord (c : Cursor) (word : Contextual) : Bool := c.kind == .name && c.keyword == some word

def lineBreakBefore? (c : Cursor) : Option Bool :=
  (c.lastEnd.between? c.start).map (·.any Text.isLineEnd)

def settle (c : Cursor) (kind : Kind) (stop : Point) : Cursor :=
  { c with kind, keyword := none, stop }

def close (src : Source) (c : Cursor) : Cursor :=
  { c with kind := .eof, keyword := none, start := .last src.text, stop := .last src.text }

/-- Records an error, unless there is one already, and goes to the end of the input. -/
def raise (src : Source) (c : Cursor) (e : SyntaxError) : Cursor :=
  close src { c with error := c.error.or (some e), raised := c.raised ++ [e] }

/-- Raises an error from `start` to `stop`. -/
def fail (src : Source) (c : Cursor) (cause : SyntaxError.Cause) (start stop : Nat) : Cursor :=
  c.raise src ⟨cause, ⟨start, max start stop⟩⟩

/-- The kind and length of a lexeme where the reader stands. Exact object braces are there with Flow
only, `?.` before a digit is a conditional, and in a type `<` and `>` join nothing. -/
def fit (dialect : Dialect) (inType : Bool) (cs : List Char) (l : Lexeme) : Kind × Nat :=
  match l.kind with
  | .braceBarL => if dialect.flow then (l.kind, l.length) else (.braceL, 1)
  | .braceBarR => if dialect.flow then (l.kind, l.length) else (.bitOr, 1)
  | .questionDot =>
    if (cs.drop 2).head?.any Char.isDigit then (.question, 1) else (l.kind, l.length)
  | .shiftL | .shiftR | .relational | .assign =>
    if inType then
      match cs with
      | '<' :: _ => (.lessThan, 1)
      | '>' :: _ => (.greaterThan, 1)
      | _ => (l.kind, l.length)
    else (l.kind, l.length)
  | _ => (l.kind, l.length)

def readCode (src : Source) (c : Cursor) : Cursor :=
  match c.start.rest with
  | [] => c.settle .eof c.start
  | ch :: _ =>
    match Lexeme.read c.start.rest with
    | .unknown =>
      c.fail src (.unexpectedCharacter ch) c.start.offset (c.start.offset + ch.utf8Size)
    | .openString n => c.fail src .unterminatedString c.start.offset (c.start.skip n).offset
    | .lexeme l =>
      let (kind, length) := fit src.dialect c.inType c.start.rest l
      { c with kind, keyword := l.keyword, stop := c.start.skip length }

def tagPunctuation? : Char → Option Kind
  | '>' => some .jsxTagEnd
  | '<' => some .jsxTagStart
  | '/' => some .slash
  | '=' => some .eq
  | '{' => some .braceL
  | '}' => some .braceR
  | '.' => some .dot
  | ':' => some .colon
  | _ => none

def readTag (src : Source) (c : Cursor) : Cursor :=
  match c.start.rest with
  | [] => c.settle .eof c.start
  | ch :: rest =>
    match tagPunctuation? ch with
    | some kind => c.settle kind (c.start.skip 1)
    | none =>
      if ch == '"' || ch == '\'' then
        match Piece.attributeValue? ch rest with
        | some n => c.settle .string (c.start.skip (n + 1))
        | none =>
          c.fail src .unterminatedJsxString c.start.offset (Point.last src.text).offset
      else if Piece.isTagNameStart ch then
        c.settle .jsxName (c.start.skip (Lexeme.runLength Piece.isTagNamePart c.start.rest))
      else
        c.fail src (.unexpectedCharacter ch) c.start.offset (c.start.offset + ch.utf8Size)

def readTemplate (src : Source) (c : Cursor) : Cursor :=
  match Piece.template? 0 c.start.rest with
  | some n => c.settle .template (c.start.skip n)
  | none => c.fail src .unterminatedTemplate c.start.offset (Point.last src.text).offset

def readChild (src : Source) (c : Cursor) : Cursor :=
  match c.start.rest with
  | [] => c.fail src .unterminatedJsxContents c.start.offset c.start.offset
  | '<' :: _ => c.settle .jsxTagStart (c.start.skip 1)
  | '{' :: _ => c.settle .braceL (c.start.skip 1)
  | cs =>
    let text := Piece.elementText cs
    c.settle (if Piece.isLayout text then .jsxEmptyText else .jsxText) (c.start.skip text.length)

/-- Goes over the gap after the current token and reads on there. -/
def afterGap (src : Source) (c : Cursor) (read : Cursor → Cursor) : Cursor :=
  match Gap.at? c.stop with
  | .openComment n =>
    let p := c.stop.skip n
    c.fail src .unterminatedComment p.offset (p.offset + 2)
  | .ends n => read { c with start := c.stop.skip n }

def scan (src : Source) (mode : Mode) (c : Cursor) : Cursor :=
  if c.error.isSome then c.close src
  else
    match mode with
    | .code => c.afterGap src (readCode src)
    | .tag => c.afterGap src (readTag src)
    | .template => readTemplate src { c with start := c.stop }
    | .child => readChild src { c with start := c.stop }

def advance (src : Source) (mode : Mode) (c : Cursor) : Cursor :=
  scan src mode { c with lastEnd := c.stop }

def asRegex? (src : Source) (c : Cursor) : Option Cursor :=
  c.start.afterByte?.map fun body =>
    let (n, closed) := Piece.regexBody false 0 body.rest
    let stop := body.skip n
    if closed then c.settle .regexp (stop.skip (Piece.regexFlags stop.rest))
    else c.fail src .unterminatedRegex c.start.offset stop.offset

/-- Cuts the current `<<` down to its first `<`. -/
def splitShift? (c : Cursor) : Option Cursor :=
  c.start.afterByte?.map fun stop => { c with kind := .lessThan, stop }

end Cursor

end Downlevel
