import Downlevel.Text.LineIndex
import Downlevel.Token.Stream

/-! # Compile errors

Why a snippet yields no code: it breaks the grammar, or its tokens are not in the order that the
grammar promised. -/

namespace Downlevel

inductive Invariant where
  | unprocessedTokens
  | expectedToken (kind : Kind)
  | expectedShape
  | expectedTagEnd
  | expectedTagName
  | expectedAttributeValue
  | unexpectedInTag
  | unbalancedBraces
  | unterminatedElement
  | unexpectedChild
  | unterminatedClosingTag
  | unterminatedEnum
  | expectedInitializerEnd
  | stated (message : String)
deriving DecidableEq, Repr

def Invariant.message : Invariant → String
  | unprocessedTokens => "Did not process all tokens"
  | expectedToken kind => "Expected token " ++ kind.label
  | expectedShape => "Expected JSX role on tag start"
  | expectedTagEnd => "Expected either /> or > at the end of the tag"
  | expectedTagName => "Expected JSX tag name"
  | expectedAttributeValue => "Expected JSX attribute value"
  | unexpectedInTag => "Unexpected token in JSX tag"
  | unbalancedBraces => "Unbalanced braces in JSX"
  | unterminatedElement => "Unterminated JSX element"
  | unexpectedChild => "Unexpected token in JSX children"
  | unterminatedClosingTag => "Unterminated JSX closing tag"
  | unterminatedEnum => "Unterminated enum body"
  | expectedInitializerEnd => "Expected rhs end on enum member initializer"
  | stated message => message

inductive CompileError where
  | invalid (e : SyntaxError)
  | broken (invariant : Invariant) (offset : Nat)
deriving DecidableEq, Repr

namespace CompileError

def message : CompileError → String
  | invalid e => e.message
  | broken invariant _ => invariant.message

def span : CompileError → Span
  | invalid e => e.span
  | broken _ offset => ⟨offset, offset⟩

def offset (e : CompileError) : Nat := e.span.start

def position? (e : CompileError) (source : List Char) : Option Position :=
  (Text.LineIndex.ofText source).position? source e.offset

end CompileError

inductive Halt where
  | error (e : CompileError)
  | fault (f : Fault)
deriving DecidableEq, Repr

end Downlevel
