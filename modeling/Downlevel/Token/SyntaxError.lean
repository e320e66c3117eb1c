import Downlevel.Text.Span

/-! # Syntax errors

Why a snippet could not be read, and where. Reading stops at the first error. -/

namespace Downlevel

inductive SyntaxError.Cause where
  | unterminatedString
  | unterminatedTemplate
  | unterminatedComment
  | unterminatedRegex
  | unterminatedJsxString
  | unterminatedJsxContents
  | unexpectedCharacter (c : Char)
  | unexpectedToken (expected found : String)
  | unexpected (found : String)
  | mismatchedClosingTag (expected found : String)
  | unsupported (what : String)
deriving DecidableEq, Repr

structure SyntaxError where
  cause : SyntaxError.Cause
  span : Span
deriving DecidableEq, Repr

def SyntaxError.Cause.message : SyntaxError.Cause → String
  | unterminatedString => "Unterminated string constant"
  | unterminatedTemplate => "Unterminated template"
  | unterminatedComment => "Unterminated comment"
  | unterminatedRegex => "Unterminated regular expression"
  | unterminatedJsxString => "Unterminated string constant in JSX attribute"
  | unterminatedJsxContents => "Unterminated JSX contents"
  | unexpectedCharacter c => "Unexpected character '" ++ c.toString ++ "'"
  | unexpectedToken expected found => "Unexpected token " ++ found ++ ", expected " ++ expected
  | unexpected found => "Unexpected token " ++ found
  | mismatchedClosingTag expected found =>
    "Expected corresponding JSX closing tag for <" ++ expected ++ ">, found </" ++ found ++ ">"
  | unsupported what => what ++ " is not supported"

def SyntaxError.message (e : SyntaxError) : String := e.cause.message

end Downlevel
