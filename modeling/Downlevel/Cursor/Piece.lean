import Downlevel.Text.Blank
import Downlevel.Text.Numeral
import Downlevel.Token.Lexeme

/-! # Pieces that hang on position

Template pieces, regular expressions, tag names and the text between tags: what the same characters
mean there depends on where the reader stands. Lengths count characters. -/

namespace Downlevel.Piece

open Text (isLineEnd isAlphabetic isAlphanumeric isBlank)

/-- The length of a template piece, up to a backquote or `${`; `none` when neither follows. A
backslash takes the character after it along. -/
def template? (n : Nat) : List Char → Option Nat
  | '\\' :: _ :: cs => template? (n + 2) cs
  | '$' :: '{' :: _ => some n
  | c :: cs => if c == '\x60' then some n else template? (n + 1) cs
  | [] => none

/-- Reads the body of a regular expression after its opening slash: how many characters belong to
it, and whether the last of them is the closing slash. A slash in a class does not close. -/
def regexBody (inClass : Bool) (n : Nat) : List Char → Nat × Bool
  | '\\' :: c :: cs => if isLineEnd c then (n + 1, false) else regexBody inClass (n + 2) cs
  | c :: cs =>
    if isLineEnd c then (n, false)
    else if c == '\\' then (n + 1, false)
    else if c == '/' && !inClass then (n + 1, true)
    else regexBody (c == '[' || (inClass && c != ']')) (n + 1) cs
  | [] => (n, false)

def regexFlags (cs : List Char) : Nat :=
  Lexeme.runLength (fun c => isAlphanumeric c || c == '_' || c == '$') cs

def isTagNameStart (c : Char) : Bool := isAlphabetic c || c == '_' || c == '$'

def isTagNamePart (c : Char) : Bool := isAlphanumeric c || c == '_' || c == '$' || c == '-'

/-- The length of a quoted attribute value after its opening quote, the closing one included;
`none` when it is not closed. No character is special in it. -/
def attributeValue? (quote : Char) (cs : List Char) : Option Nat :=
  let n := Lexeme.runLength (· != quote) cs
  if n < cs.length then some (n + 1) else none

def elementText (cs : List Char) : List Char := cs.takeWhile fun c => c != '<' && c != '{'

/-- Text between tags that only lays out the source: blanks with a line end among them. -/
def isLayout (text : List Char) : Bool := text.all isBlank && text.any isLineEnd

end Downlevel.Piece
