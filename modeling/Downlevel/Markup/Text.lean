import Downlevel.Json.Printer
import Downlevel.Markup.Entity
import Downlevel.Text.Blank
import Downlevel.Text.Quoted

/-! # Text in markup

Text between tags is cut at line feeds; blanks at the cuts go, lines that are empty then go, and the
others are joined by single spaces. In attribute values only a line feed with blanks after it is
folded. Character references are decoded in both. -/

namespace Downlevel.Markup

/-- Whether `c` is a blank that text between tags loses at a cut. -/
def isLineBlank (c : Char) : Bool := c == ' ' || c == '\t' || c == '\r'

/-- Cleans text between tags from some place on. The first `skip` characters belong to a reference
that is decoded. `initial` says that only blanks were read since the last line feed, `seen` that
something other than blanks was read at all, and `blanks` holds the blanks just read, the last one
first. -/
def cleanFrom (initial seen : Bool) (blanks : List Char) : (skip : Nat) → List Char → List Char
  | _, [] => if initial then [] else blanks.reverse
  | skip + 1, _ :: cs => cleanFrom initial seen blanks skip cs
  | 0, c :: cs =>
    if isLineBlank c then cleanFrom initial seen (if initial then blanks else c :: blanks) 0 cs
    else if c == '\n' then cleanFrom true seen [] 0 cs
    else
      (if seen && initial then [' '] else []) ++ blanks.reverse ++
        match if c == '&' then reference? cs else none with
        | some (d, n) => d :: cleanFrom false true [] n cs
        | none => c :: cleanFrom false true [] 0 cs

def clean (text : List Char) : List Char := cleanFrom false false [] 0 text

/-- An attribute value from some place on. The first `skip` characters belong to a reference that is
decoded; with `folding`, blanks are passed over. -/
def attributeFrom (folding : Bool) : (skip : Nat) → List Char → List Char
  | _, [] => []
  | skip + 1, _ :: cs => attributeFrom folding skip cs
  | 0, c :: cs =>
    if folding && Text.isBlank c then attributeFrom true 0 cs
    else if c == '\n' && cs.head?.any Text.isBlank then ' ' :: attributeFrom true 0 cs
    else
      match if c == '&' then reference? cs else none with
      | some (d, n) => d :: attributeFrom false n cs
      | none => c :: attributeFrom false 0 cs

def attributeValue (inner : List Char) : List Char := attributeFrom false 0 inner

/-- The string literal for an attribute literal with line feeds or references in it, with its line
feeds after it; none when the literal can stay as it is. -/
def attributeLiteral? (literal : List Char) : Option String :=
  let inner := Text.unquoted literal
  if inner.contains '\n' || inner.contains '&' then
    some (Json.quote (String.ofList (attributeValue inner)) ++
      String.ofList (Text.lineFeeds inner))
  else none

end Downlevel.Markup
