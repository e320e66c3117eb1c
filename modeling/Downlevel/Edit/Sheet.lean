import Downlevel.Text.Quoted
import Downlevel.Token.Basic

/-! # Sheets

A snippet with its tokens, as it lies in front of an editor. -/

namespace Downlevel

/-- A snippet and its tokens, the last of which is the end of the input. -/
structure Sheet where
  text : List Char
  tokens : Array Token

namespace Sheet

def token? (s : Sheet) (index : Nat) : Option Token := s.tokens[index]?

def textAt (s : Sheet) (index : Nat) : String :=
  match s.tokens[index]? with
  | some t => String.ofList (t.text s.text)
  | none => ""

def gap (s : Sheet) (index : Nat) : List Char :=
  let start := if index == 0 then 0 else ((s.tokens[index - 1]?).map (·.span.stop)).getD 0
  let stop := ((s.tokens[index]?).map (·.span.start)).getD (Text.size s.text)
  (Text.slice? start stop s.text).getD []

def kindAt (s : Sheet) (index : Nat) : Kind := ((s.tokens[index]?).map (·.kind)).getD .eof

def hasKinds (s : Sheet) (index : Nat) : List Kind → Bool
  | [] => true
  | k :: ks => (s.tokens[index]?).any (·.kind == k) && s.hasKinds (index + 1) ks

def hasWord (s : Sheet) (index : Nat) (word : Contextual) : Bool :=
  (s.tokens[index]?).any (·.isWord word)

/-- The name that a token spells: its text, or what stands in the quotes of a string. -/
def spelling (text : List Char) (t : Token) : String :=
  let literal := t.text text
  String.ofList (if t.kind == .string then Text.unquoted literal else literal)

end Sheet

end Downlevel
