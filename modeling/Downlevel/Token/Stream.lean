import Downlevel.Token.Basic
import Downlevel.Token.SyntaxError

/-! # Token streams

What reading a snippet yields: its tokens, scopes and top-level statements, or the fault that
stopped it. -/

namespace Downlevel

structure Dialect where
  jsx : Bool := true
  typescript : Bool := false
  flow : Bool := false
deriving DecidableEq, Repr

def Dialect.typed (d : Dialect) : Bool := d.typescript || d.flow

structure TokenStream where
  /-- all tokens in order; the last one is always the end of the input -/
  tokens : Array Token
  /-- the scopes in the order in which they close; the whole snippet comes last -/
  scopes : Array Scope
  statements : Array Statement
  /-- the first error; the tokens after it tell nothing -/
  error : Option SyntaxError := none
deriving Repr

/-- What brings the work on a snippet to a halt apart from errors of the snippet itself. -/
inductive Fault where
  /-- a token that was to be looked at again is not there -/
  | missingToken (index : Nat)
  /-- the name that an export clause lists is not among the tokens that were read, with the error
  that was met before -/
  | missingLocal (index : Nat) (read : Array Token) (error : Option SyntaxError)
  /-- a text was to be cut inside a character, or after its end -/
  | insideCharacter (offset : Nat)
  /-- a scope was to be closed where none is open -/
  | noScope
  /-- edits that were to be taken out are not there -/
  | missingEdits (count : Nat)
  /-- the bound on the number of steps was reached -/
  | outOfFuel
deriving DecidableEq, Repr

end Downlevel
