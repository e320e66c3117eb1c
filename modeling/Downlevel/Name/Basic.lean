import Downlevel.Text.LetterCase
import Downlevel.Text.Numeral
import Downlevel.Text.Split

/-! # Names

Names for what the compiled code needs itself, made from the paths of modules. A supply gives out no
name that the snippet uses, and none twice. -/

namespace Downlevel

namespace Name

def isPart (c : Char) : Bool := Text.isAlphanumeric c || c == '_' || c == '$'

/-- Whether a text is an identifier, so that it can stand alone or after a dot. -/
def isIdentifier (name : String) : Bool :=
  match name.toList with
  | [] => false
  | c :: cs => (Text.isAlphabetic c || c == '_' || c == '$') && cs.all isPart

/-- The characters that may stand in an identifier; one that follows others that may not is put in
upper case, unless it is the first. -/
def camelCase (atStart upper : Bool) : List Char → List Char
  | [] => []
  | c :: cs =>
    if isPart c then
      (if upper && !atStart then Text.upperCase c else [c]) ++ camelCase false false cs
    else camelCase atStart true cs

def sanitize (raw : List Char) : List Char :=
  match camelCase true false raw with
  | [] => "module".toList
  | c :: cs => if c.isDigit then '_' :: c :: cs else c :: cs

def stem (segment : List Char) : List Char :=
  let extension := segment.reverse.takeWhile (· != '.')
  let front := segment.take (segment.length - extension.length - 1)
  if extension.length < segment.length && !front.isEmpty then front else segment

def ofPath (path : String) : String :=
  let segments := (Text.split '/' path.toList).reverse
  let segment := segments.find? fun s => !s.isEmpty && s != ['.'] && s != ['.', '.']
  String.ofList (sanitize (stem (segment.getD [])))

end Name

structure NameSupply where
  used : List String := []

namespace NameSupply

def candidate (base : String) (n : Nat) : String := base ++ "$" ++ toString n

/-- The least number from `n` on that makes a free name, of `tries` that are looked at. -/
def firstFree (used : List String) (base : String) (n : Nat) : (tries : Nat) → Nat
  | 0 => n
  | tries + 1 =>
    if used.contains (candidate base n) then firstFree used base (n + 1) tries else n

/-- Takes the first free name made from a base. There are no more names taken than the supply
holds, so a free one is found. -/
def fresh (s : NameSupply) (base : String) : String × NameSupply :=
  let base := String.ofList (Name.sanitize base.toList)
  let name := candidate base (firstFree s.used base 0 s.used.length)
  (name, ⟨name :: s.used⟩)

def isUsed (s : NameSupply) (name : String) : Bool := s.used.contains name

end NameSupply

end Downlevel
