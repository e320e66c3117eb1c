import Downlevel.Decimal.Shortest
import Downlevel.Json.Basic

/-! # Writing JSON

Two layouts: `compact` has no blanks, `pretty` has a line for each item, indented by two spaces for
each level. -/

namespace Downlevel.Json

def hexDigit (n : Nat) : Char :=
  if n < 10 then Char.ofNat ('0'.toNat + n) else Char.ofNat ('a'.toNat + (n - 10))

/-- A character as it stands in a string: control characters, quotes and backslashes are escaped,
and nothing else is. -/
def escapeChar (c : Char) : List Char :=
  match c with
  | '"' => ['\\', '"']
  | '\\' => ['\\', '\\']
  | '\n' => ['\\', 'n']
  | '\r' => ['\\', 'r']
  | '\t' => ['\\', 't']
  | '\x08' => ['\\', 'b']
  | '\x0c' => ['\\', 'f']
  | c =>
    if c.toNat < 0x20 then ['\\', 'u', '0', '0', hexDigit (c.toNat / 16), hexDigit (c.toNat % 16)]
    else [c]

def quote (s : String) : String :=
  "\"" ++ String.ofList (s.toList.flatMap escapeChar) ++ "\""

def maxPlaces : Int := 16

def maxZeros : Int := 4

def zeros (n : Int) : String := String.ofList (List.replicate n.toNat '0')

/-- An exponent as it is written: always with a sign, and without zeros before it. -/
def renderExponent (e : Int) : String := "e" ++ (if e < 0 then "-" else "+") ++ toString e.natAbs

def renderDecimal (d : Decimal) : String :=
  let digits := toString d.digits
  let places : Int := digits.length + d.exponent
  let cut (n : Nat) : String :=
    String.ofList (digits.toList.take n) ++ "." ++ String.ofList (digits.toList.drop n)
  if 0 ≤ d.exponent && places ≤ maxPlaces then digits ++ zeros d.exponent ++ ".0"
  else if 0 < places && places ≤ maxPlaces then cut places.toNat
  else if -maxZeros ≤ places && places ≤ 0 then "0." ++ zeros (-places) ++ digits
  else (if digits.length == 1 then digits else cut 1) ++ renderExponent (places - 1)

def Number.render : Number → String
  | .whole n => toString n
  | .double negative x => (if negative then "-" else "") ++ renderDecimal (.shortest x)

mutual

def compact : Json → String
  | .null => "null"
  | .bool b => if b then "true" else "false"
  | .number n => n.render
  | .string s => quote s
  | .array items => "[" ++ compactItems items ++ "]"
  | .object members => "\x7b" ++ compactMembers members ++ "\x7d"

def compactItems : List Json → String
  | [] => ""
  | [j] => compact j
  | j :: rest => compact j ++ "," ++ compactItems rest

def compactMembers : List (String × Json) → String
  | [] => ""
  | [(key, j)] => quote key ++ ":" ++ compact j
  | (key, j) :: rest => quote key ++ ":" ++ compact j ++ "," ++ compactMembers rest

end

def newline (level : Nat) : String := "\n" ++ String.ofList (List.replicate (2 * level) ' ')

mutual

/-- The value over several lines, of which all but the first are at least at `level`. -/
def prettyAt (level : Nat) : Json → String
  | .array items =>
    if items.isEmpty then "[]"
    else "[" ++ prettyItems (level + 1) items ++ newline level ++ "]"
  | .object members =>
    if members.isEmpty then "\x7b\x7d"
    else "\x7b" ++ prettyMembers (level + 1) members ++ newline level ++ "\x7d"
  | j => compact j

def prettyItems (level : Nat) : List Json → String
  | [] => ""
  | [j] => newline level ++ prettyAt level j
  | j :: rest => newline level ++ prettyAt level j ++ "," ++ prettyItems level rest

def prettyMembers (level : Nat) : List (String × Json) → String
  | [] => ""
  | [(key, j)] => newline level ++ quote key ++ ": " ++ prettyAt level j
  | (key, j) :: rest =>
    newline level ++ quote key ++ ": " ++ prettyAt level j ++ "," ++ prettyMembers level rest

end

def pretty (j : Json) : String := prettyAt 0 j

end Downlevel.Json
