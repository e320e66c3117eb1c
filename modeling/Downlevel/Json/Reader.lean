import Downlevel.Json.Outline

/-! # Reading JSON

A text is cut into tokens first, and a stack of open arrays and objects then turns the tokens into
an outline. The value of the outline is the value of the text. -/

namespace Downlevel.Json

inductive Lexeme where
  | openArray
  | closeArray
  | openObject
  | closeObject
  | comma
  | colon
  /-- a string, none if its escapes spell no text -/
  | text (s : Option String)
  /-- a value that stands for itself, none for a number that is too large -/
  | scalar (value : Option Json)

/-! ## Strings -/

/-- A part of a string: a character, or a 16-bit unit that is written as a number. -/
inductive Spelling where
  | char (c : Char)
  | unit (n : Nat)

def hexValue? (c : Char) : Option Nat :=
  if c.isDigit then some (c.toNat - '0'.toNat)
  else if 'a' ≤ c && c ≤ 'f' then some (c.toNat - 'a'.toNat + 10)
  else if 'A' ≤ c && c ≤ 'F' then some (c.toNat - 'A'.toNat + 10)
  else none

def hexUnit? (a b c d : Char) : Option Nat := do
  return (((← hexValue? a) * 16 + (← hexValue? b)) * 16 + (← hexValue? c)) * 16 + (← hexValue? d)

def escaped? : Char → Option Char
  | '"' => some '"'
  | '\\' => some '\\'
  | '/' => some '/'
  | 'b' => some '\x08'
  | 'f' => some '\x0c'
  | 'n' => some '\n'
  | 'r' => some '\r'
  | 't' => some '\t'
  | _ => none

def isHighSurrogate (n : Nat) : Bool := 0xD800 ≤ n && n ≤ 0xDBFF

def isLowSurrogate (n : Nat) : Bool := 0xDC00 ≤ n && n ≤ 0xDFFF

/-- Reads a string after its opening quote: its parts, the last one first, and what follows the
closing quote. -/
def stringBody (done : List Spelling) : List Char → Option (List Spelling × List Char)
  | '"' :: rest => some (done, rest)
  | '\\' :: 'u' :: a :: b :: c :: d :: rest => do
    stringBody (.unit (← hexUnit? a b c d) :: done) rest
  | '\\' :: c :: rest => do stringBody (.char (← escaped? c) :: done) rest
  | c :: rest => if c.toNat < 0x20 || c == '\\' then none else stringBody (.char c :: done) rest
  | [] => none

/-- The text that parts of a string spell, put after `done`, of which the last character comes
first. Halves of pairs have to stand together. -/
def spelled? (done : List Char) : List Spelling → Option (List Char)
  | [] => some done.reverse
  | .char c :: rest => spelled? (c :: done) rest
  | .unit first :: .unit second :: rest =>
    if isHighSurrogate first then
      if isLowSurrogate second then
        let code := 0x10000 + (first - 0xD800) * 0x400 + (second - 0xDC00)
        spelled? (Char.ofNat code :: done) rest
      else none
    else if isLowSurrogate first then none
    else spelled? (Char.ofNat first :: done) (.unit second :: rest)
  | .unit n :: rest =>
    if isHighSurrogate n || isLowSurrogate n then none else spelled? (Char.ofNat n :: done) rest

/-! ## Numbers -/

def digitsValue (digits : List Char) : Nat :=
  digits.foldl (fun n c => n * 10 + (c.toNat - '0'.toNat)) 0

def digits (cs : List Char) : List Char × List Char := cs.span Char.isDigit

def exponent? (cs : List Char) : Option (Option Int × List Char) :=
  match cs with
  | mark :: rest =>
    if mark == 'e' || mark == 'E' then
      let (negative, rest) :=
        match rest with
        | '-' :: rest => (true, rest)
        | '+' :: rest => (false, rest)
        | rest => (false, rest)
      let (ds, rest) := digits rest
      if ds.isEmpty then none
      else
        let n := digitsValue ds
        some (some (if negative then -(n : Int) else n), rest)
    else some (none, cs)
  | [] => some (none, cs)

def significandLimit : Nat := 0xffffffffffffffff

/-- Adds digits to a significand until one would exceed the limit; answers how many were added. -/
def gather (significand count : Nat) : List Char → Nat × Nat
  | [] => (significand, count)
  | c :: cs =>
    let next := significand * 10 + (c.toNat - '0'.toNat)
    if next ≤ significandLimit then gather next (count + 1) cs else (significand, count)

/-- The double for the digits before and after a point, and an exponent, if it is not too large.
Digits that do not fit the significand count for their places only. -/
def double? (whole fraction : List Char) (exponent : Int) : Option Double :=
  let (significand, taken) := gather 0 0 whole
  let (significand, after) := gather significand 0 fraction
  Double.ofDecimal? significand (exponent + (whole.length - taken : Nat) - after)

/-- A number with its sign read: its value, if it is not too large, and what follows. A whole one
that fits 64 bits stays whole. -/
def unsigned? (negative : Bool) (cs : List Char) : Option (Option Number × List Char) := do
  let (whole, rest) := digits cs
  if whole.isEmpty || (whole.head? == some '0' && whole.length != 1) then none
  let (fraction, rest) ←
    match rest with
    | '.' :: rest =>
      let (ds, rest) := digits rest
      if ds.isEmpty then none else some (ds, rest)
    | _ => some ([], rest)
  let (exponent, rest) ← exponent? rest
  let value := digitsValue whole
  let fits := if negative then 0 < value && value ≤ 0x8000000000000000 else value ≤ significandLimit
  if fraction.isEmpty && exponent.isNone && fits then
    return (some (.whole (if negative then -(value : Int) else value)), rest)
  return ((double? whole fraction (exponent.getD 0)).map (.double negative), rest)

def number? (cs : List Char) : Option (Option Number × List Char) :=
  match cs with
  | '-' :: rest => unsigned? true rest
  | _ => unsigned? false cs

/-! ## Lexemes -/

def isSpace (c : Char) : Bool := c == ' ' || c == '\n' || c == '\t' || c == '\r'

def lexeme? : List Char → Option (Lexeme × List Char)
  | '[' :: rest => some (.openArray, rest)
  | ']' :: rest => some (.closeArray, rest)
  | '{' :: rest => some (.openObject, rest)
  | '}' :: rest => some (.closeObject, rest)
  | ',' :: rest => some (.comma, rest)
  | ':' :: rest => some (.colon, rest)
  | '"' :: rest => do
    let (reversed, rest) ← stringBody [] rest
    return (.text ((spelled? [] reversed.reverse).map String.ofList), rest)
  | 't' :: 'r' :: 'u' :: 'e' :: rest => some (.scalar (some (.bool true)), rest)
  | 'f' :: 'a' :: 'l' :: 's' :: 'e' :: rest => some (.scalar (some (.bool false)), rest)
  | 'n' :: 'u' :: 'l' :: 'l' :: rest => some (.scalar (some .null), rest)
  | cs => do
    let (n, rest) ← number? cs
    return (.scalar (n.map .number), rest)

def lexemesUpTo : Nat → List Char → Option (List Lexeme)
  | 0, cs => if (cs.dropWhile isSpace).isEmpty then some [] else none
  | n + 1, cs =>
    match cs.dropWhile isSpace with
    | [] => some []
    | cs => do
      let (l, rest) ← lexeme? cs
      return l :: (← lexemesUpTo n rest)

/-- The lexemes of a text. No text has more of them than characters. -/
def lexemes (cs : List Char) : Option (List Lexeme) := lexemesUpTo cs.length cs

/-! ## Outlines -/

/-- An array or object that is not closed yet, its last part first. -/
inductive Frame where
  | array (items : List Outline)
  | object (members : List (Option String × Outline)) (key : Option String)

inductive Phase where
  | value
  /-- a value, or the end of the array that was just opened -/
  | item
  | key
  /-- a key, or the end of the object that was just opened -/
  | firstKey
  | colon
  /-- a comma, or the end of what is open -/
  | after
  /-- nothing, because the outline is complete -/
  | complete (o : Outline)

structure Builder where
  stack : List Frame := []
  phase : Phase := .value

namespace Builder

def finish (stack : List Frame) (o : Outline) : Builder :=
  match stack with
  | [] => { stack := [], phase := .complete o }
  | .array items :: rest => { stack := .array (o :: items) :: rest, phase := .after }
  | .object members key :: rest =>
    { stack := .object ((key, o) :: members) key :: rest, phase := .after }

def begin? (stack : List Frame) : Lexeme → Option Builder
  | .openArray => some { stack := .array [] :: stack, phase := .item }
  | .openObject => some { stack := .object [] none :: stack, phase := .firstKey }
  | .text s => some (finish stack (.scalar (s.map .string)))
  | .scalar value => some (finish stack (.scalar value))
  | _ => none

def setKey (stack : List Frame) (key : Option String) : Option Builder :=
  match stack with
  | .object members _ :: rest => some { stack := .object members key :: rest, phase := .colon }
  | _ => none

def step (b : Builder) (l : Lexeme) : Option Builder :=
  match b.phase, l with
  | .item, .closeArray =>
    match b.stack with
    | .array items :: rest => some (finish rest (.array items.reverse))
    | _ => none
  | .value, l | .item, l => begin? b.stack l
  | .firstKey, .closeObject =>
    match b.stack with
    | .object members _ :: rest => some (finish rest (.object members.reverse))
    | _ => none
  | .key, .text s | .firstKey, .text s => setKey b.stack s
  | .colon, .colon => some { b with phase := .value }
  | .after, l =>
    match b.stack, l with
    | .array _ :: _, .comma => some { b with phase := .value }
    | .array items :: rest, .closeArray => some (finish rest (.array items.reverse))
    | .object _ _ :: _, .comma => some { b with phase := .key }
    | .object members _ :: rest, .closeObject => some (finish rest (.object members.reverse))
    | _, _ => none
  | _, _ => none

end Builder

def outline? (text : String) : Option Outline := do
  let b ← (← lexemes text.toList).foldlM Builder.step {}
  match b.phase with
  | .complete o => some o
  | _ => none

def parse? (text : String) : Option Json := (outline? text).bind (·.value?)

end Downlevel.Json
