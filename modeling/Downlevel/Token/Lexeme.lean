import Downlevel.Token.Kind

/-! # Lexemes

The tokens that can be told from the characters alone: names and reserved words, numbers, strings
and punctuation. Of all lexemes at a place the longest is taken. What hangs on the position in the
program (regular expressions, template pieces, markup) is read elsewhere. -/

namespace Downlevel

structure Lexeme where
  kind : Kind
  keyword : Option Contextual := none
  length : Nat
deriving DecidableEq, Repr

inductive Lexeme.Reading where
  | lexeme (l : Lexeme)
  /-- a string that does not end; `length` characters of it can be read -/
  | openString (length : Nat)
  | unknown

namespace Lexeme

def runLength (p : Char → Bool) (cs : List Char) : Nat := (cs.takeWhile p).length

/-! ## Names -/

def isNameStart (c : Char) : Bool := c.isAlpha || c == '_' || c == '$' || 0x80 ≤ c.toNat

def isNamePart (c : Char) : Bool := isNameStart c || c.isDigit

def classify (word : String) : Kind × Option Contextual :=
  match Kind.reservedWords.lookup word with
  | some kind => (kind, none)
  | none => (.name, Contextual.words.lookup word)

def name (cs : List Char) : Lexeme :=
  let word := cs.takeWhile isNamePart
  let (kind, keyword) := classify (String.ofList word)
  { kind, keyword, length := word.length }

/-! ## Numbers -/

/-- A decimal digit, or the `_` that may part digits. -/
def isDigitPart (c : Char) : Bool := c.isDigit || c == '_'

def exponentLength : List Char → Nat
  | mark :: cs =>
    if mark == 'e' || mark == 'E' then
      let sign := if cs.head?.any fun c => c == '+' || c == '-' then 1 else 0
      let digits := cs.drop sign
      if digits.head?.any Char.isDigit then 1 + sign + runLength isDigitPart digits else 0
    else 0
  | [] => 0

def radixDigit? : Char → Option (Char → Bool)
  | 'x' | 'X' => some fun c => c.isDigit || ('a' ≤ c && c ≤ 'f') || ('A' ≤ c && c ≤ 'F')
  | 'o' | 'O' => some fun c => '0' ≤ c && c ≤ '7'
  | 'b' | 'B' => some fun c => c == '0' || c == '1'
  | _ => none

/-- A number with a base mark, such as `0xFF` or `0b1n`. -/
def radixNumber? : List Char → Option Lexeme
  | '0' :: mark :: digits => do
    let isDigit ← radixDigit? mark
    let n := runLength (fun c => isDigit c || c == '_') digits
    if 0 < n && (digits.drop n).head? == some 'n' then
      some { kind := .bigInt, length := n + 3 }
    else if digits.head?.any isDigit then
      some { kind := .num, length := n + 2 }
    else none
  | _ => none

/-- A decimal number: digits with a fraction, an exponent or a final `n`, or a fraction alone. -/
def decimalNumber? (cs : List Char) : Option Lexeme :=
  match cs with
  | '.' :: digits =>
    if digits.head?.any Char.isDigit then
      let n := 1 + runLength isDigitPart digits
      some { kind := .num, length := n + exponentLength (cs.drop n) }
    else none
  | c :: _ =>
    if c.isDigit then
      let whole := runLength isDigitPart cs
      match cs.drop whole with
      | 'n' :: _ => some { kind := .bigInt, length := whole + 1 }
      | '.' :: digits =>
        let n := whole + 1 + runLength isDigitPart digits
        some { kind := .num, length := n + exponentLength (cs.drop n) }
      | rest => some { kind := .num, length := whole + exponentLength rest }
    else none
  | [] => none

/-- The number at the head of `cs`. A base mark without digits after it is no part of a number. -/
def number? (cs : List Char) : Option Lexeme := (radixNumber? cs).or (decimalNumber? cs)

/-! ## Strings -/

/-- Reads a string after its opening quote: how many characters belong to it, and whether the last
of them closes it. A line end may only stand after a backslash. -/
def stringBody (quote : Char) : List Char → Nat × Bool
  | '\\' :: '\r' :: '\n' :: cs => let (n, closed) := stringBody quote cs; (n + 3, closed)
  | '\\' :: _ :: cs => let (n, closed) := stringBody quote cs; (n + 2, closed)
  | c :: cs =>
    if c == quote then (1, true)
    else if c == '\\' || c == '\n' || c == '\r' then (0, false)
    else let (n, closed) := stringBody quote cs; (n + 1, closed)
  | [] => (0, false)

/-! ## Punctuation -/

/-- The punctuators, longer ones before their own beginnings. -/
def punctuators : List (List Char × Kind) :=
  [(">>>=", Kind.assign), ("...", .ellipsis), ("**=", .assign), ("<<=", .assign),
   (">>=", .assign), ("&&=", .assign), ("||=", .assign), ("??=", .assign), ("===", .equality),
   ("!==", .equality), (">>>", .shiftR), ("\x7b|", .braceBarL), ("|\x7d", .braceBarR),
   ("?.", .questionDot), ("=>", .arrow), ("$\x7b", .dollarBraceL), ("+=", .assign),
   ("-=", .assign), ("*=", .assign), ("/=", .assign), ("%=", .assign), ("&=", .assign),
   ("|=", .assign), ("^=", .assign), ("++", .incDec), ("--", .incDec), ("??", .nullish),
   ("||", .logicalOr), ("&&", .logicalAnd), ("==", .equality), ("!=", .equality),
   ("<=", .relational), (">=", .relational), ("<<", .shiftL), (">>", .shiftR),
   ("**", .exponent), ("[", .bracketL), ("]", .bracketR), ("\x7b", .braceL), ("\x7d", .braceR),
   ("(", .parenL), (")", .parenR), (",", .comma), (";", .semi), (":", .colon), (".", .dot),
   ("?", .question), ("\x60", .backQuote), ("@", .atSign), ("=", .eq), ("!", .bang), ("~", .tilde),
   ("|", .bitOr), ("^", .bitXor), ("&", .bitAnd), ("<", .lessThan), (">", .greaterThan),
   ("+", .plusMinus), ("-", .plusMinus), ("%", .modulo), ("*", .star), ("/", .slash)].map
    fun (spelling, kind) => (spelling.toList, kind)

def punctuator? (cs : List Char) : Option Lexeme :=
  (punctuators.find? fun (spelling, _) => spelling.isPrefixOf cs).map
    fun (spelling, kind) => { kind, length := spelling.length }

/-! ## All of them -/

def read (cs : List Char) : Reading :=
  match cs with
  | [] => .unknown
  | '$' :: '{' :: _ => .lexeme { kind := .dollarBraceL, length := 2 }
  | c :: rest =>
    if isNameStart c then .lexeme (name cs)
    else if c == '#' then
      if rest.head?.any isNameStart then
        .lexeme { kind := .privateName, length := 1 + runLength isNamePart rest }
      else .unknown
    else if c == '"' || c == '\'' then
      let (n, closed) := stringBody c rest
      if closed then .lexeme { kind := .string, length := n + 1 } else .openString (n + 1)
    else
      match (number? cs).or (punctuator? cs) with
      | some l => .lexeme l
      | none => .unknown

end Lexeme

end Downlevel
