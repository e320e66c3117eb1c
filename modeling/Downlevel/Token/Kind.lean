/-! # Token kinds

What a token is, apart from where it stands. Reserved words have kinds of their own; words that
are keywords only in some positions (`async`, `type`, `of`, …) are names that carry a
`Contextual`. -/

namespace Downlevel

inductive Kind where
  | num
  | bigInt
  | string
  | regexp
  /-- a raw piece of a template literal, between a backquote, `${` and `}` -/
  | template
  | name
  /-- `#name` -/
  | privateName
  | eof
  | bracketL
  | bracketR
  | braceL
  /-- `{|`, which opens an exact object type -/
  | braceBarL
  | braceR
  /-- `|}`, which closes an exact object type -/
  | braceBarR
  | parenL
  | parenR
  | comma
  | semi
  | colon
  | dot
  | question
  | questionDot
  | arrow
  | ellipsis
  | backQuote
  | dollarBraceL
  | atSign
  | eq
  /-- compound assignment: `+=`, `&&=`, `>>>=`, … -/
  | assign
  | incDec
  | bang
  | tilde
  | nullish
  | logicalOr
  | logicalAnd
  | bitOr
  | bitXor
  | bitAnd
  | equality
  | lessThan
  | greaterThan
  | relational
  | shiftL
  /-- `>>` and `>>>` -/
  | shiftR
  | plusMinus
  | modulo
  | star
  | slash
  | exponent
  | jsxName
  | jsxText
  /-- blank text with a line end in it, which is no child -/
  | jsxEmptyText
  | jsxTagStart
  | jsxTagEnd
  | kwBreak
  | kwCase
  | kwCatch
  | kwContinue
  | kwDebugger
  | kwDefault
  | kwDo
  | kwElse
  | kwFinally
  | kwFor
  | kwFunction
  | kwIf
  | kwReturn
  | kwSwitch
  | kwThrow
  | kwTry
  | kwVar
  | kwLet
  | kwConst
  | kwWhile
  | kwWith
  | kwNew
  | kwThis
  | kwSuper
  | kwClass
  | kwExtends
  | kwExport
  | kwImport
  | kwYield
  | kwNull
  | kwTrue
  | kwFalse
  | kwIn
  | kwInstanceof
  | kwTypeof
  | kwVoid
  | kwDelete
deriving DecidableEq, Repr, Inhabited

/-- A word that is a keyword only in some positions, and a plain name elsewhere. -/
inductive Contextual where
  | kwAbstract
  | kwAccessor
  | kwAs
  | kwAssert
  | kwAsserts
  | kwAsync
  | kwAwait
  | kwConstructor
  | kwDeclare
  | kwEnum
  | kwExports
  | kwFrom
  | kwGet
  | kwGlobal
  | kwImplements
  | kwInfer
  | kwInterface
  | kwIs
  | kwKeyof
  | kwMixins
  | kwModule
  | kwNamespace
  | kwOf
  | kwOpaque
  | kwOut
  | kwOverride
  | kwPrivate
  | kwProtected
  | kwPublic
  | kwReadonly
  | kwRequire
  | kwSatisfies
  | kwSet
  | kwStatic
  | kwSymbol
  | kwType
  | kwUnique
  | kwUsing
deriving DecidableEq, Repr

namespace Kind

def reservedWords : List (String × Kind) :=
  [("break", kwBreak), ("case", kwCase), ("catch", kwCatch), ("continue", kwContinue),
   ("debugger", kwDebugger), ("default", kwDefault), ("do", kwDo), ("else", kwElse),
   ("finally", kwFinally), ("for", kwFor), ("function", kwFunction), ("if", kwIf),
   ("return", kwReturn), ("switch", kwSwitch), ("throw", kwThrow), ("try", kwTry),
   ("var", kwVar), ("let", kwLet), ("const", kwConst), ("while", kwWhile), ("with", kwWith),
   ("new", kwNew), ("this", kwThis), ("super", kwSuper), ("class", kwClass),
   ("extends", kwExtends), ("export", kwExport), ("import", kwImport), ("yield", kwYield),
   ("null", kwNull), ("true", kwTrue), ("false", kwFalse), ("in", kwIn),
   ("instanceof", kwInstanceof), ("typeof", kwTypeof), ("void", kwVoid), ("delete", kwDelete)]

/-- Whether the kind is that of a reserved word. Such a word may still name a property. -/
def isReserved (k : Kind) : Bool := reservedWords.any (·.2 == k)

def isBinary : Kind → Bool
  | nullish | logicalOr | logicalAnd | bitOr | bitXor | bitAnd | equality | lessThan
  | greaterThan | relational | shiftL | shiftR | plusMinus | modulo | star | slash | exponent
  | kwIn | kwInstanceof => true
  | _ => false

def isAssignment : Kind → Bool
  | eq | assign => true
  | _ => false

/-- Whether a token of this kind can end an expression, so that a `/` after it divides and a `<`
after it opens no tag. -/
def endsExpression : Kind → Bool
  | num | bigInt | string | regexp | name | privateName | bracketR | braceR | parenR | backQuote
  | incDec | kwThis | kwSuper | kwNull | kwTrue | kwFalse | jsxTagEnd => true
  | _ => false

/-- Whether a token of this kind can begin an expression, which tells `await x` from `await`. -/
def startsExpression : Kind → Bool
  | name | num | bigInt | string | privateName | parenL | bracketL | braceL | backQuote | kwNew
  | kwThis | kwSuper | kwFunction | kwClass | kwImport | kwNull | kwTrue | kwFalse | kwTypeof
  | kwVoid | kwDelete | bang | tilde | plusMinus | incDec | lessThan | slash => true
  | _ => false

/-- How tightly a binary operator binds; `none` for what is no binary operator. -/
def precedence? : Kind → Option Int
  | nullish | logicalOr => some 1
  | logicalAnd => some 2
  | bitOr => some 3
  | bitXor => some 4
  | bitAnd => some 5
  | equality => some 6
  | lessThan | greaterThan | relational | kwInstanceof | kwIn => some 7
  | shiftL | shiftR => some 8
  | plusMinus => some 9
  | star | slash | modulo => some 10
  | exponent => some 11
  | _ => none

/-- What a message calls a token that has no text, or that it expected. -/
def label : Kind → String
  | num | bigInt => "number"
  | string => "string"
  | regexp => "regular expression"
  | template => "template"
  | name => "name"
  | privateName => "private name"
  | eof => "end of input"
  | bracketL => "["
  | bracketR => "]"
  | braceL => "\x7b"
  | braceBarL => "\x7b|"
  | braceR => "\x7d"
  | braceBarR => "|\x7d"
  | parenL => "("
  | parenR => ")"
  | comma => ","
  | semi => ";"
  | colon => ":"
  | dot => "."
  | question => "?"
  | questionDot => "?."
  | arrow => "=>"
  | ellipsis => "..."
  | backQuote => "\x60"
  | dollarBraceL => "$\x7b"
  | atSign => "@"
  | eq => "="
  | assign => "_="
  | incDec => "++/--"
  | bang => "!"
  | tilde => "~"
  | nullish => "??"
  | logicalOr => "||"
  | logicalAnd => "&&"
  | bitOr => "|"
  | bitXor => "^"
  | bitAnd => "&"
  | equality => "==/!="
  | lessThan => "<"
  | greaterThan => ">"
  | relational => "<=/>="
  | shiftL => "<<"
  | shiftR => ">>"
  | plusMinus => "+/-"
  | modulo => "%"
  | star => "*"
  | slash => "/"
  | exponent => "**"
  | jsxName => "jsx name"
  | jsxText | jsxEmptyText => "jsx text"
  | jsxTagStart => "jsx tag start"
  | jsxTagEnd => "jsx tag end"
  | word => ((reservedWords.find? (·.2 == word)).map (·.1)).getD ""

end Kind

/-- The contextual keywords by their spelling. -/
def Contextual.words : List (String × Contextual) :=
  [("abstract", .kwAbstract), ("accessor", .kwAccessor), ("as", .kwAs), ("assert", .kwAssert),
   ("asserts", .kwAsserts), ("async", .kwAsync), ("await", .kwAwait),
   ("constructor", .kwConstructor), ("declare", .kwDeclare), ("enum", .kwEnum),
   ("exports", .kwExports), ("from", .kwFrom), ("get", .kwGet), ("global", .kwGlobal),
   ("implements", .kwImplements), ("infer", .kwInfer), ("interface", .kwInterface),
   ("is", .kwIs), ("keyof", .kwKeyof), ("mixins", .kwMixins), ("module", .kwModule),
   ("namespace", .kwNamespace), ("of", .kwOf), ("opaque", .kwOpaque), ("out", .kwOut),
   ("override", .kwOverride), ("private", .kwPrivate), ("protected", .kwProtected),
   ("public", .kwPublic), ("readonly", .kwReadonly), ("require", .kwRequire),
   ("satisfies", .kwSatisfies), ("set", .kwSet), ("static", .kwStatic), ("symbol", .kwSymbol),
   ("type", .kwType), ("unique", .kwUnique), ("using", .kwUsing)]

end Downlevel
