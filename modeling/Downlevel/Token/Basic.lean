import Downlevel.Text.Span
import Downlevel.Token.Kind

/-! # Tokens

A token is a classified stretch of a snippet. It holds no text of its own, only its span, together
with what the grammar found out about it: whether it belongs to a type, the part a name plays, the
children of the element that it opens. -/

namespace Downlevel

inductive Level where
  | topLevel
  | function
  | block
deriving DecidableEq, Repr

inductive Role where
  | access
  /-- a local name in `export { a as b }` -/
  | exportAccess
  /-- a declared name; `shorthand` when it is also the key in an object pattern, as in `{ a }` -/
  | declaration (level : Level) (shorthand : Bool)
  /-- `{ a }` in an expression -/
  | objectShorthand
  /-- the local name of an imported binding -/
  | importDeclaration
  /-- the foreign name in `import { a as b }` -/
  | importAccess
  | objectKey
deriving DecidableEq, Repr

namespace Role

def isDeclaration : Role → Bool
  | declaration _ _ | importDeclaration => true
  | _ => false

def declaresAt (level : Level) : Role → Bool
  | declaration l _ => l == level
  | _ => false

def isShorthand : Role → Bool
  | objectShorthand | declaration _ true => true
  | _ => false

end Role

/-- The children of a markup element, kept on its opening `<`. -/
inductive ElementShape where
  | noChildren
  | oneChild
  | staticChildren
  /-- a `key` follows a spread of props, which has no form in the automatic runtime -/
  | keyAfterSpread
deriving DecidableEq, Repr

structure Token where
  kind : Kind
  keyword : Option Contextual := none
  span : Span
  /-- the number of scopes open around the token -/
  depth : Nat := 0
  /-- whether the token belongs to a type, and so is left out of the output -/
  isType : Bool := false
  role : Option Role := none
  shape : Option ElementShape := none
  /-- whether the name stands for an inner declaration and not for the module's own -/
  shadowed : Bool := false
  /-- the index of the first token after the right-hand side or declaration opened here -/
  rhsEnd : Option Nat := none
deriving DecidableEq, Repr

namespace Token

def text (t : Token) (source : List Char) : List Char := t.span.text source

def isWord (t : Token) (word : Contextual) : Bool := t.kind == .name && t.keyword == some word

end Token

structure Scope where
  start : Nat
  stop : Nat
  isFunction : Bool
deriving DecidableEq, Repr

/-- What a top-level statement is, as far as its treatment goes. -/
inductive StatementKind where
  | expression
  | declaration
  /-- a type alias, an interface, a `declare`: left out altogether -/
  | typeOnly
  | importStatement
  | exportDefault
  | exportStatement
  | returnStatement
  | empty
  | other
deriving DecidableEq, Repr

structure Statement where
  kind : StatementKind
  start : Nat
  stop : Nat
  /-- where the expression of an expression statement ends, before its `;` -/
  expressionEnd : Nat
deriving DecidableEq, Repr

end Downlevel
