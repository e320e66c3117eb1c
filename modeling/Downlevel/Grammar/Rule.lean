import Downlevel.Grammar.Parser

/-! # Rules

The rules of the grammar that refer to one another in a circle. Each production takes a `Knot` that
parses any rule, and the circle is closed by a bound on how deeply rules nest. -/

namespace Downlevel.Grammar

/-- The rules through which the grammar refers to itself. -/
inductive Rule where
  | statement
  /-- an expression without commas; with `noIn`, the operator `in` ends it -/
  | assignment (noIn : Bool)
  /-- operators that bind tighter than `min`, with their right operands -/
  | operators (min : Int) (noIn : Bool)
  | unary
  | atom
  | type
  | plainType
  | typeOperator
  | bindingAtom (binding : Binding)
  /-- the rest of the element whose `<` is the token at `start` -/
  | element (start : Nat)

/-- What parsing a rule answers. For expressions, that is whether they were an arrow function, after
which no operator can follow. -/
@[reducible] def Rule.Result : Rule → Type
  | .statement => StatementKind
  | .assignment _ | .unary | .atom => Bool
  | .operators _ _ | .type | .plainType | .typeOperator | .bindingAtom _ | .element _ => Unit

abbrev Knot := (rule : Rule) → Parser rule.Result

namespace Knot

variable (k : Knot)

def statement : Parser StatementKind := k .statement

def assignment (noIn : Bool := false) : Parser Bool := k (.assignment noIn)

def value (noIn : Bool := false) : Parser Unit := do discard (k.assignment noIn)

def operators (min : Int) (noIn : Bool) : Parser Unit := k (.operators min noIn)

def unary : Parser Bool := k .unary

def atom : Parser Bool := k .atom

def type : Parser Unit := k .type

def plainType : Parser Unit := k .plainType

def typeOperator : Parser Unit := k .typeOperator

def bindingAtom (binding : Binding) : Parser Unit := k (.bindingAtom binding)

def element (start : Nat) : Parser Unit := k (.element start)

def expression (noIn : Bool := false) : Parser Unit := separatedBy .comma (k.value noIn)

end Knot

end Downlevel.Grammar
