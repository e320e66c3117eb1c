import Downlevel.Edit.Sheet

/-! # Returning the last expression

A snippet runs as the body of a function, so that its last expression is seen only when it is
returned. -/

namespace Downlevel

/-- Where an expression is put into a `return`. -/
structure WrapPlan where
  start : Nat
  expressionEnd : Nat
  /-- whether no `;` ends the statement before -/
  needsSeparator : Bool
  hasSemicolon : Bool
deriving DecidableEq, Repr

namespace WrapPlan

def separator (p : WrapPlan) : String := if p.needsSeparator then ";\n" else ""

def opening : String := "return ("

def suffix (p : WrapPlan) : String := if p.hasSemicolon then ")" else ");"

def assignsExports (s : Sheet) (statement : Statement) : Bool :=
  s.kindAt statement.start == .name && s.textAt statement.start == "exports" &&
    (s.hasKinds (statement.start + 1) [.dot] || s.hasKinds (statement.start + 1) [.bracketL])

/-- The last expression statement after which nothing but declarations follows, if the snippet
gives no result of its own. -/
def candidate? (s : Sheet) (last : Option Statement) : List Statement → Option Statement
  | [] => last
  | c :: rest =>
    match c.kind with
    | .returnStatement | .exportDefault => none
    | .expression => if assignsExports s c then none else candidate? s (some c) rest
    | .other => candidate? s none rest
    | .declaration | .typeOnly | .importStatement | .exportStatement | .empty =>
      candidate? s last rest

def ofStatements? (s : Sheet) (statements : List Statement) : Option WrapPlan :=
  (candidate? s none statements).map fun c =>
    { start := c.start
      expressionEnd := c.expressionEnd
      needsSeparator := c.start == 0 || !s.hasKinds (c.start - 1) [.semi]
      hasSemicolon := c.expressionEnd < c.stop }

end WrapPlan

end Downlevel
