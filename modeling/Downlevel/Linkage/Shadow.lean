import Downlevel.Edit.Sheet

/-! # Shadowed names

A name that an inner scope declares stands there for the inner declaration, and not for what the
snippet imports under it. -/

namespace Downlevel.Shadow

/-- The smallest scope around a token; with `functionOnly`, of those that belong to functions. -/
def innermost? (scopes : List Scope) (index : Nat) (functionOnly : Bool) : Option Scope :=
  (scopes.filter fun c =>
    c.start ≤ index && index < c.stop && (!functionOnly || c.isFunction)).foldl
    (fun best c =>
      match best with
      | some b => if c.stop - c.start < b.stop - b.start then some c else some b
      | none => some c) none

def declaresInside (t : Token) : Bool :=
  !t.isType && t.kind == .name &&
    t.role.any fun r => r.declaresAt .function || r.declaresAt .block

def regions (s : Sheet) (scopes : List Scope) (globals : List String) : List (String × Scope) :=
  s.tokens.toList.zipIdx.filterMap fun (t, index) =>
    if declaresInside t then
      let name := String.ofList (t.text s.text)
      if globals.contains name then
        (innermost? scopes index (t.role.any (·.declaresAt .function))).map fun c => (name, c)
      else none
    else none

/-- Marks all tokens of a name in the scopes that declare it again. -/
def mark (s : Sheet) (scopes : List Scope) (globals : List String) : Array Token :=
  let found := regions s scopes globals
  if found.isEmpty then s.tokens
  else
    s.tokens.mapIdx fun index t =>
      if (t.kind == .name || t.kind == .jsxName) &&
          (let name := String.ofList (t.text s.text)
          found.any fun (n, c) => c.start ≤ index && index < c.stop && n == name) then
        { t with shadowed := true }
      else t

end Downlevel.Shadow
