import Downlevel.Lowering.Basic

/-! # Tags

The attributes of a tag, as they are seen before they are lowered. -/

namespace Downlevel.Lowering

inductive AttributeKind where
  | spread
  | key
  | named
deriving DecidableEq, Repr

/-- The index of the brace that closes the one at the start of some tokens, the first of which has
the index `index`, when `depth` braces are open before it. -/
def closingBrace? (depth index : Nat) : List Token → Option Nat
  | [] => none
  | t :: rest =>
    match t.kind with
    | .braceL | .dollarBraceL | .braceBarL => closingBrace? (depth + 1) (index + 1) rest
    | .braceR | .braceBarR =>
      if depth ≤ 1 then some index else closingBrace? (depth - 1) (index + 1) rest
    | _ => closingBrace? depth (index + 1) rest

/-- The index after the element at the start of some tokens, the first of which has the index
`index`, when `depth` elements are open before it; `closing` says that a closing tag is open. -/
def elementEnd? (depth index : Nat) (closing : Bool) : List Token → Option Nat
  | [] => none
  | t :: rest =>
    if closing then
      if t.kind != .jsxTagEnd then elementEnd? depth (index + 1) true rest
      else if depth ≤ 1 then some (index + 1)
      else elementEnd? (depth - 1) (index + 1) false rest
    else
      let next := rest.head?.map (·.kind)
      if t.kind == .jsxTagStart then
        if next == some .slash then elementEnd? depth (index + 1) true rest
        else elementEnd? (depth + 1) (index + 1) false rest
      else if t.kind == .slash && next == some .jsxTagEnd then
        if depth ≤ 1 then some (index + 2) else elementEnd? (depth - 1) (index + 1) false rest
      else elementEnd? depth (index + 1) false rest

def afterBraces (index : Nat) : Lowering Nat := do
  match closingBrace? 0 index ((← sheet).tokens.toList.drop index) with
  | some close => return close + 1
  | none => broken .unbalancedBraces

def afterElement (index : Nat) : Lowering Nat := do
  match elementEnd? 0 index false ((← sheet).tokens.toList.drop index) with
  | some stop => return stop
  | none => broken .unterminatedElement

def brokenAt (index : Nat) (invariant : Invariant) : Lowering α := do
  throw (.error (.broken invariant ((((← sheet).token? index).map (·.span.start)).getD 0)))

def afterValue (index : Nat) : Lowering Nat := do
  match (← sheet).kindAt index with
  | .string => return index + 1
  | .braceL => afterBraces index
  | .jsxTagStart => afterElement index
  | _ => brokenAt index .expectedAttributeValue

def namedAttributeAt (index : Nat) : Lowering (AttributeKind × Nat) := do
  let s ← sheet
  let isKey := s.textAt index == "key" && s.kindAt (index + 1) != .colon
  let afterName := if s.kindAt (index + 1) == .colon then index + 3 else index + 1
  let stop ← if s.kindAt afterName == .eq then afterValue (afterName + 1) else pure afterName
  return (if isKey then .key else .named, stop)

def attributesFrom (index : Nat) : Nat → Lowering (List AttributeKind)
  | 0 => throw (.fault .outOfFuel)
  | n + 1 => do
    match (← sheet).kindAt index with
    | .slash | .jsxTagEnd => return []
    | .braceL =>
      let next ← afterBraces index
      return .spread :: (← attributesFrom next n)
    | .jsxName =>
      let (kind, next) ← namedAttributeAt index
      return kind :: (← attributesFrom next n)
    | _ => brokenAt index .unexpectedInTag

def tagAttributes : Lowering (List AttributeKind) := do
  attributesFrom (← position) (← budget)

/-- The index after the name of a tag, of which the first part is before `index`. -/
def afterTagName (s : Sheet) (index : Nat) : Nat → Nat
  | 0 => index
  | n + 1 =>
    if s.hasKinds index [.dot, .jsxName] || s.hasKinds index [.colon, .jsxName] then
      afterTagName s (index + 2) n
    else index

end Downlevel.Lowering
