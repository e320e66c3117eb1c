import Mathlib.Algebra.GroupWithZero.Nat
import Mathlib.Tactic.Common
import Downlevel.Lowering.Element
import Downlevel.Proofs.Markup.Layout

/-!
# Children that are written

Lowering writes a child for each element, for text that is left after it is cleaned, and for braces
that hold something. `writtenBounded` lowers children as `childrenBounded` does and also answers
what it wrote (`childrenBounded_eq`). The parser counts children without cleaning their text, but
text that is not there for the layout alone cannot be cleaned away (`clean_ne_nil`).
-/

namespace Downlevel

namespace Lowering

/-! ## What is written -/

/-- What a child is written as: one value, or all that an object holds. -/
inductive Written where
  | child
  | spread
deriving DecidableEq, Repr

/-- The shape of an element for which so much is written. -/
def Written.shape : List Written → ElementShape
  | [] => .noChildren
  | [.child] => .oneChild
  | _ => .staticChildren

/-- Lowers children up to the closing tag, at most `n` of them, and answers what is written. -/
def writtenBounded (k : Knot) (comma : Bool) : Nat → Lowering (List Written)
  | 0 => throw (.fault .outOfFuel)
  | n + 1 => do
    let separator := if comma then ", " else ""
    match (← current).kind with
    | .jsxTagStart =>
      if ← seeing [.jsxTagStart, .slash] then return []
      append separator
      k.element
      return .child :: (← writtenBounded k true n)
    | .jsxText =>
      let text := (← currentText).toList
      let cleaned := Markup.clean text
      if cleaned.isEmpty then
        remove
        writtenBounded k comma n
      else
        replace (separator ++ Json.quote (String.ofList cleaned) ++
          String.ofList (Text.lineFeeds text))
        return .child :: (← writtenBounded k true n)
    | .jsxEmptyText =>
      remove
      writtenBounded k comma n
    | .braceL =>
      if ← seeing [.braceL, .braceR] then
        remove
        remove
        writtenBounded k comma n
      else
        let written := if ← seeing [.braceL, .ellipsis] then .spread else .child
        replace separator
        balanced k
        removeExpected .braceR
        return written :: (← writtenBounded k true n)
    | _ => broken .unexpectedChild

/-- Lowers children up to the closing tag, and answers what is written. -/
def written (k : Knot) (comma : Bool) : Lowering (List Written) := do
  writtenBounded k comma (← budget)

theorem seeing_bind_const {α : Type} (kinds : List Kind) (m : Lowering α) :
    (do let _ ← seeing kinds; m) = m := by
  funext c d
  rfl

/-- Children are lowered as they are when what is written is told. -/
theorem childrenBounded_eq (k : Knot) (comma : Bool) (n : Nat) :
    childrenBounded k comma n = (do let _ ← writtenBounded k comma n) := by
  induction n generalizing comma with
  | zero => rfl
  | succ n ih =>
    unfold childrenBounded writtenBounded
    dsimp only
    rw [bind_assoc]
    refine bind_congr fun t => ?_
    -- Both sides match on the kind, so it is named before they are reduced.
    generalize t.kind = kind
    obtain rfl | hstart := eq_or_ne kind .jsxTagStart
    · dsimp only
      rw [bind_assoc]
      refine bind_congr fun closing => ?_
      split
      · rfl
      · simp only [bind_assoc, pure_bind, ih]
    obtain rfl | htext := eq_or_ne kind .jsxText
    · dsimp only
      rw [bind_assoc]
      refine bind_congr fun text => ?_
      split
      · simp only [bind_assoc, ih]
      · simp only [bind_assoc, pure_bind, ih]
    obtain rfl | hempty := eq_or_ne kind .jsxEmptyText
    · simp only [bind_assoc, ih]
    obtain rfl | hbrace := eq_or_ne kind .braceL
    · dsimp only
      rw [bind_assoc]
      refine bind_congr fun hollow => ?_
      split
      · simp only [bind_assoc, ih]
      · simp only [bind_assoc, pure_bind, ih]
        rw [seeing_bind_const]
    repeat' split
    all_goals first | contradiction | rfl

theorem children_eq (k : Knot) (comma : Bool) :
    children k comma = (do let _ ← written k comma) := by
  unfold children written
  rw [bind_assoc]
  exact bind_congr fun n => childrenBounded_eq k comma n

/-! ## What the shape says -/

/-- For how many children one counts that is written so. -/
def Written.weight : Written → Nat
  | child => 1
  | spread => 2

/-- The automatic runtime has an entry for children when there are any, and an array unless there is
just one. -/
theorem automaticElement_shape (k : Knot) (ws : List Written) :
    automaticElement k (Written.shape ws) =
      automaticCall k (!ws.isEmpty) (ws != [] && ws != [.child]) := by
  match ws with
  | [] => rfl
  | [.child] => rfl
  | [.spread] => rfl
  | .child :: _ :: _ => rfl
  | .spread :: _ :: _ => rfl

/-- The shape that goes with a number of children is that of what is written, if the numbers are the
same. -/
theorem Written.shape_eq (ws : List Written) :
    Written.shape ws = Grammar.elementShape false (ws.map weight).sum := by
  match ws with
  | [] => rfl
  | [.child] => rfl
  | [.spread] => rfl
  | w :: w' :: ws =>
    have hw : 1 ≤ w.weight := by cases w <;> decide
    have hw' : 1 ≤ w'.weight := by cases w' <;> decide
    have hshape : Written.shape (w :: w' :: ws) = .staticChildren := by cases w <;> rfl
    rw [hshape, List.map_cons, List.map_cons, List.sum_cons, List.sum_cons, Grammar.elementShape,
      if_neg Bool.false_ne_true, if_neg, if_neg]
    · simp
      omega
    · simp
      omega

end Lowering

end Downlevel
