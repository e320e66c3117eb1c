import Downlevel.Proofs.Lowering.Writes
import Downlevel.Proofs.Token.Phrase

/-!
# Steps that get through

A step of lowering gets through when it neither breaks off nor runs out of fuel. Where it leads to
hangs on nothing in a draft but the token that the editor stands on, so that a step is followed from
one index to another (`Lands`, `Passes`). A loop gets through when each round passes a token
(`whileHolds_lands`).
-/

namespace Downlevel

open Token (At)

variable {e : Editor}

/-! ## Kinds on a sheet -/

namespace Sheet

variable {s : Sheet} {i : Nat} {k : Kind}

@[simp] theorem hasKinds_nil : s.hasKinds i [] = true := rfl

theorem hasKinds_cons_iff {ks : List Kind} :
    s.hasKinds i (k :: ks) = true ↔ At s.tokens i k ∧ s.hasKinds (i + 1) ks = true := by
  simp [hasKinds, At, Option.any_eq_true]

theorem hasKinds_one_iff : s.hasKinds i [k] = true ↔ At s.tokens i k := by
  simp [hasKinds_cons_iff]

theorem hasKinds_two_iff {k' : Kind} :
    s.hasKinds i [k, k'] = true ↔ At s.tokens i k ∧ At s.tokens (i + 1) k' := by
  simp [hasKinds_cons_iff]

theorem kindAt_of_at (h : At s.tokens i k) : s.kindAt i = k := by
  obtain ⟨t, ht, rfl⟩ := h
  simp [kindAt, ht]

/-- Only the end of the input is not among the tokens of the body. -/
theorem Whole.lt_of_at {body : Array Token} {last : Token} (hwhole : s.Whole body last)
    (h : At s.tokens i k) (hk : k ≠ .eof) : i < body.size := by
  obtain ⟨t, ht, rfl⟩ := h
  rw [hwhole.tokens] at ht
  rcases Tiled.getElem?_push_cases ht with ⟨-, hlt⟩ | ⟨-, rfl⟩
  · exact hlt
  · exact absurd hwhole.ended hk

end Sheet

namespace Lowering

variable {α β : Type} {c : Scene} {i j : Nat}

/-! ## Promises -/

/-- From the token at `i` on, the step `p` gets through. The promise `Q` holds of its answer and of
the index it leads to, and there are no fewer notes than before. -/
def Lands (c : Scene) (i : Nat) (p : Lowering α) (Q : α → Nat → Prop) : Prop :=
  ∀ d : Draft, d.editor.index = i → ∃ a d', p c d = .ok (a, d') ∧
    d.editor.log.size ≤ d'.editor.log.size ∧ Q a d'.editor.index

/-- The step `p` gets through from the token at `i` to the one at `j`. -/
abbrev Passes (c : Scene) (i : Nat) (p : Lowering α) (j : Nat) : Prop :=
  Lands c i p fun _ index => index = j

theorem run_bind {p : Lowering α} {g : α → Lowering β} {a : α} {d d' : Draft}
    (hp : p c d = .ok (a, d')) : (p >>= g) c d = g a c d' := by
  show (p c d >>= fun q => g q.1 c q.2) = _
  rw [hp]
  rfl

namespace Lands

variable {p : Lowering α} {g : α → Lowering β} {Q : β → Nat → Prop} {R : α → Nat → Prop}

theorem bind (hp : Lands c i p R) (hg : ∀ a j, R a j → Lands c j (g a) Q) :
    Lands c i (p >>= g) Q := by
  intro d hd
  obtain ⟨a, d', hrun, hlog, hR⟩ := hp d hd
  obtain ⟨b, d'', hrun', hlog', hQ⟩ := hg a _ hR d' rfl
  exact ⟨b, d'', (run_bind hrun).trans hrun', Nat.le_trans hlog hlog', hQ⟩

theorem pure {a : α} (h : R a i) : Lands c i (Pure.pure a : Lowering α) R :=
  fun d hd => ⟨a, d, rfl, Nat.le_refl _, hd ▸ h⟩

theorem mono {R' : α → Nat → Prop} (hp : Lands c i p R) (h : ∀ a j, R a j → R' a j) :
    Lands c i p R' := by
  intro d hd
  obtain ⟨a, d', hrun, hlog, hR⟩ := hp d hd
  exact ⟨a, d', hrun, hlog, h a _ hR⟩

theorem look (a : α) (hp : ∀ d : Draft, d.editor.index = i → p c d = .ok (a, d))
    (hg : Lands c i (g a) Q) : Lands c i (p >>= g) Q :=
  bind (R := fun b j => b = a ∧ j = i) (fun d hd => ⟨a, d, hp d hd, Nat.le_refl _, rfl, hd⟩)
    fun b j h => by rw [h.1, h.2]; exact hg

theorem read {g : Scene → Lowering β} (hg : Lands c i (g c) Q) :
    Lands c i (MonadReader.read >>= g) Q := look c (fun _ _ => rfl) hg

theorem get {g : Draft → Lowering β} (hg : ∀ d, Lands c i (g d) Q) :
    Lands c i (MonadState.get >>= g) Q := by
  refine bind (R := fun _ j => j = i) (fun d hd => ⟨d, d, rfl, Nat.le_refl _, hd⟩) ?_
  rintro d j rfl
  exact hg d

theorem sheet {g : Sheet → Lowering β} (hg : Lands c i (g c.sheet) Q) :
    Lands c i (Lowering.sheet >>= g) Q := look c.sheet (fun _ _ => rfl) hg

theorem position {g : Nat → Lowering β} (hg : Lands c i (g i) Q) :
    Lands c i (Lowering.position >>= g) Q := look i (by rintro d rfl; rfl) hg

theorem budget {g : Nat → Lowering β} (hg : Lands c i (g (c.sheet.tokens.size + 1)) Q) :
    Lands c i (Lowering.budget >>= g) Q := look _ (fun _ _ => rfl) hg

theorem seeing {ks : List Kind} {g : Bool → Lowering β}
    (hg : Lands c i (g (c.sheet.hasKinds i ks)) Q) : Lands c i (Lowering.seeing ks >>= g) Q :=
  look _ (by rintro d rfl; rfl) hg

theorem currentText {g : String → Lowering β} (hg : ∀ text, Lands c i (g text) Q) :
    Lands c i (Lowering.currentText >>= g) Q :=
  look (c.sheet.textAt i) (by rintro d rfl; rfl) (hg _)

theorem current {t : Token} (ht : c.sheet.tokens[i]? = some t) {g : Token → Lowering β}
    (hg : Lands c i (g t) Q) : Lands c i (Lowering.current >>= g) Q := by
  refine look t ?_ hg
  rintro d rfl
  show Except.ok (d.editor.current c.sheet, d) = _
  rw [Editor.current_of ht]

theorem optional {b : Prop} [Decidable b] {p : Lowering Unit} {g : Unit → Lowering β}
    (hp : Passes c i p i) (hg : Lands c i (g ()) Q) :
    Lands c i (if b then p >>= g else g ()) Q := by
  split
  · exact hp.bind fun _ _ h => h ▸ hg
  · exact hg

end Lands

theorem Passes.bind {p : Lowering α} {g : α → Lowering β} {Q : β → Nat → Prop}
    (hp : Passes c i p j) (hg : ∀ a, Lands c j (g a) Q) : Lands c i (p >>= g) Q :=
  Lands.bind hp fun a _ h => h ▸ hg a

/-! ## Editing -/

theorem edit_passes {f : Sheet → Editor → Editor} {j : Nat}
    (h : ∀ e : Editor, e.index = i →
      (f c.sheet e).index = j ∧ e.log.size ≤ (f c.sheet e).log.size) :
    Passes c i (edit f) j := by
  intro d hd
  exact ⟨(), _, rfl, (h d.editor hd).2, (h d.editor hd).1⟩

theorem append_passes (code : String) : Passes c i (append code) i := by
  refine edit_passes fun e he => ?_
  unfold Editor.append
  split
  · exact ⟨he, Nat.le_refl _⟩
  · exact ⟨he, by simp⟩

theorem prepend_passes (code : String) : Passes c i (prepend code) i :=
  edit_passes fun _ he => ⟨he, Nat.le_refl _⟩

theorem prependMapped_passes (code : String) : Passes c i (prependMapped code) i := by
  refine edit_passes fun e he => ?_
  unfold Editor.prependMapped
  split
  · exact ⟨he, Nat.le_refl _⟩
  · exact ⟨he, Nat.le_refl _⟩

theorem trimNextGap_passes : Passes c i trimNextGap i :=
  edit_passes fun _ he => ⟨he, Nat.le_refl _⟩

theorem modify_passes {f : Draft → Draft} (hf : ∀ d, (f d).editor = d.editor) :
    Passes c i (modify f) i := by
  intro d hd
  refine ⟨(), f d, rfl, ?_⟩
  rw [hf]
  exact ⟨Nat.le_refl _, hd⟩

section Tokens

variable {body : Array Token} {last : Token} (hwhole : c.sheet.Whole body last)
include hwhole

section

variable (hi : i < body.size)
include hi

theorem edit_index (action : Action) (trim : Bool) (he : e.index = i) :
    (e.edit c.sheet action trim).index = i + 1 ∧
      e.log.size ≤ (e.edit c.sheet action trim).log.size := by
  subst he
  rw [Editor.edit_of_lt hwhole hi]
  exact ⟨rfl, by simp⟩

theorem copy_passes : Passes c i copy (i + 1) :=
  edit_passes fun _ => edit_index hwhole hi .copy false

theorem replace_passes (code : String) : Passes c i (replace code) (i + 1) :=
  edit_passes fun _ => edit_index hwhole hi (.replace code) false

theorem remove_passes : Passes c i remove (i + 1) :=
  edit_passes fun _ => edit_index hwhole hi .remove true

theorem blank_passes : Passes c i blank (i + 1) :=
  edit_passes fun _ => edit_index hwhole hi (.replace "") false

theorem name_passes : Passes c i name (i + 1) := by
  refine .read (.position ?_)
  split
  · exact replace_passes hwhole hi _
  · exact copy_passes hwhole hi

end

theorem copyExpected_passes {k : Kind} (h : At c.sheet.tokens i k) (hk : k ≠ .eof) :
    Passes c i (copyExpected k) (i + 1) := by
  have hi := hwhole.lt_of_at h hk
  obtain ⟨t, ht, rfl⟩ := h
  refine .current ht ?_
  rw [if_pos (beq_self_eq_true _)]
  exact copy_passes hwhole hi

theorem removeExpected_passes {k : Kind} (h : At c.sheet.tokens i k) (hk : k ≠ .eof) :
    Passes c i (removeExpected k) (i + 1) := by
  refine .seeing ?_
  rw [if_pos (Sheet.hasKinds_one_iff.mpr h)]
  exact remove_passes hwhole (hwhole.lt_of_at h hk)

theorem atEnd_eq (he : e.index ≤ body.size) :
    e.atEnd c.sheet = (e.index == body.size) :=
  hwhole.atEnd_copied he

theorem atEnd_of_lt (he : e.index < body.size) : e.atEnd c.sheet = false := by
  rw [atEnd_eq hwhole (Nat.le_of_lt he), beq_eq_false_iff_ne.mpr (Nat.ne_of_lt he)]

theorem Lands.atEnd {g : Bool → Lowering β} {Q : β → Nat → Prop} (hi : i < body.size)
    (hg : Lands c i (g false) Q) : Lands c i (Lowering.atEnd >>= g) Q := by
  refine .look false ?_ hg
  rintro d rfl
  show Except.ok (d.editor.atEnd c.sheet, d) = _
  rw [atEnd_of_lt hwhole hi]

end Tokens

/-! ## Loops -/

section Loops

variable {I : Nat → Prop} {b : Nat → Bool} {condition : Lowering Bool} {body : Lowering Unit}
  {top : Nat}

/-- A loop gets through when its body passes a token each time and stays below `top`. -/
theorem whileBounded_lands {n : Nat}
    (hlook : ∀ d : Draft, I d.editor.index → condition c d = .ok (b d.editor.index, d))
    (hbody : ∀ i, I i → b i = true → Lands c i body fun _ j => i < j ∧ I j)
    (htop : ∀ i, I i → i ≤ top) (hi : I i) (hn : top - i < n) :
    Lands c i (whileBounded condition body n) fun _ j => I j ∧ b j = false := by
  induction n generalizing i with
  | zero => omega
  | succ n ih =>
    refine .look (b i) (by rintro d rfl; exact hlook d hi) ?_
    cases hb : b i with
    | false => exact .pure ⟨hi, hb⟩
    | true =>
      refine (hbody i hi hb).bind fun _ j h => ih h.2 ?_
      have := htop j h.2
      omega

theorem whileHolds_lands
    (hlook : ∀ d : Draft, I d.editor.index → condition c d = .ok (b d.editor.index, d))
    (hbody : ∀ i, I i → b i = true → Lands c i body fun _ j => i < j ∧ I j)
    (htop : ∀ i, I i → i ≤ c.sheet.tokens.size) (hi : I i) :
    Lands c i (whileHolds condition body) fun _ j => I j ∧ b j = false :=
  .budget (whileBounded_lands hlook hbody htop hi (by omega))

/-- A loop that passes one token each time goes on up to its bound. -/
theorem whileBelow_passes {stop : Nat} (hbody : ∀ i < stop, Passes c i body (i + 1))
    (hi : i ≤ stop) (hstop : stop ≤ c.sheet.tokens.size) :
    Passes c i (whileHolds (return (← position) < stop) body) stop := by
  refine (whileHolds_lands (I := (· ≤ stop)) (b := fun i => decide (i < stop)) (fun _ _ => rfl)
    (fun i _ hlt => ?_) (fun i h => Nat.le_trans h hstop) hi).mono fun _ j h => ?_
  · exact (hbody i (of_decide_eq_true hlt)).mono fun _ j h =>
      ⟨by omega, by have := of_decide_eq_true hlt; omega⟩
  · have := of_decide_eq_false h.2
    omega

end Loops

end Lowering

end Downlevel
