import Downlevel.Lowering.Erasure
import Downlevel.Proofs.Lowering.Lands
import Downlevel.Proofs.Token.Trail

/-!
# Types are erased up to their end

A run of tokens that belong to types goes as a whole (`eraseTypes_passes`). When it is the type that
a function returns, the parenthesis before it and the arrow after it go with it
(`eraseReturnType_passes`).
-/

namespace Downlevel.Lowering

open Token (At Sided)

variable {s : Sheet} {c : Scene} {body : Array Token} {last : Token} {i j : Nat}

theorem afterTypes_step {t : Token} (ht : s.tokens[i]? = some t) (htype : t.isType = true) :
    afterTypes s i = afterTypes s (i + 1) := by
  obtain ⟨hlt, rfl⟩ := Array.getElem?_eq_some_iff.mp ht
  unfold afterTypes
  rw [List.drop_eq_getElem_cons (by simpa using hlt), Array.getElem_toList,
    List.takeWhile_cons_of_pos htype, List.length_cons, Nat.add_right_comm, Nat.add_assoc]

theorem afterTypes_stop (h : ¬ Sided s.tokens true i) : afterTypes s i = i := by
  unfold afterTypes
  cases hdrop : s.tokens.toList.drop i with
  | nil => rfl
  | cons t rest =>
    have ht : s.tokens[i]? = some t := by
      have hhead := congrArg List.head? hdrop
      simpa [List.head?_drop] using hhead
    rw [List.takeWhile_cons_of_neg fun htype => h ⟨t, ht, htype⟩]
    rfl

/-- What is found is the end of the run, if there is one. -/
theorem afterTypes_run (s : Sheet) (i : Nat) :
    (afterTypes s i = i ∧ ¬ Sided s.tokens true i) ∨ TypeRun s.tokens i (afterTypes s i) := by
  by_cases htype : Sided s.tokens true i
  · right
    induction hn : s.tokens.size - i generalizing i with
    | zero =>
      have := htype.lt_size
      omega
    | succ n ih =>
      obtain ⟨t, ht, hb⟩ := htype
      rw [afterTypes_step ht hb]
      have hfirst : ∀ {j}, (∀ y, i + 1 ≤ y → y < j → Sided s.tokens true y) →
          ∀ y, i ≤ y → y < j → Sided s.tokens true y := by
        intro j hrest y hy hyj
        rcases Nat.eq_or_lt_of_le hy with rfl | hlt
        · exact ⟨t, ht, hb⟩
        · exact hrest y hlt hyj
      by_cases hnext : Sided s.tokens true (i + 1)
      · have hrun := ih (i + 1) hnext (by omega)
        exact ⟨Nat.lt_of_succ_lt hrun.lt, hfirst hrun.types, hrun.stop⟩
      · rw [afterTypes_stop hnext]
        exact ⟨Nat.lt_succ_self i, hfirst (by omega), hnext⟩
  · exact .inl ⟨afterTypes_stop htype, htype⟩

/-- Between the parenthesis and the arrow stands a type, and it begins with a colon. -/
theorem arrowAfterType?_eq_some {arrow : Nat} (h : arrowAfterType? s i = some arrow) :
    At s.tokens i .parenR ∧ At s.tokens (i + 1) .colon ∧ TypeRun s.tokens (i + 1) arrow ∧
      At s.tokens arrow .arrow := by
  unfold arrowAfterType? at h
  dsimp only at h
  split at h
  · rename_i hsees
    simp only [Bool.and_eq_true, bne_iff_ne, Sheet.hasKinds_two_iff,
      Sheet.hasKinds_one_iff] at hsees
    obtain rfl := Option.some.inj h
    rcases afterTypes_run s (i + 1) with ⟨heq, -⟩ | hrun
    · exact absurd heq hsees.1.2
    · exact ⟨hsees.1.1.1, hsees.1.1.2, hrun, hsees.2⟩
  · cases h

theorem arrowAfterType?_of_untyped (h : ∀ t ∈ s.tokens, t.isType = false) (i : Nat) :
    arrowAfterType? s i = none := by
  refine Option.eq_none_iff_forall_ne_some.mpr fun arrow harrow => ?_
  obtain ⟨-, -, hrun, -⟩ := arrowAfterType?_eq_some harrow
  obtain ⟨t, ht, htype⟩ := hrun.types (i + 1) (Nat.le_refl _) hrun.lt
  rw [h t (Array.mem_of_getElem? ht)] at htype
  cases htype

section

variable (hwhole : c.sheet.Whole body last)
include hwhole

/-- A run of types is passed as a whole. -/
theorem eraseTypes_passes (h : TypeRun c.sheet.tokens i j) (hj : j ≤ body.size) :
    Passes c i eraseTypes j := by
  have hlt := h.lt
  have hsize := hwhole.size_tokens
  refine (blank_passes hwhole (by omega)).bind fun _ => ?_
  refine (whileHolds_lands (I := fun x => i < x ∧ x ≤ j) (b := fun x => decide (x < j))
    (fun d hd => ?_) (fun x hx hb => ?_) (fun x hx => by omega) ⟨Nat.lt_succ_self i, hlt⟩).mono
    fun _ x hx => ?_
  · show Except.ok ((d.editor.current c.sheet).isType && !d.editor.atEnd c.sheet, d) = _
    rw [atEnd_eq hwhole (Nat.le_trans hd.2 hj)]
    rcases Nat.eq_or_lt_of_le hd.2 with heq | hlt'
    · obtain ⟨t, ht⟩ : ∃ t, c.sheet.tokens[d.editor.index]? = some t :=
        ⟨_, Array.getElem?_eq_getElem (by omega)⟩
      have htype : t.isType = false := by
        by_contra htype
        exact h.stop ⟨t, heq ▸ ht, by simpa using htype⟩
      simp [Editor.current_of ht, htype, heq]
    · obtain ⟨t, ht, htype⟩ := h.types d.editor.index (Nat.le_of_lt hd.1) hlt'
      have hne : d.editor.index ≠ body.size := by omega
      simp [Editor.current_of ht, htype, hlt', hne]
  · have hlt' := of_decide_eq_true hb
    exact (remove_passes hwhole (by omega)).mono fun _ y hy => by omega
  · have := of_decide_eq_false hx.2
    omega

/-- The type that a function returns goes with what stands around it. -/
theorem eraseReturnType_passes (h : arrowAfterType? c.sheet i = some j) :
    Passes c i (eraseReturnType j) (j + 1) := by
  obtain ⟨hparen, -, hrun, harrow⟩ := arrowAfterType?_eq_some h
  have hj := hwhole.lt_of_at harrow (by decide)
  have hlt := hrun.lt
  have hsize := hwhole.size_tokens
  refine (blank_passes hwhole (by omega)).bind fun _ => ?_
  refine Passes.bind (whileBelow_passes (fun x hx => remove_passes hwhole (by omega))
    (Nat.le_of_lt hlt) (by omega)) fun _ => ?_
  exact edit_passes fun _ => edit_index hwhole hj (.replace ") =>") true

end

end Downlevel.Lowering
