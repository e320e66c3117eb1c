import Downlevel.Lowering.Walk
import Downlevel.Proofs.Lowering.Element

/-!
# The walk in order

Every construct, however deep it is nested, leaves the editor ready (`nested_safe`), and so does the
walk through the whole snippet (`snippet_carries`). What the notes come to at the end is recorded in
order (`neat_of_snippet`).
-/

namespace Downlevel.Lowering

variable {c : Scene} {d : Draft} {body : Array Token} {last : Token} {d' : Draft}
  {rendering : Rendering}

theorem sees_of_arrowAfterType? {e : Editor} {arrow : Nat}
    (h : arrowAfterType? c.sheet e.index = some arrow) :
    e.sees c.sheet [.parenR, .colon] = true := by
  simp only [arrowAfterType?, Option.ite_none_right_eq_some, Bool.and_eq_true] at h
  exact h.1.1.1

section Safe

variable [c.Intact]

section Nested

variable {k : Knot} [hk : k.Safe c]

theorem valueToken_carries (h : d.editor.Ready c.sheet)
    (htype : (d.editor.current c.sheet).isType = false) :
    Carries c d (valueToken k (d.editor.current c.sheet)) := by
  have hcopy : Carries c d copy := copy_carries h fun _ => htype
  have hnamed : ∀ {kind : Kind}, (d.editor.current c.sheet).kind = kind →
      (kind ≠ .backQuote ∧ kind ≠ .dollarBraceL) ∧ kind ≠ .template →
      d.editor.Calm c.sheet ∧ d.editor.Wide c.sheet :=
    fun hkind hk => ⟨h.calm_of_kind hkind hk.1, Editor.wide_of_kind hkind hk.2⟩
  refine .look c rfl (.look d.editor.index rfl ?_)
  split
  · rename_i hkind
    split
    · exact Obeys.carries (hnamed hkind (by decide)).1
    · exact hcopy
  iterate 2
    · rename_i hkind
      obtain ⟨hcalm, hwide⟩ := hnamed hkind (by decide)
      split
      · exact moduleStatement_carries hcalm hwide _
      · exact hcopy
  iterate 2
    · rename_i hkind
      obtain ⟨hcalm, hwide⟩ := hnamed hkind (by decide)
      split
      · exact Obeys.carries hcalm
      · split
        · exact (name_settles hcalm hwide).carries
        · exact hcopy
  · rename_i hkind
    obtain ⟨hcalm, hwide⟩ := hnamed hkind (by decide)
    exact (name_settles hcalm hwide).carries
  · exact hcopy

theorem token_carries (h : d.editor.Ready c.sheet) : Carries c d (token k) := by
  refine .look (d.editor.current c.sheet) rfl ?_
  split
  · rename_i htype
    exact Obeys.carries (h.calmer fun hcloses => by simp [hcloses.2] at htype)
  · rename_i htype
    refine .look c.sheet rfl (.look d.editor.index rfl ?_)
    split
    · rename_i arrow harrow
      have hsees := sees_of_arrowAfterType? harrow
      exact Obeys.carries (h.calm_of_kind (Editor.kind_of_sees hsees) (by decide))
    · exact valueToken_carries h (by simpa using htype)

end Nested

instance nested_safe (n : Nat) : (nested n).Safe c := by
  induction n with
  | zero => exact ⟨fun _ => .throw _, fun _ => .throw _⟩
  | succ n ih =>
    have helement : Obeys c (.calm c) (element (nested n)) := inferInstance
    exact ⟨token_carries, helement.writes⟩

theorem snippet_carries (h : d.editor.Ready c.sheet) : Carries c d snippet := by
  unfold snippet
  exact Obeys.writes h

end Safe

section

variable (hwhole : c.sheet.Whole body last)
variable (h : d.editor = {}) (hrun : snippet c d = .ok ((), d'))
  (hfinish : d'.editor.finish c.sheet = .ok rendering)
include hwhole h hrun hfinish

theorem calm_of_snippet : d'.editor.Calm c.sheet ∧
      ∃ rest, rendering = Edit.renderAll c.sheet d'.editor.log.toList ++ .plain rest := by
  have : c.Intact := ⟨body, last, hwhole⟩
  have hready := (snippet_carries (h ▸ Editor.calm_empty.ready) () d' hrun).2
  unfold Editor.finish at hfinish
  split at hfinish
  · rename_i hend
    cases hfinish
    exact ⟨hready.calm_of_kind (beq_iff_eq.mp hend) (by decide), _, rfl⟩
  · cases hfinish

/-- What a snippet is lowered to is recorded in order. -/
theorem neat_of_snippet : rendering.Neat c.sheet.text none := by
  obtain ⟨hcalm, rest, rfl⟩ := calm_of_snippet hwhole h hrun hfinish
  exact hcalm.neat.append_of_none (Rendering.neat_plain _ none)

/-- What a snippet is lowered to comes from it in its own order. -/
theorem climbs_of_snippet : rendering.places.toList.Pairwise fun p q => p.2 ≤ q.2 := by
  obtain ⟨hcalm, rest, rfl⟩ := calm_of_snippet hwhole h hrun hfinish
  rw [Rendering.places_append]
  simpa [Rendering.plain, Rendering.shifted] using hwhole.renderAll_climbs hcalm.ascending

end

end Downlevel.Lowering
