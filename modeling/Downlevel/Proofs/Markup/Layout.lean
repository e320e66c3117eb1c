import Downlevel.Proofs.Cursor.Advance
import Downlevel.Proofs.Markup.Text

/-!
# Text that only lays out the source

Text between tags is dropped where it is read, if it is all blanks with a line end among them
(`isLayout`), and where it is lowered, if nothing is left after it is cleaned. What is cleaned away
is layout (`isLayout_of_clean`), but not the other way round: cleaning knows fewer blanks than the
reader and cuts at line feeds alone (`clean_eq_nil_iff`). So some text is dropped of which something
would be left (`child_dropped_iff`), such as a no-break space after a line feed
(`blank_child_lost`).
-/

namespace Downlevel

namespace Markup

variable {initial seen : Bool} {blanks text : List Char}

/-- Some of a text stays that has more in it than the blanks at its cuts. -/
theorem cleanFrom_ne_nil {c : Char} (hc : c ∈ text) (hblank : isLineBlank c = false)
    (hline : c ≠ '\n') : cleanFrom initial seen blanks 0 text ≠ [] := by
  induction text generalizing initial seen blanks with
  | nil => cases hc
  | cons d cs ih =>
    by_cases hd : isLineBlank d = false ∧ d ≠ '\n'
    · rw [cleanFrom_visible hd.1 hd.2]
      exact List.append_ne_nil_of_right_ne_nil _ (List.cons_ne_nil _ _)
    · rcases List.mem_cons.mp hc with rfl | hmem
      · exact absurd ⟨hblank, hline⟩ hd
      · rw [cleanFrom]
        split
        · exact ih hmem
        · rw [if_pos (by simp_all)]
          exact ih hmem

/-- Nothing stays of blanks after a line feed, or before one. -/
theorem cleanFrom_eq_nil (hblank : ∀ c ∈ text, isLineBlank c = true ∨ c = '\n')
    (hline : initial = true ∨ '\n' ∈ text) : cleanFrom initial seen blanks 0 text = [] := by
  induction text generalizing initial seen blanks with
  | nil => rw [cleanFrom, if_pos (hline.resolve_right List.not_mem_nil)]
  | cons c cs ih =>
    obtain ⟨hc, hcs⟩ := List.forall_mem_cons.mp hblank
    rw [cleanFrom]
    split
    · refine ih hcs (hline.imp_right fun hmem => (List.mem_cons.mp hmem).resolve_left ?_)
      rintro rfl
      contradiction
    · rw [if_pos (by simp_all)]
      exact ih hcs (.inl rfl)

/-- Text is cleaned away just if all of it is blanks and a line feed is among them. -/
theorem clean_eq_nil_iff (hne : text ≠ []) :
    clean text = [] ↔ '\n' ∈ text ∧ ∀ c ∈ text, isLineBlank c = true ∨ c = '\n' := by
  refine ⟨fun h => ⟨?_, fun c hc => ?_⟩, fun h => cleanFrom_eq_nil h.2 (.inr h.1)⟩
  · by_contra hline
    obtain ⟨c, rest, rfl⟩ := List.exists_cons_of_ne_nil hne
    rw [clean, cleanFrom_last hline, decodeFrom] at h
    cases h
  · by_contra hvisible
    rw [not_or, Bool.not_eq_true] at hvisible
    exact cleanFrom_ne_nil hc hvisible.1 hvisible.2 h

/-- What is cleaned away is layout. -/
theorem isLayout_of_clean (hne : text ≠ []) (h : clean text = []) : Piece.isLayout text = true := by
  obtain ⟨hline, hblank⟩ := (clean_eq_nil_iff hne).mp h
  refine Bool.and_eq_true_iff.mpr ⟨List.all_eq_true.mpr fun c hc => ?_,
    List.any_eq_true.mpr ⟨'\n', hline, rfl⟩⟩
  have hc := hblank c hc
  simp only [isLineBlank, Bool.or_eq_true, beq_iff_eq] at hc
  rcases hc with ((rfl | rfl) | rfl) | rfl <;> rfl

/-- Text that is not there for the layout alone is not cleaned away. -/
theorem clean_ne_nil (hne : text ≠ []) (h : Piece.isLayout text = false) : clean text ≠ [] :=
  fun hclean => by cases (isLayout_of_clean hne hclean).symm.trans h

/-- Layout of which something is left when it is cleaned: no line feed is in it, or blanks that stay
at a cut are. -/
def Remains (text : List Char) : Prop :=
  Piece.isLayout text = true ∧ ('\n' ∈ text → ∃ c ∈ text, c ∉ [' ', '\t', '\r', '\n'])

theorem remains_iff (hne : text ≠ []) :
    Remains text ↔ Piece.isLayout text = true ∧ clean text ≠ [] := by
  rw [Remains, Ne, clean_eq_nil_iff hne]
  refine and_congr_right fun _ => ?_
  simp only [not_and, not_forall, isLineBlank, Bool.or_eq_true, beq_iff_eq, List.mem_cons,
    List.not_mem_nil, or_false, or_assoc, exists_prop]

end Markup

namespace Cursor

open Markup (clean Remains)

variable {src : Source} {c : Cursor}

theorem readChild_text (h : Piece.elementText c.start.rest ≠ []) :
    readChild src c = c.settle
      (if Piece.isLayout (Piece.elementText c.start.rest) then .jsxEmptyText else .jsxText)
      (c.start.skip (Piece.elementText c.start.rest).length) := by
  unfold readChild
  split
  iterate 3
    · rename_i hrest
      rw [hrest] at h
      exact absurd rfl h
  · rfl

/-- The reader drops the text up to the next tag or brace just if it is cleaned away, or if it is
layout of which something would be left. -/
theorem child_dropped_iff (herror : c.error = none) (hne : Piece.elementText c.stop.rest ≠ []) :
    (c.advance src .child).start = c.stop ∧
    (c.advance src .child).stop = c.stop.skip (Piece.elementText c.stop.rest).length ∧
    ((c.advance src .child).kind = .jsxEmptyText ↔
      clean (Piece.elementText c.stop.rest) = [] ∨ Remains (Piece.elementText c.stop.rest)) ∧
    ¬ (clean (Piece.elementText c.stop.rest) = [] ∧ Remains (Piece.elementText c.stop.rest)) := by
  rw [advance_eq src .child herror]
  dsimp only
  rw [readChild_text hne, Markup.remains_iff hne]
  refine ⟨rfl, rfl, ?_, fun h => h.2.2 h.1⟩
  have hkind : ∀ layout : Bool,
      (if layout = true then Kind.jsxEmptyText else .jsxText) = .jsxEmptyText ↔ layout = true := by
    decide
  refine (hkind _).trans ⟨fun h => ?_, ?_⟩
  · by_cases hclean : clean (Piece.elementText c.stop.rest) = []
    · exact .inl hclean
    · exact .inr ⟨h, hclean⟩
  · rintro (hclean | ⟨h, -⟩)
    · exact Markup.isLayout_of_clean hne hclean
    · exact h

/-- The ends of lines and blanks before a tag. -/
theorem child_dropped_indent :
    ((before "\r\n\t <a>".toList).advance ⟨"\r\n\t <a>".toList, {}⟩ .child).kind = .jsxEmptyText :=
  (child_dropped_iff rfl (by decide)).2.2.1.mpr (.inl (by decide))

/-- A no-break space after a line feed is dropped, although it stays when the text is cleaned. -/
theorem blank_child_lost : ¬ ∀ (src : Source) (c : Cursor), c.error = none →
    Piece.elementText c.stop.rest ≠ [] →
    ((c.advance src .child).kind = .jsxEmptyText ↔ clean (Piece.elementText c.stop.rest) = []) := by
  intro h
  have hdropped : ((before "\n\u00A0</a>".toList).advance ⟨"\n\u00A0</a>".toList, {}⟩ .child).kind =
      .jsxEmptyText := by decide
  exact absurd ((h _ _ rfl (by decide)).mp hdropped) (by decide)

end Cursor

end Downlevel
