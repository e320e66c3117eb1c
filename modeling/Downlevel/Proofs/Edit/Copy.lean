import Downlevel.Edit.Editor
import Downlevel.Proofs.Token.Tiled

/-!
# Copying a whole snippet

On a sheet whose tokens tile its text, tokens and gaps in turn make up the text again. An editor
that copies every token renders the text itself, and each token at the offset that it has there
(`Editor.finish_copied`).
-/

namespace Downlevel

open Text (Place between size)

variable {index : Nat} {n : Nat} {t : Token}

/-! ## Renderings -/

namespace Rendering

@[simp] theorem code_append (a b : Rendering) : (a ++ b).code = a.code ++ b.code := rfl

@[simp] theorem places_append (a b : Rendering) :
    (a ++ b).places = a.places ++ shifted (size a.code.toList) b.places := by
  rw [← Text.utf8ByteSize_eq_size]
  rfl

@[simp] theorem shifted_zero (places : Array (Nat × Nat)) : shifted 0 places = places := by
  simp [shifted]

theorem eq_of {a b : Rendering} (hcode : a.code = b.code) (hplaces : a.places = b.places) :
    a = b := by
  cases a
  cases b
  subst hcode hplaces
  rfl

end Rendering

theorem Edit.renderAll_concat (s : Sheet) (edits : List Edit) (e : Edit) :
    Edit.renderAll s (edits ++ [e]) = Edit.renderAll s edits ++ e.render s := by
  simp [Edit.renderAll]

/-! ## Sheets -/

/-- The sheet holds the tokens `body`, which tile its text, and the end of the input after them. -/
structure Sheet.Whole (s : Sheet) (body : Array Token) (last : Token) : Prop where
  tokens : s.tokens = body.push last
  tiled : Tiled s.text body
  ended : last.kind = .eof
  span : last.span = ⟨size s.text, size s.text⟩

namespace Sheet

variable {s : Sheet} {body : Array Token} {last : Token}

/-- Where the gap before a token starts. -/
def gapStart (s : Sheet) (index : Nat) : Nat :=
  if index == 0 then 0 else ((s.tokens[index - 1]?).map (·.span.stop)).getD 0

theorem gap_eq (h : s.tokens[index]? = some t) :
    s.gap index = between s.text (s.gapStart index) t.span.start := by
  simp [gap, gapStart, between, h]

namespace Whole

variable (h : s.Whole body last)
include h

theorem size_tokens : s.tokens.size = body.size + 1 := by rw [h.tokens, Array.size_push]

theorem token?_of_lt (hi : index < body.size) : s.tokens[index]? = some body[index] := by
  rw [h.tokens, Array.getElem?_push_lt hi]

theorem token?_of_some (ht : body[index]? = some t) : s.tokens[index]? = some t := by
  rw [h.tokens]
  exact Tiled.getElem?_push_of_some ht

theorem token?_last : s.tokens[body.size]? = some last := by
  rw [h.tokens, Array.getElem?_push_size]

/-- The token at an index is one of the text, or the end of the input. -/
theorem token?_cases (ht : s.tokens[index]? = some t) :
    body[index]? = some t ∧ index < body.size ∨ index = body.size ∧ t = last := by
  rw [h.tokens] at ht
  exact Tiled.getElem?_push_cases ht

theorem fits (hi : index < body.size) : body[index].Fits s.text :=
  h.tiled.fits (Array.getElem?_eq_getElem hi)

theorem gapStart_succ (hi : index < body.size) :
    s.gapStart (index + 1) = body[index].span.stop := by
  simp [gapStart, h.token?_of_lt hi]

theorem place_gapStart (hi : index ≤ body.size) : Place s.text (s.gapStart index) := by
  cases index with
  | zero => exact .zero _
  | succ index =>
    rw [h.gapStart_succ hi]
    exact (h.fits hi).stop

theorem gapStart_le (ht : s.tokens[index]? = some t) :
    s.gapStart index ≤ t.span.start := by
  cases index with
  | zero => exact Nat.zero_le _
  | succ index =>
    rcases h.token?_cases ht with ⟨ht, hlt⟩ | ⟨hlast, rfl⟩
    · rw [h.gapStart_succ (by omega)]
      exact h.tiled.ordered (Array.getElem?_eq_getElem (by omega)) ht
    · rw [h.gapStart_succ (by omega), h.span]
      exact (h.fits (by omega)).stop.le_size

end Whole

end Sheet

/-! ## Copies -/

/-- The note of a token that is copied as it is. -/
def Edit.copied (index : Nat) : Edit := .token index .copy "" [] false

/-- The editor that has copied `n` tokens. -/
def Editor.copied (n : Nat) : Editor :=
  { index := n, log := ((List.range n).map Edit.copied).toArray }

open Editor (copied)

/-- A token is recorded at its own offset. -/
def Token.place (t : Token) : Nat × Nat := (t.span.start, t.span.start)

namespace Sheet.Whole

variable {s : Sheet} {body : Array Token} {last : Token} (h : s.Whole body last)
include h

theorem render_copied (hi : index < body.size) : (Edit.copied index).render s =
      { code := String.ofList (between s.text (s.gapStart index) body[index].span.stop),
        places := #[(body[index].span.start - s.gapStart index, body[index].span.start)] } := by
  have ht := h.token?_of_lt hi
  have hstart := h.place_gapStart (Nat.le_of_lt hi)
  have hle := h.gapStart_le ht
  have hfits := h.fits hi
  have hjoin := Text.between_append hstart hfits.start hfits.stop hle hfits.le
  have hgap := Text.size_between hstart hfits.start hle
  simp only [Edit.render, Edit.copied, Sheet.token?, ht, Edit.trimmed, Sheet.gap_eq ht,
    Action.render, Token.text, Span.text_eq_between]
  refine Rendering.eq_of ?_ ?_
  · simp [Rendering.plain, Rendering.mapped, ← hjoin]
  · simp [Rendering.plain, Rendering.mapped, Rendering.shifted, hgap]

/-- After `n` copies, the text up to the gap before the next token is rendered. -/
theorem renderAll_copied (hn : n ≤ body.size) :
    Edit.renderAll s ((List.range n).map Edit.copied) =
      { code := String.ofList (between s.text 0 (s.gapStart n)),
        places := ((body.toList.take n).map Token.place).toArray } := by
  induction n with
  | zero =>
    rw [show s.gapStart 0 = 0 from rfl, Text.between_self (.zero _)]
    exact Rendering.eq_of rfl (by simp [Edit.renderAll])
  | succ n ih =>
    have hle := h.gapStart_le (h.token?_of_lt (show n < body.size by omega))
    rw [List.range_succ, List.map_append, List.map_singleton, Edit.renderAll_concat, ih (by omega),
      h.render_copied (by omega), h.gapStart_succ (by omega)]
    have hfits := h.fits (show n < body.size by omega)
    have hstart := h.place_gapStart (show n ≤ body.size by omega)
    have hsize := Text.size_between (.zero _) hstart (Nat.zero_le _)
    refine Rendering.eq_of ?_ ?_
    · simp [← String.ofList_append, Text.between_append (.zero _) hstart hfits.stop
        (Nat.zero_le _) (Nat.le_trans hle hfits.le)]
    · have hlen : n < body.toList.length := by simpa using show n < body.size by omega
      have hplace : s.gapStart n + (body[n].span.start - s.gapStart n) = body[n].span.start := by
        omega
      rw [Rendering.places_append, List.take_succ_eq_append_getElem hlen]
      simp only [Rendering.shifted, String.toList_ofList, hsize, Nat.sub_zero, List.map_toArray,
        List.map_cons, List.map_nil, hplace, List.append_toArray, List.map_append,
        Array.getElem_toList, Token.place]

theorem copy_copied (hn : n < body.size) :
    (copied n).copy s = copied (n + 1) := by
  unfold Editor.copy Editor.edit
  rw [if_neg]
  · simp [copied, List.range_succ, Edit.copied]
  · simp only [copied, h.size_tokens]
    omega

theorem atEnd_copied (hn : n ≤ body.size) :
    (copied n).atEnd s = (n == body.size) := by
  unfold Editor.atEnd Editor.current
  rcases Nat.lt_or_eq_of_le hn with hlt | rfl
  · have hkind : body[n].kind ≠ .eof := (h.fits hlt).notEnd
    simp [copied, Sheet.token?, h.token?_of_lt hlt, hkind, Nat.ne_of_lt hlt]
  · simp [copied, Sheet.token?, h.token?_last, h.ended]

theorem copyUpTo_copied {k : Nat} (hn : n ≤ body.size) (hk : body.size - n ≤ k) :
    Editor.copyUpTo s k (copied n) = copied body.size := by
  induction k generalizing n with
  | zero =>
    obtain rfl : n = body.size := by omega
    rfl
  | succ k ih =>
    rw [Editor.copyUpTo, h.atEnd_copied hn]
    split
    · rename_i heq
      rw [beq_iff_eq.mp heq]
    · rename_i hne
      have hlt : n < body.size := by
        simp only [beq_iff_eq] at hne
        omega
      rw [h.copy_copied hlt]
      exact ih hlt (by omega)

theorem finish_copied :
    (copied body.size).finish s =
      .ok { code := String.ofList s.text, places := (body.toList.map Token.place).toArray } := by
  have hlast := h.token?_last
  have hstart := h.place_gapStart (Nat.le_refl body.size)
  unfold Editor.finish
  rw [h.atEnd_copied (Nat.le_refl _), if_pos (by simp)]
  congr 1
  rw [show (copied body.size).log.toList = (List.range body.size).map Edit.copied from rfl,
    h.renderAll_copied (Nat.le_refl _)]
  refine Rendering.eq_of ?_ ?_
  · rw [h.size_tokens, Nat.add_sub_cancel, Sheet.gap_eq hlast, h.span]
    simp [Rendering.plain, Edit.trimmed, copied, ← String.ofList_append,
      Text.between_append (.zero _) hstart (.end _) (Nat.zero_le _) hstart.le_size,
      Text.between_zero_size]
  · have htake : body.toList.take body.size = body.toList := List.take_of_length_le (by simp)
    simp [Rendering.plain, Rendering.shifted, htake]

end Sheet.Whole

end Downlevel
