import Downlevel.Proofs.Cursor.Gap
import Downlevel.Proofs.Grammar.Program

/-!
# Tokens and gaps

The tokens of a snippet and the gaps between them are all of its text. Every move of the reader goes
over a gap before it comes to a token, and what is done to the current token after that leaves its
start alone; notes leave spans alone, and whatever is given up is read again from where it began. So
all along a run, what stands before the tokens and before the cursor is what the reader goes over
(`Gapped`). `parse_tiles` says of the stream of a snippet what follows.
-/

namespace Downlevel

namespace Grammar

open State

/-- The gaps before all tokens and before the cursor hold what the reader goes over. -/
structure Gapped (text : List Char) (s : State) : Prop where
  first : ∀ u, s.tokens[0]? = some u → Gap.Fills text 0 u.span.start
  next : ∀ i t u, s.tokens[i]? = some t → s.tokens[i + 1]? = some u →
    Gap.Fills text t.span.stop u.span.start
  cursor : Gap.Fills text s.cursor.lastEnd.offset s.cursor.start.offset
  reach : endOf s.tokens = s.cursor.lastEnd.offset
  start : s.cursor.start.In text
  stop : s.cursor.stop.In text

variable {ctx : Context} {text : List Char} {s t : State}

namespace Gapped

theorem taken (h : Gapped text s) :
    (∀ u, s.taken[0]? = some u → Gap.Fills text 0 u.span.start) ∧
      ∀ i t u, s.taken[i]? = some t → s.taken[i + 1]? = some u →
        Gap.Fills text t.span.stop u.span.start := by
  refine ⟨fun u hu => ?_, fun i t u ht hu => ?_⟩
  · rcases Tiled.getElem?_push_cases hu with ⟨hu, -⟩ | ⟨hempty, rfl⟩
    · exact h.first u hu
    · have hreach := h.reach
      rw [Array.eq_empty_of_size_eq_zero hempty.symm] at hreach
      rw [show 0 = s.cursor.lastEnd.offset from hreach]
      exact h.cursor
  · rcases Tiled.getElem?_push_cases hu with ⟨hu, hlt⟩ | ⟨hlast, rfl⟩
    · rcases Tiled.getElem?_push_cases ht with ⟨ht, -⟩ | ⟨hi, -⟩
      · exact h.next i t u ht hu
      · omega
    · rcases Tiled.getElem?_push_cases ht with ⟨ht, -⟩ | ⟨hi, -⟩
      · rw [← Tiled.le_endOf ht hlast, h.reach]
        exact h.cursor
      · omega

theorem took (h : Gapped ctx.source.text s) {mode : Mode} (hclean : (s.took ctx mode).Clean) :
    Gapped ctx.source.text (s.took ctx mode) := by
  have hmoved := Cursor.advance_moved hclean
  obtain ⟨n, hstart⟩ := hmoved.start
  obtain ⟨m, hstop⟩ := hmoved.stop
  have hin : (s.took ctx mode).cursor.start.In ctx.source.text := by
    rw [took_cursor, hstart]
    exact Text.Point.skip_in h.stop n
  refine ⟨h.taken.1, h.taken.2, ?_, ?_, hin, ?_⟩
  · rw [took_cursor, hmoved.lastEnd]
    exact Cursor.advance_fills h.stop hclean
  · show endOf (s.tokens.push s.cursor.token) = _
    rw [endOf_push, took_cursor, hmoved.lastEnd]
    rfl
  · rw [took_cursor, hstop]
    exact Text.Point.skip_in hin m

theorem reread (h : Gapped text s) {c : Cursor} (hc : Reread s.cursor c) :
    Gapped text { s with cursor := c } := by
  obtain ⟨n, hstop⟩ := hc.stop
  refine ⟨h.first, h.next, ?_, ?_, ?_, ?_⟩
  · rw [hc.lastEnd, hc.start]
    exact h.cursor
  · rw [hc.lastEnd]
    exact h.reach
  · rw [hc.start]
    exact h.start
  · rw [hstop]
    exact Text.Point.skip_in h.start n

theorem recast (h : Gapped text s) {tokens : Array Token} (hrecast : Recast s.tokens tokens) :
    Gapped text { s with tokens } := by
  refine ⟨fun u hu => ?_, fun i t u ht hu => ?_, h.cursor, hrecast.endOf.trans h.reach, h.start,
    h.stop⟩
  · obtain ⟨v, hv, -, hspan⟩ := hrecast.get hu
    rw [hspan]
    exact h.first v hv
  · obtain ⟨v, hv, -, hspan⟩ := hrecast.get ht
    obtain ⟨w, hw, -, hspan'⟩ := hrecast.get hu
    rw [hspan, hspan']
    exact h.next i v w hv hw

theorem of_first (hclean : (State.first ctx.source).Clean) :
    Gapped ctx.source.text (.first ctx.source) := by
  have hmoved := Cursor.advance_moved (c := Cursor.before ctx.source.text) hclean
  have hfills := Cursor.advance_fills (c := Cursor.before ctx.source.text)
    (Text.Point.first_in _) hclean
  have hsound := sound_first ctx hclean
  refine ⟨fun u hu => ?_, fun i t u ht hu => ?_, ?_, hsound.reach, hsound.standing.start,
    hsound.standing.stop_in⟩
  · simp [State.first] at hu
  · simp [State.first] at ht
  · rw [show (State.first ctx.source).cursor.lastEnd = _ from hmoved.lastEnd]
    exact hfills

end Gapped

/-- A run goes over gaps only. -/
theorem Run.gapped (h : Run ctx s t) (hs : Gapped ctx.source.text s) :
    Gapped ctx.source.text t := by
  induction h with
  | refl s => exact hs
  | trans _ _ ih₁ ih₂ => exact ih₂ (ih₁ hs)
  | take _ hclean => exact hs.took hclean
  | piece _ _ _ hclean =>
    have hclean₂ := Cursor.error_of_advance hclean
    have hclean₁ := Cursor.error_of_advance hclean₂
    exact ((hs.took hclean₁).took hclean₂).took hclean
  | reread hc _ _ => exact hs.reread hc
  | typing _ _ _ ih | scope _ _ ih =>
    obtain ⟨hfirst, hnext, hcursor, hreach, hstart, hstop⟩ :=
      ih ⟨hs.first, hs.next, hs.cursor, hs.reach, hs.start, hs.stop⟩
    exact ⟨hfirst, hnext, hcursor, hreach, hstart, hstop⟩
  | note hf => exact hs.recast (recast_noting _ _ hf.harmless)
  | mark _ _ => exact hs.recast (recast_marking _ _)

end Grammar

open Grammar

end Downlevel
