import Downlevel.Proofs.Lowering.Proceeds
import Downlevel.Proofs.Lowering.Rewritten

/-!
# What a step notes

If a step of lowering gets through, it has only added notes to those of its editor. Which ones is
said of it alone (`Notes`), and the notes of steps that are taken one after the other are put
together (`Notes.bind`). Where nothing waits for the next token (`Draft.Clear`), a note of it says
just what becomes of it.
-/

namespace Downlevel.Lowering

open Token (At)

variable {α β : Type} {c : Scene} {k : Knot} {d : Draft} {body : Array Token} {last : Token}
  {lo hi i stop : Nat} {action : Action} {trim : Bool}

/-- If the step `p` gets through from `d`, it adds notes, and `Q` holds of its answer, of the notes
and of the draft after it. -/
def Notes (c : Scene) (d : Draft) (p : Lowering α) (Q : α → List Edit → Draft → Prop) : Prop :=
  ∀ a d', p c d = .ok (a, d') →
    ∃ notes, d'.editor.log.toList = d.editor.log.toList ++ notes ∧ Q a notes d'

/-- The editor stands on the token at `i`, and nothing waits for it. -/
structure Draft.Clear (i : Nat) (d : Draft) : Prop where
  index : d.editor.index = i
  lead : d.editor.lead = ""
  marks : d.editor.marks = []
  trim : d.editor.trimNext = false

namespace Notes

variable {p : Lowering α} {g : α → Lowering β} {R : α → List Edit → Draft → Prop}
  {Q : β → List Edit → Draft → Prop}

theorem bind (hp : Notes c d p R)
    (hg : ∀ a notes d', R a notes d' →
      Notes c d' (g a) fun b more d'' => Q b (notes ++ more) d'') : Notes c d (p >>= g) Q := by
  intro b d'' h
  obtain ⟨a, d', hpa, hgb⟩ := run_bind_ok h
  obtain ⟨notes, hnotes, hr⟩ := hp a d' hpa
  obtain ⟨more, hmore, hq⟩ := hg a notes d' hr b d'' hgb
  exact ⟨notes ++ more, by rw [hmore, hnotes, List.append_assoc], hq⟩

theorem pure {a : α} (h : R a [] d) : Notes c d (Pure.pure a : Lowering α) R := by
  rintro _ _ ⟨⟩
  exact ⟨[], (List.append_nil _).symm, h⟩

theorem of_error {e : Halt} (h : p c d = .error e) : Notes c d p R := by
  intro a d' ha
  cases h.symm.trans ha

theorem mono {R' : α → List Edit → Draft → Prop} (hp : Notes c d p R)
    (h : ∀ a notes d', R a notes d' → R' a notes d') : Notes c d p R' := by
  intro a d' hpa
  obtain ⟨notes, hnotes, hr⟩ := hp a d' hpa
  exact ⟨notes, hnotes, h a notes d' hr⟩

theorem look (a : α) (hp : p c d = .ok (a, d)) (hg : Notes c d (g a) Q) :
    Notes c d (p >>= g) Q := by
  intro b d' h
  rw [run_look a hp] at h
  exact hg b d' h

theorem still [hp : Obeys c (.keeping (· = d.editor)) p]
    (hg : ∀ a d', d'.editor = d.editor → Notes c d' (g a) Q) : Notes c d (p >>= g) Q := by
  intro b d'' h
  obtain ⟨a, d', hpa, hgb⟩ := run_bind_ok h
  have heq := (hp.leads hpa rfl).2
  obtain ⟨notes, hnotes, hq⟩ := hg a d' heq b d'' hgb
  exact ⟨notes, by rw [hnotes, heq], hq⟩

/-- Whatever a step notes, it is about tokens that it passes. -/
theorem of_follows [hp : Follows c p] : Notes c d p fun _ notes d' =>
    (∀ n ∈ notes, n.Between d.editor.index d'.editor.index) ∧
      d.editor.index ≤ d'.editor.index := by
  intro a d' hpa
  have hwithin := hp.followsAt d a d' hpa
  obtain ⟨notes, hnotes, hbetween⟩ := hwithin.adds.notes
  exact ⟨notes, hnotes, hbetween, hwithin.index⟩

/-- After a step come others, whatever they note. -/
theorem andThen (hp : Notes c d p R) [∀ a, Follows c (g a)]
    (hq : ∀ a b notes more d' d'', R a notes d' → Q b (notes ++ more) d'') :
    Notes c d (p >>= g) Q :=
  hp.bind fun a notes d' hr => of_follows.mono fun b more d'' _ => hq a b notes more d' d'' hr

end Notes

theorem append_notes (code : String) : Notes c d (append code) fun _ notes d' =>
    notes = inserted code ∧ d'.editor.index = d.editor.index ∧ ∀ i, d.Clear i → d'.Clear i := by
  rintro _ _ ⟨⟩
  refine ⟨inserted code, append_log d.editor code, rfl, append_index d.editor code, fun i h => ?_⟩
  show Draft.Clear i { d with editor := d.editor.append code }
  unfold Editor.append
  split
  · exact h
  · exact ⟨h.index, h.lead, h.marks, h.trim⟩

section

variable (hwhole : c.sheet.Whole body last)
include hwhole

theorem edit_notes (hi : d.editor.index < body.size) (action : Action) (trim : Bool) :
    Notes c d (edit fun s e => e.edit s action trim) fun _ notes d' =>
      notes = [.token d.editor.index action d.editor.lead d.editor.marks
        (trim || d.editor.trimNext)] ∧ d'.editor.index = d.editor.index + 1 ∧
      (trim = false ∨ d.editor.trimNext = false → d'.Clear (d.editor.index + 1)) := by
  intro _ d' h
  rw [edit_eq hwhole hi] at h
  cases h
  refine ⟨_, Array.toList_push, rfl, rfl, fun htrim => ⟨rfl, rfl, rfl, ?_⟩⟩
  rcases htrim with rfl | htrim
  · rfl
  · simp [htrim]

/-- What becomes of the current token, when nothing waits for it. -/
theorem clear_notes (h : d.Clear i) (hi : i < body.size) (action : Action) (trim : Bool) :
    Notes c d (edit fun s e => e.edit s action trim) fun _ notes d' =>
      notes = [.token i action "" [] trim] ∧ d'.Clear (i + 1) := by
  obtain ⟨rfl, hlead, hmarks, htrim⟩ := h
  refine (edit_notes hwhole hi action trim).mono fun _ notes d' hnotes => ?_
  rw [hlead, hmarks, htrim, Bool.or_false] at hnotes
  exact ⟨hnotes.1, hnotes.2.2 (.inr rfl)⟩

/-- A token that has to be of some kind is copied. -/
theorem copyExpected_notes {kind : Kind} (hkind : kind ≠ .eof) :
    Notes c d (copyExpected kind) fun _ notes d' =>
      notes = [.token d.editor.index .copy d.editor.lead d.editor.marks d.editor.trimNext] ∧
      At c.sheet.tokens d.editor.index kind ∧ d'.Clear (d.editor.index + 1) := by
  refine .look (d.editor.current c.sheet) rfl ?_
  split
  · rename_i hcurrent
    rw [beq_iff_eq] at hcurrent
    have hended : c.Ended := .of_whole hwhole
    have hroom := hended.room d.editor (hcurrent ▸ hkind)
    have hsize := hwhole.size_tokens
    refine (edit_notes hwhole (by omega) .copy false).mono ?_
    rintro _ _ d' ⟨rfl, -, hclear⟩
    refine ⟨rfl, ⟨_, Array.getElem?_eq_getElem (by omega), ?_⟩, hclear (.inl rfl)⟩
    rwa [← Editor.current_of (Array.getElem?_eq_getElem (by omega))]
  · exact .of_error rfl

theorem whileBelow_notes (h : d.Clear lo) (hle : lo ≤ stop) (hstop : stop ≤ body.size) :
    Notes c d (whileHolds (return (← position) < stop) (edit fun s e => e.edit s action trim))
      fun _ notes d' => notes = noted action trim lo stop ∧ d'.Clear stop := by
  refine .look (c.sheet.tokens.size + 1) rfl ?_
  generalize c.sheet.tokens.size + 1 = n
  induction n generalizing d lo with
  | zero => exact .of_error rfl
  | succ n ih =>
    unfold whileBounded
    refine .look (decide (d.editor.index < stop)) rfl ?_
    rw [h.index]
    split
    · rename_i hlt
      rw [decide_eq_true_eq] at hlt
      refine (clear_notes hwhole h (by omega) action trim).bind ?_
      rintro _ notes d' ⟨rfl, hclear⟩
      refine (ih hclear hlt).mono ?_
      rintro _ more d'' ⟨rfl, hclear'⟩
      exact ⟨(noted_of_lt hlt).symm, hclear'⟩
    · rename_i hge
      obtain rfl : lo = stop := by simp only [decide_eq_true_eq] at hge; omega
      exact .pure ⟨(noted_of_le (Nat.le_refl _)).symm, h⟩

/-- A name becomes the member that it stands for, or it is copied. -/
theorem name_notes (h : d.Clear i) (hi : i < body.size) : Notes c d name fun _ notes d' =>
    notes = [.token i ((c.nameCode? i).elim .copy .replace) "" [] false] ∧ d'.Clear (i + 1) := by
  refine .look c rfl (.look d.editor.index rfl ?_)
  rw [h.index]
  split
  · rename_i code hcode
    rw [hcode]
    exact clear_notes hwhole h hi (.replace code) false
  · rename_i hcode
    rw [hcode]
    exact clear_notes hwhole h hi .copy false

end

end Downlevel.Lowering
