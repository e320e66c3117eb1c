import Mathlib.Data.List.Induction
import Downlevel.Proofs.Edit.Copy

/-!
# Code that is taken out and put back

No step of an editor looks at the notes, and each adds to them alike whatever they are
(`Step.run_adding`). So code that was taken out may be put back as it was rendered: the editor ends
with the same code, and only the places of what was taken out are lost (`extract_append_finish`).
-/

namespace Downlevel

namespace Rendering

@[simp] theorem shifted_empty (n : Nat) : shifted n #[] = #[] := by
  simp [shifted]

theorem append_assoc (a b c : Rendering) : a ++ b ++ c = a ++ (b ++ c) := by
  apply eq_of
  · exact String.append_assoc ..
  · simp [shifted, Text.size_append, Nat.add_assoc, Function.comp_def]

end Rendering

theorem Edit.renderAll_append (s : Sheet) (a b : List Edit) :
    Edit.renderAll s (a ++ b) = Edit.renderAll s a ++ Edit.renderAll s b := by
  induction b using List.reverseRecOn with
  | nil => exact Rendering.eq_of (by simp [Edit.renderAll]) (by simp [Edit.renderAll])
  | append_singleton b e ih =>
    rw [← List.append_assoc, Edit.renderAll_concat, ih, Rendering.append_assoc,
      ← Edit.renderAll_concat]

namespace Editor

/-- What may be done with an editor that does not go back. -/
inductive Step where
  | copy
  | replace (text : String)
  | replaceTrimmed (text : String)
  | remove
  | blank
  | append (code : String)
  | prepend (code : String)
  | prependMapped (code : String)
  | trimNextGap
deriving DecidableEq, Repr

namespace Step

def apply (s : Sheet) (e : Editor) : Step → Editor
  | copy => e.copy s
  | replace text => e.replace s text
  | replaceTrimmed text => e.replaceTrimmed s text
  | remove => e.remove s
  | blank => e.blank s
  | append code => e.append code
  | prepend code => e.prepend code
  | prependMapped code => e.prependMapped code
  | trimNextGap => e.trimNextGap

def run (s : Sheet) (steps : List Step) (e : Editor) : Editor := steps.foldl (apply s) e

end Step

variable (s : Sheet) (e : Editor)

/-- The editor where it stands, with other notes. -/
def noting (log : Array Edit) : Editor := { e with log }

/-- The way leads to another editor with some notes added, and would do so from any notes. -/
def Adding (f : Editor → Editor) (added : Array Edit) (last : Editor) : Prop :=
  ∀ log : Array Edit, f (e.noting log) = last.noting (log ++ added)

theorem edit_adding (action : Action) (trim : Bool) :
    ∃ added last, e.Adding (edit s · action trim) added last := by
  by_cases hend : s.tokens.size - 1 ≤ e.index
  · exact ⟨#[], e, fun log => by simp [edit, noting, hend]⟩
  · refine ⟨#[.token e.index action e.lead e.marks (trim || e.trimNext)],
      { index := e.index + 1, trimNext := trim && e.trimNext }, fun log => ?_⟩
    exact (if_neg hend).trans (by simp only [noting, Array.push_eq_append])

theorem append_adding (code : String) :
    e.Adding (append · code) (if code.isEmpty then #[] else #[.insert code]) e := by
  intro log
  by_cases hcode : code.isEmpty = true
  · simp [append, noting, hcode]
  · simp only [append, noting, if_neg hcode, Array.push_eq_append]

theorem Step.apply_adding (step : Step) : ∃ added last, e.Adding (apply s · step) added last := by
  cases step with
  | copy | replace | replaceTrimmed | remove | blank => exact edit_adding s e _ _
  | append code => exact ⟨_, _, append_adding e code⟩
  | prepend code => exact ⟨#[], e.prepend code, fun log => by simp [apply, Editor.prepend, noting]⟩
  | prependMapped code =>
    refine ⟨#[], e.prependMapped code, fun log => ?_⟩
    simp only [apply, Editor.prependMapped, noting, Array.append_empty]
    split <;> rfl
  | trimNextGap =>
    exact ⟨#[], e.trimNextGap, fun log => by simp [apply, Editor.trimNextGap, noting]⟩

theorem Step.run_adding (steps : List Step) : ∃ added last, e.Adding (run s steps) added last := by
  induction steps generalizing e with
  | nil => exact ⟨#[], e, fun log => by simp [run]⟩
  | cons step steps ih =>
    obtain ⟨added, e', hstep⟩ := apply_adding s e step
    obtain ⟨more, last, hsteps⟩ := ih e'
    refine ⟨added ++ more, last, fun log => ?_⟩
    have hrun := hsteps (log ++ added)
    rwa [← hstep, Array.append_assoc] at hrun

/-- Code that is put in place of some notes is rendered as they are, without their places. -/
theorem renderAll_put (code : String) :
    Edit.renderAll s (if code.isEmpty then #[] else #[.insert code] : Array Edit).toList =
      .plain code := by
  by_cases hcode : code.isEmpty = true
  · rw [if_pos hcode, String.isEmpty_iff.mp hcode]
    rfl
  · rw [if_neg hcode]
    apply Rendering.eq_of <;> simp [Edit.renderAll, Edit.render, Rendering.plain]

/-- What was noted since a bookmark can be taken out, as code. When the code is put back, the editor
stands where it stood, and whatever it does up to the end, the code that it ends with is the same.
The places too are the same, but for those of the notes that were taken out. -/
theorem extract_append_finish (steps : List Step) :
    let done := Step.run s steps e
    let before := Edit.renderAll s e.log.toList
    let taken := Edit.renderAll s (done.log.toList.drop e.log.size)
    ∃ code found, done.extract? s e.bookmark = some (code, found) ∧
      (found.append code).noting done.log = done ∧
      ∀ more : List Step, (Step.run s more done).atEnd s = true →
        ∃ plain put later, (Step.run s more done).finish s = .ok plain ∧
          (Step.run s more (found.append code)).finish s = .ok put ∧ put.code = plain.code ∧
          plain.places = before.places ++
            Rendering.shifted before.code.utf8ByteSize taken.places ++ later ∧
          put.places = before.places ++ later := by
  intro done before taken
  obtain ⟨added, mid, hsteps⟩ := Step.run_adding s e steps
  have hdone : done = mid.noting (e.log ++ added) := hsteps e.log
  have htaken : taken = Edit.renderAll s added.toList := by
    simp [taken, hdone, noting]
  have hfound : done.extract? s e.bookmark = some (taken.code, mid.noting e.log) := by
    simp [extract?, bookmark, hdone, htaken, noting]
  have hback : (mid.noting e.log).append taken.code = _ := append_adding mid taken.code e.log
  refine ⟨_, _, hfound, ?_, fun more hend => ?_⟩
  · rw [hback, hdone]
    rfl
  obtain ⟨rest, last, hmore⟩ := Step.run_adding s mid more
  rw [hback, hdone, hmore, hmore]
  rw [hdone, hmore] at hend
  refine ⟨_, _, Rendering.shifted (Text.size (before.code ++ taken.code).toList)
    (Edit.renderAll s rest.toList).places, if_pos hend, if_pos hend, ?_⟩
  simp only [noting, Array.toList_append, Edit.renderAll_append, renderAll_put, ← htaken]
  simp [Rendering.plain, before, Text.utf8ByteSize_eq_size]

/-- In `a b` the second token is copied after a bookmark, with a bracket before it. -/
theorem extract_append_finish_second :
    let s : Sheet := ⟨['a', ' ', 'b'], #[{ kind := .name, span := ⟨0, 1⟩ },
      { kind := .name, span := ⟨2, 3⟩ }, { kind := .eof, span := ⟨3, 3⟩ }]⟩
    let e := Step.run s [.copy] {}
    let done := Step.run s [.append "(", .copy] e
    ∃ code found, done.extract? s e.bookmark = some (code, found) ∧
      ∃ plain put later, (Step.run s [.append ")"] done).finish s = .ok plain ∧
        (Step.run s [.append ")"] (found.append code)).finish s = .ok put ∧ put.code = plain.code ∧
        plain.places = #[(0, 0)] ++ #[(3, 2)] ++ later ∧ put.places = #[(0, 0)] ++ later := by
  intro s e done
  have hbefore : (Edit.renderAll s e.log.toList).places = #[(0, 0)] := by decide +kernel
  have htaken : Rendering.shifted (Edit.renderAll s e.log.toList).code.utf8ByteSize
      (Edit.renderAll s (done.log.toList.drop e.log.size)).places = #[(3, 2)] := by decide +kernel
  obtain ⟨code, found, hfound, -, h⟩ := extract_append_finish s e [.append "(", .copy]
  rw [hbefore, htaken] at h
  exact ⟨code, found, hfound, h [.append ")"] (by decide +kernel)⟩

end Editor

end Downlevel
