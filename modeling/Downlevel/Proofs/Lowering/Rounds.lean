import Downlevel.Proofs.Lowering.Follows
import Downlevel.Proofs.Lowering.SnippetEnd

/-!
# The rounds of the walk

A snippet is lowered in rounds, each of which passes a token at the top level or the construct that
it starts (`Rounds`). What follows a round only adds to its notes, and the notes are of tokens in
their order. Since the walk passes over no firm place, some round begins at each of them
(`Rounds.visit`).
-/

namespace Downlevel.Lowering

/-- One round of the walk at the top level. -/
def round (k : Knot) : Lowering Unit := do
  openWrap
  k.token
  closeWrap

/-- The walk comes from one draft to another by rounds. -/
inductive Rounds (c : Scene) (k : Knot) : Draft → Draft → Prop where
  | refl (d : Draft) : Rounds c k d d
  | step {d d' d'' : Draft} (hmore : d.editor.atEnd c.sheet = false)
      (hround : round k c d = .ok ((), d')) (hrest : Rounds c k d' d'') : Rounds c k d d''

/-- The draft after the `return` is opened, if this is the place. -/
def Draft.opened (d : Draft) : Draft :=
  match d.wrapping with
  | .before plan =>
    if d.editor.index = plan.start then
      { d with
        editor := (d.editor.prepend plan.separator).prependMapped WrapPlan.opening
        wrapping := .inside plan }
    else d
  | _ => d

/-- The draft after the `return` is closed, if this is the place. -/
def Draft.closed (d : Draft) : Draft :=
  match d.wrapping with
  | .inside plan =>
    if plan.expressionEnd ≤ d.editor.index then
      { d with editor := d.editor.append plan.suffix, wrapping := .off }
    else d
  | _ => d

/-- The note of code between tokens, if there is any. -/
def inserted (code : String) : List Edit := if code.isEmpty then [] else [.insert code]

/-- What is nested at the top level. -/
def Scene.knot (c : Scene) : Knot := nested (2 * (c.sheet.tokens.size + 1))

variable {α : Type} {c : Scene} {k : Knot} {d d' d'' : Draft} {body : Array Token} {last : Token}

/-! ## The `return` -/

theorem openWrap_eq (c : Scene) (d : Draft) : openWrap c d = .ok ((), d.opened) := by
  unfold openWrap Draft.opened
  rw [run_look d rfl]
  cases d.wrapping with
  | off | inside => rfl
  | before plan =>
    dsimp only
    rw [run_look d.editor.index rfl]
    by_cases hstart : d.editor.index = plan.start
    · rw [if_pos hstart, if_pos (beq_iff_eq.mpr hstart)]
      rfl
    · rw [if_neg hstart, if_neg (mt beq_iff_eq.mp hstart)]
      rfl

theorem closeWrap_eq (c : Scene) (d : Draft) : closeWrap c d = .ok ((), d.closed) := by
  unfold closeWrap Draft.closed
  rw [run_look d rfl]
  cases d.wrapping with
  | off | before => rfl
  | inside plan =>
    dsimp only
    rw [run_look d.editor.index rfl]
    split <;> rfl

theorem opened_cases (d : Draft) : d.opened = d ∨ ∃ plan, d.wrapping = .before plan ∧
    d.editor.index = plan.start ∧ d.opened =
      { d with
        editor := (d.editor.prepend plan.separator).prependMapped WrapPlan.opening
        wrapping := .inside plan } := by
  unfold Draft.opened
  split
  · split
    · exact .inr ⟨_, by assumption, by assumption, rfl⟩
    · exact .inl rfl
  · exact .inl rfl

theorem closed_cases (d : Draft) : d.closed = d ∨ ∃ plan, d.wrapping = .inside plan ∧
    plan.expressionEnd ≤ d.editor.index ∧
      d.closed = { d with editor := d.editor.append plan.suffix, wrapping := .off } := by
  unfold Draft.closed
  split
  · split
    · exact .inr ⟨_, by assumption, by assumption, rfl⟩
    · exact .inl rfl
  · exact .inl rfl

theorem prependMapped_log (e : Editor) (code : String) : (e.prependMapped code).log = e.log := by
  unfold Editor.prependMapped
  split <;> rfl

theorem prependMapped_index (e : Editor) (code : String) :
    (e.prependMapped code).index = e.index := by
  unfold Editor.prependMapped
  split <;> rfl

theorem append_log (e : Editor) (code : String) :
    (e.append code).log.toList = e.log.toList ++ inserted code := by
  unfold Editor.append inserted
  split <;> simp

theorem append_index (e : Editor) (code : String) : (e.append code).index = e.index := by
  unfold Editor.append
  split <;> rfl

theorem opened_log (d : Draft) : d.opened.editor.log = d.editor.log := by
  rcases opened_cases d with h | ⟨plan, -, -, h⟩
  · rw [h]
  · rw [h]
    exact prependMapped_log _ _

theorem opened_index (d : Draft) : d.opened.editor.index = d.editor.index := by
  rcases opened_cases d with h | ⟨plan, -, -, h⟩
  · rw [h]
  · rw [h]
    exact prependMapped_index _ _

theorem opened_loaded (d : Draft) : d.opened.loaded = d.loaded := by
  rcases opened_cases d with h | ⟨plan, -, -, h⟩ <;> rw [h]

theorem closed_log (d : Draft) :
    ∃ code, d.closed.editor.log.toList = d.editor.log.toList ++ inserted code := by
  rcases closed_cases d with h | ⟨plan, -, -, h⟩
  · exact ⟨"", by rw [h]; simp [inserted]⟩
  · exact ⟨plan.suffix, by rw [h]; exact append_log _ _⟩

theorem closed_index (d : Draft) : d.closed.editor.index = d.editor.index := by
  rcases closed_cases d with h | ⟨plan, -, -, h⟩
  · rw [h]
  · rw [h]
    exact append_index _ _

theorem opened_later (d : Draft) : Later c d d.opened := by
  rcases opened_cases d with h | ⟨plan, -, -, h⟩
  · rw [h]
    exact .refl d
  · rw [h]
    have hprepend : d.editor.Reaches (d.editor.prepend plan.separator) :=
      ⟨List.prefix_refl _, Nat.le_refl _⟩
    exact .of_editor (hprepend.trans (Editor.reaches_prependMapped _ _))

theorem closed_later (d : Draft) : Later c d d.closed := by
  rcases closed_cases d with h | ⟨plan, -, -, h⟩
  · rw [h]
    exact .refl d
  · rw [h]
    exact .of_editor (Editor.reaches_append _ _)

/-! ## Rounds -/

instance : c.knot.Following c := inferInstanceAs ((nested _).Following c)

theorem round_ok (h : round k c d = .ok ((), d')) :
    ∃ d₁, k.token c d.opened = .ok ((), d₁) ∧ d' = d₁.closed := by
  unfold round at h
  rw [run_bind (openWrap_eq c d)] at h
  obtain ⟨_, d₁, htoken, h⟩ := run_bind_ok h
  rw [closeWrap_eq] at h
  cases h
  exact ⟨d₁, htoken, rfl⟩

theorem rounds_of_loop {n : Nat}
    (h : whileBounded (return !(← atEnd)) (round k) n c d = .ok ((), d')) :
    Rounds c k d d' ∧ d'.editor.atEnd c.sheet = true := by
  induction n generalizing d with
  | zero => cases h
  | succ n ih =>
    obtain ⟨more, d₁, hmore, h⟩ := run_bind_ok h
    cases hmore
    split at h
    · rename_i hmore
      obtain ⟨_, d₂, hround, h⟩ := run_bind_ok h
      obtain ⟨hrest, hend⟩ := ih h
      exact ⟨.step (by simpa using hmore) hround hrest, hend⟩
    · rename_i hend
      cases h
      exact ⟨.refl _, by simpa using hend⟩

theorem rounds_of_snippet (h : snippet c d = .ok ((), d')) :
    Rounds c c.knot d d' ∧ d'.editor.atEnd c.sheet = true := by
  unfold snippet at h
  rw [run_look (c.sheet.tokens.size + 1) rfl] at h
  exact rounds_of_loop h

namespace Rounds

theorem later (h : Rounds c c.knot d d') : Later c d d' := by
  induction h with
  | refl d => exact .refl d
  | step _ hround _ ih =>
    obtain ⟨d₁, htoken, rfl⟩ := round_ok hround
    have hwithin := (inferInstance : Follows c c.knot.token).followsAt _ _ _ htoken
    exact ((opened_later _).trans hwithin.toLater).trans ((closed_later d₁).trans ih)

theorem ready (hwhole : c.sheet.Whole body last) (h : Rounds c c.knot d d')
    (hd : d.editor.Ready c.sheet) : d'.editor.Ready c.sheet := by
  induction h with
  | refl => exact hd
  | @step d _ _ _ hround _ ih =>
    have : c.Intact := ⟨body, last, hwhole⟩
    have hcarries : Carries c d (round c.knot) := by
      unfold round Scene.knot
      exact Obeys.writes hd
    exact ih (hcarries _ _ hround).2

end Rounds

/-! ## Visits -/

section

variable (hwhole : c.sheet.Whole body last) (hc : c.Ordered body.size)
include hwhole hc

theorem token_strides {n : Nat} (hn : 2 * (body.size - d.editor.index) ≤ n)
    (hi : d.editor.index < body.size) (hopen : c.Open body.size d.editor.index)
    (h : (nested n).token c d = .ok ((), d')) :
    c.Strides body.size d.editor.index d'.editor.index := by
  obtain ⟨_, d₁, hrun, -, hstrides⟩ := nested_lands hwhole hc hn hi hopen d rfl
  rw [h] at hrun
  cases hrun
  exact hstrides

theorem round_strides {n : Nat} (hn : 2 * (body.size - d.editor.index) ≤ n)
    (hi : d.editor.index < body.size) (hopen : c.Open body.size d.editor.index)
    (h : round (nested n) c d = .ok ((), d')) :
    c.Strides body.size d.editor.index d'.editor.index := by
  obtain ⟨d₁, htoken, rfl⟩ := round_ok h
  rw [← opened_index] at hn hi hopen ⊢
  rw [closed_index]
  exact token_strides hwhole hc hn hi hopen htoken

namespace Rounds

/-- The walk comes to a place from which on it may stand, and not past the end of the input. -/
theorem opened (h : Rounds c c.knot d d') (hopen : c.Open body.size d.editor.index) :
    c.Open body.size d'.editor.index := by
  have hsize := hwhole.size_tokens
  induction h with
  | refl => exact hopen
  | step hmore hround _ ih =>
    rw [atEnd_eq hwhole hopen.1, beq_eq_false_iff_ne] at hmore
    have hlt := Nat.lt_of_le_of_ne hopen.1 hmore
    exact ih (round_strides hwhole hc (by omega) hlt hopen hround).opened

/-- Some round begins at each firm place. -/
theorem visit {x : Nat} (hx : c.Firm x) (h : Rounds c c.knot d d')
    (hopen : c.Open body.size d.editor.index) (hle : d.editor.index ≤ x)
    (hlt : x < d'.editor.index) : ∃ d₁ d₂, Rounds c c.knot d d₁ ∧ d₁.editor.index = x ∧
      round c.knot c d₁ = .ok ((), d₂) ∧ Rounds c c.knot d₂ d' := by
  have hsize := hwhole.size_tokens
  induction h with
  | refl => omega
  | @step d₀ d₁ d' hmore hround hrest ih =>
    by_cases heq : d₀.editor.index = x
    · exact ⟨d₀, d₁, .refl _, heq, hround, hrest⟩
    · have hmore' := hmore
      rw [atEnd_eq hwhole hopen.1, beq_eq_false_iff_ne] at hmore'
      have hstrides := round_strides hwhole hc (by omega) (by have := hopen.1; omega) hopen hround
      obtain ⟨d₂, d₃, hfirst, hindex, hround', hlast⟩ :=
        ih hstrides.opened (hstrides.firm x hx (by omega)) hlt
      exact ⟨d₂, d₃, .step hmore hround hfirst, hindex, hround', hlast⟩

end Rounds

end

end Downlevel.Lowering
