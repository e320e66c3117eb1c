import Downlevel.Proofs.Compile.Steps
import Downlevel.Proofs.Lowering.ErasureEnd

/-!
# Snippets that stay as they are

Without types, without imports and exports and with elements preserved, no part of lowering has a
use for a token (`Lowering.Scene.Idle`), so that each is copied and the compiled code is the snippet
itself (`compile_eq_self`).
-/

namespace Downlevel

variable {stream : TokenStream} {options : CompileOptions} {text : List Char}

/-! ## Tokens before the end -/

/-- The tokens of a stream before the end of the input. -/
def TokenStream.before (stream : TokenStream) : List Token :=
  stream.tokens.toList.takeWhile (·.kind != .eof)

theorem TokenStream.before_eq {s : Sheet} {body : Array Token} {last : Token}
    (h : s.Whole body last) (htokens : stream.tokens = s.tokens) : stream.before = body.toList := by
  have hbody : ∀ t ∈ body.toList, (t.kind != .eof) = true := by
    intro t ht
    obtain ⟨i, hi, rfl⟩ := List.getElem_of_mem ht
    have hkind := (h.fits (show i < body.size by simpa using hi)).notEnd
    simpa using hkind
  rw [before, htokens, h.tokens, Array.toList_push, List.takeWhile_append_of_pos hbody]
  simp [h.ended]

/-! ## Lowering with nothing to do -/

namespace Lowering

variable {α β : Type} {c : Scene} {d d' : Draft}

/-- The step `p` takes the draft `d` to `d'` and answers `a`. -/
def Yields (c : Scene) (d : Draft) (p : Lowering α) (a : α) (d' : Draft) : Prop :=
  p c d = .ok (a, d')

theorem Yields.bind {p : Lowering α} {g : α → Lowering β} {a : α} {b : β} {d'' : Draft}
    (hp : Yields c d p a d') (hg : Yields c d' (g a) b d'') : Yields c d (p >>= g) b d'' := by
  show (p c d >>= fun q => g q.1 c q.2) = _
  rw [show p c d = .ok (a, d') from hp]
  exact hg

theorem Yields.look {p : Lowering α} {g : α → Lowering β} (a : α) {b : β} (hp : p c d = .ok (a, d))
    (hg : Yields c d (g a) b d') : Yields c d (p >>= g) b d' := .bind hp hg

/-- No part of lowering has a use for a token that belongs to no type. -/
structure Scene.Idle (c : Scene) : Prop where
  pragmas : c.pragmas = none
  moduleStatements : c.moduleStatements = []
  enumeration : ∀ index, (c.options.has .typescript && isEnumerationAt c.sheet index) = false
  replacement : ∀ name, c.replacement? name = none

namespace Scene.Idle

variable (h : c.Idle)
include h

theorem nameCode?_eq_none (index : Nat) : c.nameCode? index = none := by
  simp [nameCode?, h.replacement]

theorem name_yields : Yields c d name () { d with editor := d.editor.copy c.sheet } := by
  refine .look c rfl (.look d.editor.index rfl ?_)
  rw [h.nameCode?_eq_none]
  rfl

theorem valueToken_yields (k : Knot) (t : Token) :
    Yields c d (valueToken k t) () { d with editor := d.editor.copy c.sheet } := by
  refine .look c rfl (.look d.editor.index rfl ?_)
  rw [h.pragmas, h.enumeration, moduleStatementAt?, h.moduleStatements]
  split
  · rfl
  · rfl
  · rfl
  iterate 2
    · rw [if_neg Bool.false_ne_true]
      split
      · exact h.name_yields
      · rfl
  · exact h.name_yields
  · rfl

/-- A token is copied, unless it belongs to a type or stands before one. -/
theorem token_yields (k : Knot) (ht : (d.editor.current c.sheet).isType = false)
    (harrow : arrowAfterType? c.sheet d.editor.index = none) :
    Yields c d (token k) () { d with editor := d.editor.copy c.sheet } := by
  refine .look (d.editor.current c.sheet) rfl ?_
  rw [ht, if_neg Bool.false_ne_true]
  refine .look c.sheet rfl (.look d.editor.index rfl ?_)
  rw [harrow]
  exact h.valueToken_yields k _

end Scene.Idle

section Loop

variable {body : Array Token} {last : Token} (h : c.Idle)
  (huntyped : ∀ t ∈ c.sheet.tokens, t.isType = false) (hwhole : c.sheet.Whole body last)
include h huntyped hwhole

omit h in
theorem isType_current {e : Editor} : (e.current c.sheet).isType = false := by
  unfold Editor.current
  cases htoken : c.sheet.token? e.index with
  | some t => exact huntyped t (Array.mem_of_getElem? htoken)
  | none =>
    rw [Option.none_or, hwhole.tokens, Array.back?_push]
    apply huntyped
    rw [hwhole.tokens]
    exact Array.mem_push_self

omit h huntyped in
/-- A loop that copies a token each time goes on to the end of the input. -/
theorem whileBounded_yields {step : Lowering Unit} {m n : Nat} (hn : n ≤ body.size)
    (hm : body.size - n < m)
    (hstep : ∀ i < body.size, Yields c { d with editor := .copied i } step ()
      { d with editor := .copied (i + 1) }) :
    Yields c { d with editor := .copied n } (whileBounded (return !(← atEnd)) step m) ()
      { d with editor := .copied body.size } := by
  induction m generalizing n with
  | zero => omega
  | succ m ih =>
    refine .look (!(n == body.size)) ?_ ?_
    · rw [← hwhole.atEnd_copied hn]
      rfl
    split
    · rename_i hne
      have hlt : n < body.size := by
        simp only [Bool.not_eq_true', beq_eq_false_iff_ne] at hne
        omega
      exact .bind (hstep n hlt) (ih hlt (by omega))
    · rename_i heq
      simp only [Bool.not_eq_true', Bool.not_eq_false, beq_iff_eq] at heq
      rw [heq]
      rfl

section

variable (hwrapping : d.wrapping = .off)
include hwrapping

omit h huntyped hwhole in
theorem openWrap_yields : Yields c d openWrap () d := by
  refine .look d rfl ?_
  rw [hwrapping]
  rfl

omit h huntyped hwhole in
theorem closeWrap_yields : Yields c d closeWrap () d := by
  refine .look d rfl ?_
  rw [hwrapping]
  rfl

theorem snippet_yields :
    Yields c { d with editor := {} } snippet () { d with editor := .copied body.size } := by
  refine .look (c.sheet.tokens.size + 1) rfl (.look (c.sheet.tokens.size + 1) rfl ?_)
  refine whileBounded_yields hwhole (Nat.zero_le _) ?_ fun i hi => ?_
  · rw [hwhole.size_tokens]
    omega
  refine .bind (openWrap_yields hwrapping) (.bind (a := ()) ?_ (closeWrap_yields hwrapping))
  rw [← hwhole.copy_copied hi]
  exact h.token_yields _ (isType_current huntyped hwhole) (arrowAfterType?_of_untyped huntyped _)

end

end Loop

end Lowering

/-! ## Compiling with nothing to do -/

namespace Compile

/-- The statement is no import and no export. -/
def Inward (c : Statement) : Prop :=
  c.kind ≠ .importStatement ∧ c.kind ≠ .exportStatement ∧ c.kind ≠ .exportDefault

instance (c : Statement) : Decidable (Inward c) := inferInstanceAs (Decidable (_ ∧ _))

theorem survey_eq_empty {options : SurveyOptions} (h : ∀ c ∈ stream.statements, Inward c) :
    Survey.ofStream text stream options = {} := by
  have hfold : ∀ (f : Survey → Statement → Survey) (cs : List Statement),
      (∀ c ∈ cs, ∀ survey, f survey c = survey) → cs.foldl f {} = {} := by
    intro f cs
    induction cs with
    | nil => intro _; rfl
    | cons c cs ih =>
      intro hf
      rw [List.foldl_cons, hf c List.mem_cons_self]
      exact ih fun c hc => hf c (List.mem_cons_of_mem _ hc)
  unfold Survey.ofStream
  rw [← Array.foldl_toList]
  refine hfold _ _ fun c hc survey => ?_
  obtain ⟨himport, hexport, hdefault⟩ := h c (Array.mem_toList_iff.mp hc)
  split
  · contradiction
  · contradiction
  · contradiction
  · rfl

/-- Options under which only imports and exports are changed. -/
structure Preserving (options : CompileOptions) : Prop where
  typescript : Transform.typescript ∉ options.transforms
  flow : Transform.flow ∉ options.transforms
  wrapLastExpression : Transform.wrapLastExpression ∉ options.transforms
  jsx : Transform.jsx ∈ options.transforms → options.jsxRuntime = .preserve

theorem mark_nil (s : Sheet) (scopes : List Scope) : Shadow.mark s scopes [] = s.tokens := by
  simp [Shadow.mark, Shadow.regions]

/-- What lowering of a snippet with nothing to do starts with. -/
structure Unchanged (text : List Char) (stream : TokenStream) (c : Lowering.Scene)
    (d : Lowering.Draft) : Prop where
  sheet : c.sheet = ⟨text, stream.tokens⟩
  idle : c.Idle
  lead : lead c.linkage d.runtime = ""
  imports : requiredModules c.linkage d.runtime = []
  editor : d.editor = {}
  wrapping : d.wrapping = .off

theorem prepare_unchanged (text : List Char) (h : Preserving options)
    (hstatements : ∀ c ∈ stream.statements, Inward c) :
    Unchanged text stream (prepare text stream options).1 (prepare text stream options).2 := by
  have htypescript : options.has .typescript = false := by
    simpa [CompileOptions.has] using h.typescript
  have hwrap : options.has .wrapLastExpression = false := by
    simpa [CompileOptions.has] using h.wrapLastExpression
  have hjsx : (options.has .jsx && options.jsxRuntime != .preserve) = false := by
    simpa [CompileOptions.has] using h.jsx
  have hmodules : stream.statements.toList.filter (fun c =>
      c.kind == .importStatement || c.kind == .exportStatement || c.kind == .exportDefault) =
        [] := by
    rw [List.filter_eq_nil_iff]
    intro c hc
    obtain ⟨himport, hexport, hdefault⟩ := hstatements c (Array.mem_toList_iff.mp hc)
    simp [himport, hexport, hdefault]
  unfold prepare link
  simp only [survey_eq_empty hstatements, hwrap, hjsx, hmodules]
  cases options.has .imports with
  | false =>
    refine ⟨rfl, ⟨rfl, rfl, fun index => ?_, fun name => ?_⟩, rfl, rfl, rfl, rfl⟩
    · simp [htypescript]
    · simp [Lowering.Scene.replacement?]
  | true =>
    refine ⟨?_, ⟨rfl, rfl, fun index => ?_, fun name => ?_⟩, rfl, rfl, rfl, rfl⟩
    · exact congrArg (Sheet.mk text) (mark_nil _ _)
    · simp [htypescript]
    · show (if options.removeImports = true then none else none) = none
      split <;> rfl

/-- What a snippet that stays as it is is compiled to. -/
def unchanged (text : List Char) (stream : TokenStream) (options : CompileOptions) : Compiled :=
  { code := String.ofList text
    imports := []
    places := stream.before.map Token.place
    map := SourceMap.build (options.filePath.getD "snippet") none true text text
      (stream.before.map Token.place) }

theorem compile_of_inward (hparse : parse text options.dialect = .ok (.ok stream))
    (hoptions : Preserving options) (hstatements : ∀ c ∈ stream.statements, Inward c) :
    compile text options = .ok (unchanged text stream options) := by
  obtain ⟨body, last, htokens, hreads⟩ := parse_reads hparse
  have hwhole := Sheet.Whole.ofReads htokens hreads
  have htyped : options.dialect.typed = false := by
    simp [CompileOptions.dialect, Dialect.typed, CompileOptions.has, hoptions.typescript,
      hoptions.flow]
  have hprepare := prepare_unchanged text hoptions hstatements
  generalize hscene : prepare text stream options = prepared at hprepare
  obtain ⟨c, d⟩ := prepared
  have hsheet : c.sheet = ⟨text, stream.tokens⟩ := hprepare.sheet
  have huntyped : ∀ t ∈ c.sheet.tokens, t.isType = false := by
    rw [hsheet, htokens]
    exact hreads.untyped htyped
  rw [← hsheet] at hwhole
  have hrun := Lowering.snippet_yields hprepare.idle huntyped hwhole hprepare.wrapping
  rw [← hprepare.editor] at hrun
  refine compile_eq_ok_iff.mpr ⟨stream, { d with editor := .copied body.size },
    { code := String.ofList c.sheet.text, places := (body.toList.map Token.place).toArray },
    hparse, ?_⟩
  rw [hscene]
  refine ⟨hrun, hwhole.finish_copied, ?_⟩
  simp [unchanged, assemble, hprepare.lead, hprepare.imports, hsheet,
    TokenStream.before_eq hwhole (congrArg Sheet.tokens hsheet).symm]

end Compile

/-- An editor that copies every token renders the text. -/
theorem finish_copyAll {dialect : Dialect} (hparse : parse text dialect = .ok (.ok stream)) :
    (Editor.copyAll ⟨text, stream.tokens⟩ {}).finish ⟨text, stream.tokens⟩ = .ok {
      code := String.ofList text
      places := (stream.before.map Token.place).toArray } := by
  obtain ⟨body, last, htokens, hreads⟩ := parse_reads hparse
  have hwhole := Sheet.Whole.ofReads htokens hreads
  have hcopied : Editor.copyAll ⟨text, stream.tokens⟩ {} = .copied body.size := by
    refine hwhole.copyUpTo_copied (Nat.zero_le _) ?_
    rw [hwhole.size_tokens]
    omega
  rw [hcopied, hwhole.finish_copied, TokenStream.before_eq hwhole rfl]

end Downlevel
