import Downlevel.Proofs.Compile.Linked
import Downlevel.Proofs.Compile.Yields

/-!
# Imports and exports at the top level

Each import and export that begins with its word is rewritten, and its word is not left
(`module_statements_rewritten`): the walk comes to the statement (`Yields.statement`), and since the
notes are of tokens in their order, no other note is of its first token. A statement that begins
with decorators is not found at its word, and so the word stays (`decorated_export_left`), and the
module of an import is not required (`decorated_import_not_loaded`). The word `from` in the braces
of an export is taken for the one before a module, and so a name that is exported under it is lost
(`export_named_from_lost`).
-/

namespace Downlevel.Compile

open Token (At Sided)
open Lowering (Rewritten inserted nested)

variable {text : List Char} {options : CompileOptions} {stream : TokenStream}
  {d d₁ d₂ : Lowering.Draft} {out : Compiled} {st : Statement}

/-! ## Visits of statements -/

/-- Among the notes in `log` are those of what becomes of a statement. -/
structure Restated (c : Lowering.Scene) (st : Statement) (log : List Edit) (loaded : List String)
    (before notes after : List Edit) : Prop where
  log : log = before ++ notes ++ after
  rewritten : Rewritten c (nested (2 * c.sheet.tokens.size + 1)) loaded st notes

/-- The round that begins at an import or export adds what becomes of it. -/
theorem statement_round (hparse : parse text options.dialect = .ok (.ok stream))
    (hregular : Regular text stream options) (himports : Transform.imports ∈ options.transforms)
    (hst : st ∈ stream.statements.toList) (hmodule : st.kind.OfModule)
    (hplain : ¬ At stream.tokens st.start .atSign) (hindex : d₁.editor.index = st.start)
    (hround : Lowering.round (prepare text stream options).1.knot
      (prepare text stream options).1 d₁ = .ok ((), d₂)) :
    ∃ notes code, d₂.editor.log.toList = d₁.editor.log.toList ++ notes ++ inserted code ∧
      Rewritten (prepare text stream options).1
        (nested (2 * (prepare text stream options).1.sheet.tokens.size + 1)) d₁.loaded st
        notes := by
  let c := (prepare text stream options).1
  obtain ⟨body, last, hwhole, hordered⟩ := prepare_ordered hparse hregular
  obtain ⟨f, hf, hmarked⟩ : ∃ f, Marking f ∧ c.sheet.tokens = stream.tokens.mapIdx f :=
    prepare_marked text stream options
  have hmem : st ∈ c.moduleStatements := mem_moduleStatements.mpr ⟨himports, hst, hmodule⟩
  have hle := hordered.le st hmem
  obtain ⟨hword, hside⟩ := parse_led hparse hst hmodule hplain
  have hwords : At c.sheet.tokens st.start .kwImport ∨ At c.sheet.tokens st.start .kwExport := by
    rw [hmarked, hf.at_iff, hf.at_iff]
    unfold Grammar.wordOf at hword
    split at hword
    · exact .inl hword
    · exact .inr hword
  have hnext : st.kind = .exportDefault → st.start + 1 < body.size := by
    intro hdefault
    rw [Grammar.wordOf, if_neg (by simp [hdefault])] at hword
    have := parse_wide hparse hst hdefault hword
    omega
  exact Lowering.round_rewritten hwhole hmodule (hordered.lt st hmem) hle hnext
    (moduleStatementAt?_prepare hparse himports hst hmodule) (hmarked ▸ hf.sided_iff.mpr hside)
    hwords hindex hround

/-- The walk comes to each import or export, and adds what becomes of it. -/
theorem Yields.statement (h : Yields text options stream d out)
    (hregular : Regular text stream options) (himports : Transform.imports ∈ options.transforms)
    (hst : st ∈ stream.statements.toList) (hmodule : st.kind.OfModule)
    (hplain : ¬ At stream.tokens st.start .atSign) : ∃ loaded before notes after,
      Restated (prepare text stream options).1 st d.editor.log.toList loaded before notes
      after := by
  obtain ⟨d₁, d₂, hvisit⟩ := h.visit hregular hst
    (prepare_firm_of_module h.parsed hregular hst hmodule hplain)
  obtain ⟨notes, code, hlog, hrewritten⟩ :=
    statement_round h.parsed hregular himports hst hmodule hplain hvisit.index hvisit.round
  obtain ⟨after, hafter⟩ := hvisit.after.later.editor.log
  exact ⟨_, _, notes, inserted code ++ after,
    by rw [← hafter, hlog, List.append_assoc], hrewritten⟩

theorem Yields.ascending (h : Yields text options stream d out) :
    Edit.Ascending d.editor.index d.editor.log.toList := by
  obtain ⟨-, body, last, hwhole⟩ := prepare_whole h.parsed
  obtain ⟨hrounds, -⟩ := Lowering.rounds_of_snippet h.lowered
  cases hrounds.ready hwhole (Editor.Calm.ready Editor.calm_empty) with
  | calm h => exact h.ascending
  | pending _ _ h => exact h.ascending

/-- The first note of what becomes of a statement replaces its first token. -/
theorem Rewritten.head {c : Lowering.Scene} {k : Lowering.Knot} {loaded : List String}
    {notes : List Edit}
    (h : Rewritten c k loaded st notes) : ∃ code lead marks trim rest,
      notes = .token st.start (.replace code) lead marks trim :: rest := by
  cases h with
  | required lead marks trim | listed lead marks trim | declared lead marks trim
  | named lead marks trim | default lead marks trim => exact ⟨_, lead, marks, trim, _, rfl⟩

/-! ## Words that go -/

/-- A snippet is compiled, and in its notes each import and export that begins with its word is
rewritten: to the code for its module, to assignments, or to nothing. The word itself is never
copied. -/
theorem module_statements_rewritten (hparse : parse text options.dialect = .ok (.ok stream))
    (hregular : Regular text stream options) (himports : Transform.imports ∈ options.transforms) :
    ∃ d out, Yields text options stream d out ∧
      ∀ st ∈ stream.statements.toList, st.kind.OfModule → ¬ At stream.tokens st.start .atSign →
        At stream.tokens st.start (Grammar.wordOf st.kind) ∧
        (∃ loaded before notes after, d.editor.log.toList = before ++ notes ++ after ∧
          Rewritten (prepare text stream options).1
            (nested (2 * (prepare text stream options).1.sheet.tokens.size + 1)) loaded st notes) ∧
        ∀ e ∈ d.editor.log.toList, e.token? = some st.start →
          ∃ code lead marks trim, e = .token st.start (.replace code) lead marks trim := by
  obtain ⟨d, out, h⟩ := exists_yields hparse hregular
  refine ⟨d, out, h, fun st hst hmodule hplain => ?_⟩
  obtain ⟨loaded, before, notes, after, hlog, hrewritten⟩ :=
    h.statement hregular himports hst hmodule hplain
  refine ⟨(parse_led hparse hst hmodule hplain).1, ⟨_, _, _, _, hlog, hrewritten⟩,
    fun e he hindex => ?_⟩
  -- the note that replaces the word is the only one of its token
  obtain ⟨code, lead, marks, trim, rest, rfl⟩ := Rewritten.head hrewritten
  have hmem : Edit.token st.start (.replace code) lead marks trim ∈ d.editor.log.toList := by
    rw [hlog]
    simp
  exact ⟨code, lead, marks, trim, h.ascending.eq_of_token? he hmem hindex rfl⟩

/-- A class with its word after an import: the second statement begins at token 7. -/
theorem module_statements_rewritten_class :
    let text := "import \x7b a \x7d from 'm'; export class B extends a \x7b\x7d".toList
    let options : CompileOptions := { transforms := [.imports] }
    ∃ stream d out, Yields text options stream d out ∧ At stream.tokens 7 .kwExport ∧
      ∀ e ∈ d.editor.log.toList, e.token? = some 7 →
        ∃ code lead marks trim, e = .token 7 (.replace code) lead marks trim := by
  intro text options
  obtain ⟨stream, hparse, st, hst, hstart, hmodule, hword, hplain⟩ : ∃ stream,
      parse text options.dialect = .ok (.ok stream) ∧
      ∃ st ∈ stream.statements.toList, st.start = 7 ∧ st.kind.OfModule ∧
        At stream.tokens st.start .kwExport ∧ ¬ At stream.tokens st.start .atSign :=
    exists_accepted (by decide +kernel)
  obtain ⟨d, out, hyields, hall⟩ := module_statements_rewritten hparse
    (.of_untyped (by decide) fun hjsx => absurd hjsx (by decide)) (by decide)
  obtain ⟨-, -, hnotes⟩ := hall st hst hmodule hplain
  rw [hstart] at hnotes hword
  exact ⟨stream, d, out, hyields, hword, hnotes⟩

/-- The word of a decorated export is copied. -/
theorem decorated_export_left : ¬ ∀ (text : List Char) (options : CompileOptions)
    (stream : TokenStream) (d : Lowering.Draft) (out : Compiled) (st : Statement),
    Yields text options stream d out → Transform.imports ∈ options.transforms →
    st ∈ stream.statements.toList → st.kind.OfModule → At stream.tokens st.start .atSign →
    At stream.tokens (st.start + 1) .name →
    At stream.tokens (st.start + 2) (Grammar.wordOf st.kind) →
    Edit.copied (st.start + 2) ∉ d.editor.log.toList := by
  intro h
  obtain ⟨stream, d, out, hyields, st, hst, hmodule, hsign, hname, hword, hcopied⟩ :
      ∃ stream d out,
      Yields "@dec export class A \x7b\x7d".toList { transforms := [.imports] } stream d out ∧
      ∃ st ∈ stream.statements.toList, st.kind.OfModule ∧ At stream.tokens st.start .atSign ∧
        At stream.tokens (st.start + 1) .name ∧
        At stream.tokens (st.start + 2) (Grammar.wordOf st.kind) ∧
        Edit.copied (st.start + 2) ∈ d.editor.log.toList :=
    exists_yielded (by decide +kernel)
  exact h _ _ stream d out st hyields (by decide) hst hmodule hsign hname hword hcopied

/-- The code of a module that is listed may be missing. -/
theorem decorated_import_not_loaded : ¬ ∀ (text : List Char) (options : CompileOptions)
    (out : Compiled), Transform.imports ∈ options.transforms → options.removeImports = false →
    compile text options = .ok out → ∀ r ∈ out.imports, r.code.toList <:+: out.code.toList := by
  intro h
  obtain ⟨out, hcompile, r, hr, hlost⟩ : ∃ out,
      compile "@dec import x from 'y';".toList { transforms := [.imports] } = .ok out ∧
        ∃ r ∈ out.imports, ¬ r.code.toList <:+: out.code.toList :=
    exists_compiled (by decide +kernel)
  exact hlost (h _ _ out (by decide) rfl hcompile r hr)

/-- A name that is exported may be lost. -/
theorem export_named_from_lost : ¬ ∀ (text : List Char) (options : CompileOptions)
    (stream : TokenStream) (out : Compiled), parse text options.dialect = .ok (.ok stream) →
    Transform.imports ∈ options.transforms → options.removeImports = false →
    compile text options = .ok out → ∀ name ∈ (surveyOf text stream options).exported,
      (member "exports" name).toList <:+: out.code.toList ∨
        (Text.quoted name).toList <:+: out.code.toList := by
  intro h
  let text := "const from = 1;\nexport \x7b from \x7d;".toList
  obtain ⟨stream, d, out, hyields, name, hname, hlost, hquoted⟩ : ∃ stream d out,
      Yields text { transforms := [.imports] } stream d out ∧
      ∃ name ∈ (surveyOf text stream { transforms := [.imports] }).exported,
        ¬ (member "exports" name).toList <:+: out.code.toList ∧
        ¬ (Text.quoted name).toList <:+: out.code.toList :=
    exists_yielded (by decide +kernel)
  rcases h _ _ stream out hyields.parsed (by decide) rfl hyields.compile name hname with hfound |
    hfound
  · exact hlost hfound
  · exact hquoted hfound

end Downlevel.Compile
