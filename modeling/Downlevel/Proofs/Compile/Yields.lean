import Downlevel.Proofs.Compile.Prepared
import Downlevel.Proofs.Lowering.Rewritten

/-!
# What a snippet is lowered to

A snippet that is compiled is lowered to a draft, the notes of which are rendered (`Yields`). All
that is regular is compiled (`exists_yields`). In the notes every import and export that begins with
its word is rewritten (`Yields.statement`).
-/

namespace Downlevel.Compile

open Token (At Sided)
open Lowering (Draft Rounds Rewritten)

/-- A snippet that is read as `stream` is lowered to the draft `d` and compiled to `out`. -/
structure Yields (text : List Char) (options : CompileOptions) (stream : TokenStream)
    (d : Draft) (out : Compiled) : Prop where
  parsed : parse text options.dialect = .ok (.ok stream)
  lowered : Lowering.snippet (prepare text stream options).1 (prepare text stream options).2 =
    .ok ((), d)
  rendered : ∃ rendering, d.editor.finish (prepare text stream options).1.sheet = .ok rendering ∧
    out = assemble text options (prepare text stream options).1 d rendering

variable {text : List Char} {options : CompileOptions} {stream : TokenStream}
  {d : Draft} {out : Compiled}

theorem Yields.compile (h : Yields text options stream d out) :
    Downlevel.compile text options = .ok out := by
  obtain ⟨rendering, hfinish, hout⟩ := h.rendered
  exact compile_eq_ok_iff.mpr ⟨stream, d, rendering, h.parsed, h.lowered, hfinish, hout⟩

/-- What a snippet is read as, lowered to and compiled to, if it is. -/
def yielded? (text : List Char) (options : CompileOptions) :
    Option (TokenStream × Draft × Compiled) :=
  (accepted? text options.dialect).bind fun stream =>
    (Lowering.snippet (prepare text stream options).1 (prepare text stream options).2).toOption.bind
      fun lowered =>
        (lowered.2.editor.finish (prepare text stream options).1.sheet).toOption.map
          fun rendering =>
          (stream, lowered.2,
            assemble text options (prepare text stream options).1 lowered.2 rendering)

theorem yielded?_eq_some_iff :
    yielded? text options = some (stream, d, out) ↔ Yields text options stream d out := by
  simp only [yielded?, Option.bind_eq_some_iff, Option.map_eq_some_iff, toOption_eq_some_iff,
    accepted?_eq_some_iff]
  constructor
  · rintro ⟨_, hparse, ⟨_, _⟩, hlowered, rendering, hfinish, ⟨⟩⟩
    exact ⟨hparse, hlowered, rendering, hfinish, rfl⟩
  · rintro ⟨hparse, hlowered, rendering, hfinish, rfl⟩
    exact ⟨stream, hparse, ((), d), hlowered, rendering, hfinish, rfl⟩

/-- A fact about what a fixed snippet is compiled to is computed from the snippet. -/
theorem exists_yielded {P : TokenStream → Draft → Compiled → Prop}
    [∀ stream d out, Decidable (P stream d out)]
    (h : (yielded? text options).any (fun y => P y.1 y.2.1 y.2.2) = true) :
    ∃ stream d out, Yields text options stream d out ∧ P stream d out := by
  obtain ⟨⟨stream, d, out⟩, hyields, hP⟩ := (Option.any_eq_true ..).mp h
  exact ⟨stream, d, out, yielded?_eq_some_iff.mp hyields, of_decide_eq_true hP⟩

theorem exists_yields (hparse : parse text options.dialect = .ok (.ok stream))
    (hregular : Regular text stream options) : ∃ d out, Yields text options stream d out := by
  obtain ⟨body, last, hwhole, hordered⟩ := prepare_ordered hparse hregular
  obtain ⟨_, d, hrun, -, hindex⟩ := Lowering.snippet_passes hwhole hordered
    (prepare text stream options).2 rfl
  have hend : d.editor.atEnd (prepare text stream options).1.sheet = true := by
    rw [Lowering.atEnd_eq hwhole (Nat.le_of_eq hindex), hindex]
    exact beq_self_eq_true _
  obtain ⟨rendering, hfinish⟩ : ∃ rendering,
      d.editor.finish (prepare text stream options).1.sheet = .ok rendering := by
    rw [Editor.finish, if_pos hend]
    exact ⟨_, rfl⟩
  exact ⟨d, _, hparse, hrun, rendering, hfinish, rfl⟩

/-! ## Visits -/

theorem prepare_size (text : List Char) (stream : TokenStream) (options : CompileOptions) :
    (prepare text stream options).1.sheet.tokens.size = stream.tokens.size := by
  obtain ⟨f, -, hsheet⟩ := prepare_tokens text stream options
  rw [hsheet]
  exact Array.size_mapIdx

/-- A round of the walk from `d₀` to `d` begins at a statement, and leads from `d₁` to `d₂`. -/
structure Visit (c : Lowering.Scene) (st : Statement) (d₀ d₁ d₂ d : Draft) : Prop where
  before : Rounds c c.knot d₀ d₁
  index : d₁.editor.index = st.start
  round : Lowering.round c.knot c d₁ = .ok ((), d₂)
  after : Rounds c c.knot d₂ d

theorem moduleStatementAt?_prepare (hparse : parse text options.dialect = .ok (.ok stream))
    (himports : Transform.imports ∈ options.transforms) {st : Statement}
    (hst : st ∈ stream.statements.toList) (hmodule : st.kind.OfModule) :
    (prepare text stream options).1.moduleStatementAt? st.start = some st := by
  have hmem : st ∈ (prepare text stream options).1.moduleStatements :=
    mem_moduleStatements.mpr ⟨himports, hst, hmodule⟩
  obtain ⟨st', hfound⟩ : ∃ st', (prepare text stream options).1.moduleStatementAt? st.start =
      some st' := by
    refine Option.ne_none_iff_exists'.mp fun hnone => ?_
    have := List.find?_eq_none.mp hnone st hmem
    simp at this
  obtain ⟨hmem', hstart⟩ := Lowering.moduleStatementAt?_eq_some hfound
  rw [hfound, (parse_outlines hparse).eq_of_start st' (mem_moduleStatements.mp hmem').2.1 st hst
    hstart]

/-- Some round begins at each firm place. -/
theorem Yields.visit (h : Yields text options stream d out) (hregular : Regular text stream options)
    {st : Statement} (hst : st ∈ stream.statements.toList)
    (hfirm : (prepare text stream options).1.Firm st.start) : ∃ d₁ d₂,
      Visit (prepare text stream options).1 st (prepare text stream options).2 d₁ d₂ d := by
  obtain ⟨body, last, hwhole, hordered⟩ := prepare_ordered h.parsed hregular
  obtain ⟨hrounds, hend⟩ := Lowering.rounds_of_snippet h.lowered
  have hopen : (prepare text stream options).1.Open body.size
      (prepare text stream options).2.editor.index := Lowering.open_start
  have hopen' := hrounds.opened hwhole hordered hopen
  rw [Lowering.atEnd_eq hwhole hopen'.1, beq_iff_eq] at hend
  have hlt : st.start < d.editor.index := by
    obtain ⟨-, hlt, hle⟩ := (parse_outlines h.parsed).bounds.2 st hst
    have hsize := hwhole.size_tokens
    rw [prepare_size] at hsize
    omega
  obtain ⟨d₁, d₂, hbefore, hindex, hround, hafter⟩ :=
    hrounds.visit hwhole hordered hfirm hopen (Nat.zero_le _) hlt
  exact ⟨d₁, d₂, hbefore, hindex, hround, hafter⟩

end Downlevel.Compile
