import Downlevel.Proofs.Compile.Ending
import Downlevel.Proofs.Compile.Yields
import Downlevel.Report.Diagnostic

/-!
# Where errors are

Every error of a text lies in it, and so does what the author is told (`compile_error_located`). An
error of the grammar is found where the cursor stands, or where the tag that it is about begins, and
an error of lowering at a token. Of the errors that a parse raises the first is reported. Those that
it raised in what it tried and gave up are not among them (`Records`).
-/

namespace Downlevel

open Compile Grammar
open Text (Place)

variable {text : List Char} {options : CompileOptions} {e : CompileError}

/-- What is raised from the beginning of the text to where a parse ends. -/
theorem Grammar.program_raises {ctx : Context} {t : State} {n : Nat} {statements : Array Statement}
    (hrun : program (grammar n) ctx (.first ctx.source) = .ok (statements, t)) :
    (Cursor.before ctx.source.text).Raises ctx.source.text t.cursor := by
  obtain ⟨_, _, ⟨⟩, hrest⟩ := bind_ok hrun
  obtain ⟨found, u, hstatements, hrest⟩ := bind_ok hrest
  have hcourse := ((topLevel_keepsAt ctx n).above found u hstatements).course
  cases hrest
  have hfirst : (Cursor.before ctx.source.text).Raises ctx.source.text
      ((Cursor.before ctx.source.text).advance ctx.source .code) :=
    Cursor.advance_raises (Text.Point.first_in _)
  exact hfirst.trans (hcourse.raises (first_poised ctx.source))

/-- The parse of the text ends, and of the errors that were raised by then and not undone the error
is the first. -/
def FirstError (text : List Char) (dialect : Dialect) (e : SyntaxError) : Prop :=
  ∃ statements t, program (grammar (nestingBudget text.length)) (.of text dialect)
      (.first ⟨text, dialect⟩) = .ok (statements, t) ∧ t.cursor.raised.head? = some e

/-- Which errors are undone while a text is read: those of what was tried and given up, or tried
only to look ahead, and no others. -/
structure Grammar.Records (text : List Char) (dialect : Dialect) : Prop where
  rule : ∀ {n : Nat} {r : Rule} {s t : State} {a : r.Result}, r.Within 0 s.tokens.size →
    grammar n r (.of text dialect) s = .ok (a, t) → s.cursor.Poised text →
      s.cursor.Raises text t.cursor
  attempt : ∀ {p : Parser Bool} {s t : State},
    Grammar.attempt p (.of text dialect) s = .ok (false, t) → t.cursor = s.cursor
  peek : ∀ {α : Type} {p : Parser α} {a : α} {s t : State},
    Grammar.peek p (.of text dialect) s = .ok (a, t) → t.cursor = s.cursor

theorem Grammar.records (text : List Char) (dialect : Dialect) : Records text dialect where
  rule hr hrun hs := (rule_above hr hrun).course.raises hs
  attempt hrun := by
    obtain ⟨_, _, ⟨⟩, hrest⟩ := bind_ok hrun
    obtain ⟨b, u, -, hrest⟩ := bind_ok hrest
    cases b with
    | true => cases hrest
    | false =>
      cases hrest
      rfl
  peek hrun := by
    obtain ⟨_, _, ⟨⟩, hrest⟩ := bind_ok hrun
    obtain ⟨_, u, -, hrest⟩ := bind_ok hrest
    cases hrest
    rfl

theorem parse_error {dialect : Dialect} {e : SyntaxError}
    (h : parse text dialect = .ok (.error e)) : e.span.Fits text ∧ FirstError text dialect e := by
  unfold parse tokenize at h
  obtain ⟨stream, htokens, hstream⟩ := bind_eq_ok_iff.mp h
  obtain ⟨⟨statements, t⟩, hrun, ⟨⟩⟩ := bind_eq_ok_iff.mp htokens
  have herror : t.cursor.error = some e := by
    cases herror : t.cursor.error with
    | none => simp [herror, pure, Except.pure] at hstream
    | some e' =>
      simp only [herror] at hstream
      cases hstream
      rfl
  obtain ⟨errors, hraised, hfirst, hfits⟩ := program_raises hrun
  replace hraised : t.cursor.raised = errors := hraised
  replace hfirst : t.cursor.error = errors.head? := hfirst
  have hhead : errors.head? = some e := hfirst.symm.trans herror
  exact ⟨hfits e (List.mem_of_mem_head? hhead), statements, t, hrun, hraised ▸ hhead⟩

theorem fits_of_blames {stream : TokenStream}
    (hparse : parse text options.dialect = .ok (.ok stream))
    (h : (prepare text stream options).1.Blames (.error e)) : e.span.Fits text := by
  obtain ⟨htext, body, last, hwhole⟩ := prepare_whole hparse
  obtain ⟨_, offset, ⟨⟩, hoffset⟩ := h
  have hplace : Place text offset := by
    rcases hoffset with rfl | ⟨t, ht, rfl⟩
    · exact .zero text
    · rw [hwhole.tokens] at ht
      rcases Array.mem_push.mp ht with ht | rfl
      · obtain ⟨i, hi⟩ := Array.mem_iff_getElem?.mp ht
        exact htext ▸ (hwhole.tiled.fits hi).start
      · rw [hwhole.span, htext]
        exact .end text
  exact ⟨hplace, hplace, Nat.le_refl _⟩

theorem blames_of_finish {c : Lowering.Scene} {editor : Editor}
    (h : (editor.finish c.sheet).mapError Halt.error = .error (.error e)) :
    c.Blames (.error e) := by
  unfold Editor.finish at h
  split at h
  · cases h
  · cases h
    exact c.blames_broken ..

/-- An error is one of the grammar, or one of lowering what was read. -/
theorem compile_error (h : compile text options = .error (.error e)) :
    e.span.Fits text ∧ ∀ s, e = .invalid s → FirstError text options.dialect s := by
  unfold compile at h
  rcases bind_eq_error_iff.mp h with hparse | ⟨read, hparse, hcompile⟩
  · cases hread : parse text options.dialect <;> rw [hread] at hparse <;> cases hparse
  replace hparse : parse text options.dialect = .ok read := by
    cases hread : parse text options.dialect <;> rw [hread] at hparse <;> cases hparse
    rfl
  cases read with
  | error s =>
    cases hcompile
    obtain ⟨hfits, hfirst⟩ := parse_error hparse
    refine ⟨hfits, ?_⟩
    rintro _ ⟨⟩
    exact hfirst
  | ok stream =>
    have hblames : (prepare text stream options).1.Blames (.error e) := by
      rcases bind_eq_error_iff.mp hcompile with hrun | ⟨⟨_, d⟩, -, hcompile⟩
      · exact lowering_blames hparse hrun
      rcases bind_eq_error_iff.mp hcompile with hfinish | ⟨rendering, -, hrest⟩
      · exact blames_of_finish hfinish
      · cases hrest
    refine ⟨fits_of_blames hparse hblames, ?_⟩
    rintro _ rfl
    obtain ⟨_, _, ⟨⟩, -⟩ := hblames

/-- An error of a text with offsets of 32 bits lies in it, and its author is told the line and
column at which it begins. If it is one of the grammar, it is the first that was raised and not
undone. -/
theorem compile_error_located (hsize : Text.size text ≤ Span.maxOffset)
    (h : compile text options = .error (.error e)) :
    (Place text e.span.start ∧ Place text e.span.stop ∧ e.span.start ≤ e.span.stop ∧
      e.span.stop ≤ Text.size text ∧ e.span.Exact) ∧
    (∃ before rest, text = before ++ rest ∧ Text.size before = e.span.start ∧
      e.position? text = some (Text.positionOf before) ∧
      (Diagnostic.ofCompileError text e).location =
        some ⟨(Text.positionOf before).line + 1, (Text.positionOf before).column⟩ ∧
      (Diagnostic.ofCompileError text e).span = some e.span) ∧
    (∀ s, e = .invalid s → e.span = s.span ∧ FirstError text options.dialect s) ∧
    (∀ invariant offset, e = .broken invariant offset → e.span = ⟨offset, offset⟩) ∧
    Records text options.dialect := by
  obtain ⟨hfits, hfirst⟩ := compile_error h
  refine ⟨⟨hfits.start, hfits.stop, hfits.le, hfits.stop.le_size, hfits.exact hsize⟩, ?_, ?_, ?_,
    records text options.dialect⟩
  · obtain ⟨before, rest, rfl, hbefore⟩ := hfits.start
    have hposition : e.position? (before ++ rest) = some (Text.positionOf before) := by
      rw [CompileError.position?, CompileError.offset, ← hbefore]
      exact Text.LineIndex.position?_place before rest
    exact ⟨before, rest, rfl, hbefore, hposition, congrArg (Option.map _) hposition, rfl⟩
  · rintro s rfl
    exact ⟨rfl, hfirst s rfl⟩
  · rintro invariant offset rfl
    rfl

theorem compile_of_tokenize {e : SyntaxError}
    (h : (tokenize text options.dialect).toOption.bind (·.error) = some e) :
    compile text options = .error (.error (.invalid e)) := by
  obtain ⟨stream, hstream, herror⟩ := Option.bind_eq_some_iff.mp h
  unfold compile parse
  rw [toOption_eq_some_iff.mp hstream]
  simp only [bind, Except.bind, pure, Except.pure, herror, Except.mapError]
  rfl

/-- The parentheses are first taken for the parameters of a function, which is given up at `1`. -/
theorem compile_error_located_string :
    compile "(é, 1) + 'x".toList {} =
      .error (.error (.invalid ⟨.unterminatedString, ⟨10, 12⟩⟩)) ∧
    FirstError "(é, 1) + 'x".toList (CompileOptions.dialect {})
      ⟨.unterminatedString, ⟨10, 12⟩⟩ := by
  have h : compile "(é, 1) + 'x".toList {} =
    .error (.error (.invalid ⟨.unterminatedString, ⟨10, 12⟩⟩)) :=
      compile_of_tokenize (by decide +kernel)
  exact ⟨h, ((compile_error_located (by decide +kernel) h).2.2.1 _ rfl).2⟩

end Downlevel
