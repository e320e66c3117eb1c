import Downlevel.Proofs.Compile.Yields
import Downlevel.Proofs.Grammar.Spelled
import Downlevel.Proofs.Markup.Attribute

/-!
# Values of attributes

A string that is the value of an attribute becomes one string literal of the compiled code. It has
the value that it has in markup, unless it is copied and there is a backslash or a carriage return
in it (`attribute_value_kept_iff`): `b="c\d"` stays as it is, and `\d` is an escape in a script
(`attribute_value_lost`).
-/

namespace Downlevel

open Token (At)
open Grammar (Assigns)
open Markup (Stands Holds)

/-! ## Lowering -/

namespace Lowering

variable {c : Scene} {d : Draft} {body : Array Token} {last : Token} {t : Token}

/-- What becomes of a string that is the value of an attribute. -/
def valueAction (literal : List Char) : Action :=
  (Markup.attributeLiteral? literal).elim .copy .replace

theorem code_valueAction (t : Token) (literal : List Char) :
    ((valueAction literal).render t literal).code.toList =
      (Markup.attributeLiteral? literal).elim literal String.toList := by
  unfold valueAction
  cases Markup.attributeLiteral? literal with
  | none => exact String.toList_ofList
  | some code =>
    show (if code.isEmpty then Rendering.plain "" else .mapped code t.span.start).code.toList =
      code.toList
    split
    · rename_i hempty
      rw [String.isEmpty_iff.mp hempty]
      rfl
    · rfl

theorem attributeValue_string (hwhole : c.sheet.Whole body last)
    (ht : c.sheet.tokens[d.editor.index]? = some t) (hkind : t.kind = .string) (k : Knot) :
    attributeValue k c d = .ok ((), { d with editor :=
      { index := d.editor.index + 1
        log := d.editor.log.push (.token d.editor.index (valueAction (t.text c.sheet.text))
          d.editor.lead d.editor.marks d.editor.trimNext) } }) := by
  have hi : d.editor.index < body.size := hwhole.lt_of_at ⟨t, ht, hkind⟩ (by decide)
  have hcurrent : (d.editor.current c.sheet).kind = .string := by
    rw [Editor.current_of ht, hkind]
  have htext : (d.editor.currentText c.sheet).toList = t.text c.sheet.text := by
    simp [Editor.currentText, Sheet.textAt, ht]
  unfold attributeValue
  rw [run_look _ rfl, hcurrent]
  dsimp only
  rw [run_look _ rfl, htext, valueAction]
  cases Markup.attributeLiteral? (t.text c.sheet.text) with
  | none => exact edit_eq hwhole hi .copy false
  | some code => exact edit_eq hwhole hi (.replace code) false

end Lowering

namespace Compile

open Lowering (Draft Knot nested)

variable {text : List Char} {options : CompileOptions} {stream : TokenStream} {i : Nat} {t : Token}

/-- The string at an index of a snippet, lowered as the value of an attribute. -/
theorem attributeValue_prepared (hparse : parse text options.dialect = .ok (.ok stream))
    (ht : stream.tokens[i]? = some t) (hstring : t.kind = .string) (k : Knot)
    {d : Draft} (hd : d.editor.index = i) :
    Lowering.attributeValue k (prepare text stream options).1 d = .ok ((), { d with editor :=
      { index := i + 1
        log := d.editor.log.push (.token i (Lowering.valueAction (t.text text)) d.editor.lead
          d.editor.marks d.editor.trimNext) } }) := by
  obtain ⟨f, hf, hsheet⟩ := prepare_tokens text stream options
  obtain ⟨hsame, body, last, hwhole⟩ := prepare_whole hparse
  have ht' : (prepare text stream options).1.sheet.tokens[d.editor.index]? = some (f i t) := by
    simp [hsheet, hd, ht]
  have htext : (f i t).text (prepare text stream options).1.sheet.text = t.text text := by
    rw [hsame, Token.text, hf.span]
    rfl
  have hrun := Lowering.attributeValue_string hwhole ht' ((hf.kind _ _).trans hstring) k
  rwa [htext, hd] at hrun

/-- What is written for a string that is the value of an attribute is one string literal, with line
feeds after it. It has the value that the text in the quotes stands for just if it is put in other
quotes, because of a line feed or a reference in it, or if there is neither a backslash nor a
carriage return in it. -/
theorem attribute_value_kept_iff (hparse : parse text options.dialect = .ok (.ok stream))
    (hassigns : Assigns stream.tokens i) (ht : stream.tokens[i + 2]? = some t)
    (hstring : t.kind = .string) :
    ∃ quote inner value, t.text text = quote :: (inner ++ [quote]) ∧ Stands inner value ∧
      ∀ (k : Knot) (d : Draft), d.editor.index = i + 2 → ∃ action d',
        Lowering.attributeValue k (prepare text stream options).1 d = .ok ((), d') ∧
        d'.editor.log = d.editor.log.push
          (.token (i + 2) action d.editor.lead d.editor.marks d.editor.trimNext) ∧
        (Holds (action.render t (t.text text)).code.toList value ↔
          '\n' ∈ inner ∨ '&' ∈ inner ∨ '\\' ∉ inner ∧ '\r' ∉ inner) := by
  obtain ⟨quote, inner, htext, hquote, hinner⟩ := parse_quotes hparse hassigns ht hstring
  refine ⟨quote, inner, _, htext, Markup.stands_attributeValue inner, fun k d hd => ?_⟩
  refine ⟨_, _, attributeValue_prepared hparse ht hstring k hd, rfl, ?_⟩
  rw [Lowering.code_valueAction, htext]
  cases hliteral : Markup.attributeLiteral? (quote :: (inner ++ [quote])) with
  | none =>
    obtain ⟨hfeed, href⟩ := Markup.attributeLiteral?_eq_none.mp hliteral
    have hcopied := Markup.copied_holds_iff hquote hinner hliteral
    simpa [hfeed, href] using hcopied
  | some code =>
    have hheld : Holds code.toList (Markup.attributeValue inner) :=
      Markup.attributeLiteral?_holds hliteral
    have hspecial : '\n' ∈ inner ∨ '&' ∈ inner := by
      by_contra hnone
      rw [not_or] at hnone
      rw [Markup.attributeLiteral?_eq_none.mpr hnone] at hliteral
      cases hliteral
    exact ⟨fun _ => hspecial.imp id .inl, fun _ => hheld⟩

/-- A backslash stays one where a line is folded and a reference decoded. -/
theorem attribute_value_kept_escaped :
    let text := "<a b='c\\d\n  \"&lt;' />".toList
    let options : CompileOptions := { transforms := [.jsx] }
    ∃ stream t, parse text options.dialect = .ok (.ok stream) ∧ stream.tokens[4]? = some t ∧
      ∀ (k : Knot) (d : Draft), d.editor.index = 4 →
        ∃ (action : Action) (d' : Draft),
        Lowering.attributeValue k (prepare text stream options).1 d = .ok ((), d') ∧
        Holds (action.render t (t.text text)).code.toList "c\\d \"<".toList := by
  intro text options
  obtain ⟨stream, hparse, hname, heq, t, ht, hstring, htext⟩ : ∃ stream,
      parse text options.dialect = .ok (.ok stream) ∧ At stream.tokens 2 .jsxName ∧
      At stream.tokens 3 .eq ∧ ∃ t ∈ stream.tokens[4]?, t.kind = .string ∧
        t.text text = '\'' :: ("c\\d\n  \"&lt;".toList ++ ['\'']) :=
    exists_accepted (by decide +kernel)
  refine ⟨stream, t, hparse, ht, fun k d hd => ?_⟩
  obtain ⟨quote, inner, value, hquoted, hstands, hall⟩ :=
    attribute_value_kept_iff hparse ⟨hname, heq⟩ ht hstring
  have hinner := congrArg Text.unquoted (htext.symm.trans hquoted)
  rw [Text.Literal.unquoted_literal, Text.Literal.unquoted_literal] at hinner
  subst hinner
  have hvalue : value = "c\\d \"<".toList := by
    rw [← hstands.eq]
    decide +kernel
  obtain ⟨action, d', hrun, -, hheld⟩ := hall k d hd
  rw [← hvalue]
  exact ⟨action, d', hrun, hheld.mpr (.inl (by decide))⟩

/-- A backslash that is copied begins an escape. -/
theorem attribute_value_lost : ¬ ∀ (text : List Char) (options : CompileOptions)
    (stream : TokenStream) (i : Nat) (t : Token) (inner value : List Char) (k : Knot)
    (d d' : Draft) (action : Action),
    parse text options.dialect = .ok (.ok stream) → Transform.jsx ∈ options.transforms →
    Assigns stream.tokens i → stream.tokens[i + 2]? = some t → t.kind = .string →
    inner = Text.unquoted (t.text text) → Stands inner value → d.editor.index = i + 2 →
    Lowering.attributeValue k (prepare text stream options).1 d = .ok ((), d') →
    d'.editor.log = d.editor.log.push
      (.token (i + 2) action d.editor.lead d.editor.marks d.editor.trimNext) →
    Holds (action.render t (t.text text)).code.toList value := by
  intro h
  let text := "<a b=\"c\\d\" />".toList
  let options : CompileOptions := { transforms := [.jsx] }
  obtain ⟨stream, hparse, hname, heq, t, ht, hstring, htext⟩ : ∃ stream,
      parse text options.dialect = .ok (.ok stream) ∧ At stream.tokens 2 .jsxName ∧
      At stream.tokens 3 .eq ∧ ∃ t ∈ stream.tokens[4]?, t.kind = .string ∧
        t.text text = '"' :: ("c\\d".toList ++ ['"']) :=
    exists_accepted (by decide +kernel)
  have hinner : "c\\d".toList = Text.unquoted (t.text text) := by
    rw [htext, Text.Literal.unquoted_literal]
  let d : Draft := { (prepare text stream options).2 with editor := { index := 4 } }
  have hheld := h text options stream 2 t _ _ (nested 0) d _ _ hparse (by decide) ⟨hname, heq⟩ ht
    hstring hinner (Markup.stands_attributeValue _) rfl
    (attributeValue_prepared hparse ht hstring (nested 0) rfl) rfl
  have hnone : Markup.attributeLiteral? ('"' :: ("c\\d".toList ++ ['"'])) = none := by decide
  rw [Lowering.code_valueAction, htext, hnone] at hheld
  have hplain := (Markup.copied_holds_iff (.inl rfl) (by decide) hnone).mp hheld
  exact hplain.1 (by decide)

end Compile

end Downlevel
