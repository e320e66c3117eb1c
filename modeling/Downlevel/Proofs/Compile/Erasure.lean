import Downlevel.Proofs.Compile.Identity
import Downlevel.Proofs.Compile.Yields

/-!
# Snippets without their types

When nothing but types is lowered, the code is made up of the texts of all values, in their order
(`Sheet.Woven`). What stands before a value stays, and so does what stands before a type. Of the
type itself only line feeds stay. The parenthesis before a return type moves behind them, to its
arrow (`compile_woven`).

The values are all there, but what is left between them need not keep them apart: where nothing else
stood between two values than a type, they are one token now (`assertion_fused`). And where types
end one statement and begin the next, the walk passes over the place where the two meet, so that
what waits for it is not written: the last expression is not returned (`wrap_skipped`).
-/

namespace Downlevel

open Token (At)
open Lowering (arrowAfterType? isEnumerationAt)

/-! ## Values and what stands between them -/

namespace Sheet

variable (s : Sheet)

/-- Whether the token at an index belongs to a type. -/
def typeAt (index : Nat) : Bool := (s.token? index).any (·.isType)

/-- The text of the token at an index, if it belongs to no type. -/
def valueText (index : Nat) : List Char :=
  if s.typeAt index then [] else (s.textAt index).toList

/-- What may stand before the value at an index, or for the type there. -/
inductive Filler : Nat → List Char → Prop
  /-- the gap before the token -/
  | gap (index : Nat) : Filler index (s.gap index)
  /-- the line feeds of a type, past its first token -/
  | erased {index : Nat} (h : s.typeAt index = true) (hnext : s.typeAt (index + 1) = true) :
      Filler (index + 1) (Text.lineFeeds (s.gap (index + 1) ++ (s.textAt (index + 1)).toList))
  /-- the gap before a parenthesis that has moved behind the line feeds of a return type -/
  | moved {index arrow : Nat} (h : arrowAfterType? s index = some arrow) (feeds : Nat) :
      Filler index (s.gap index ++ List.replicate feeds '\n')
  /-- nothing, in the place of the return type -/
  | passed {start index arrow : Nat} (h : arrowAfterType? s start = some arrow)
      (hstart : start < index) (harrow : index < arrow) : Filler index []
  /-- a blank between the parenthesis and its arrow -/
  | blank {index arrow : Nat} (h : arrowAfterType? s index = some arrow) : Filler arrow [' ']

/-- The code is made up of the values among the first tokens, with what stands before each. -/
inductive Woven : Nat → List Char → Prop
  | nil : Woven 0 []
  | snoc {n : Nat} {code filler : List Char} (h : Woven n code) (hfiller : s.Filler n filler) :
      Woven (n + 1) (code ++ filler ++ s.valueText n)

variable {s}

theorem typeAt_of_some {index : Nat} {t : Token} (ht : s.tokens[index]? = some t) :
    s.typeAt index = t.isType := by
  simp [typeAt, token?, ht]

theorem textAt_of_some {index : Nat} {t : Token} (ht : s.tokens[index]? = some t) :
    (s.textAt index).toList = t.text s.text := by
  simp [textAt, ht]

theorem valueText_of_type {index : Nat} (h : s.typeAt index = true) : s.valueText index = [] := by
  simp [valueText, h]

theorem valueText_of_value {index : Nat} (h : s.typeAt index = false) :
    s.valueText index = (s.textAt index).toList := by
  simp [valueText, h]

theorem Whole.valueText_of_spelling {body : Array Token} {last : Token} (hwhole : s.Whole body last)
    {index : Nat} {kind : Kind} {word : List Char} (hkind : At s.tokens index kind)
    (hword : kind.spelling = some word) (hvalue : s.typeAt index = false) :
    s.valueText index = word := by
  have hlt := hwhole.lt_of_at hkind (by rintro rfl; cases hword)
  obtain ⟨t, ht, rfl⟩ := hkind
  rw [valueText_of_value hvalue, textAt_of_some ht]
  obtain rfl : body[index] = t := Option.some.inj ((hwhole.token?_of_lt hlt).symm.trans ht)
  exact (hwhole.fits hlt).spelled word hword

end Sheet

/-! ## Return types -/

/-- The parenthesis at `index`, the type after it and the arrow at `arrow`. -/
structure Lowering.Returns (s : Sheet) (index arrow : Nat) : Prop where
  parenthesis : At s.tokens index .parenR
  lt : index < arrow
  type : ∀ i, index < i → i < arrow → s.typeAt i = true
  value : s.typeAt arrow = false
  arrow : At s.tokens arrow .arrow

namespace Lowering

variable {s : Sheet} {index arrow : Nat}

/-- A type that is returned is a run of types, and the arrow after it is none. -/
theorem returns_of_arrow (h : arrowAfterType? s index = some arrow) : Returns s index arrow := by
  obtain ⟨hparen, -, hrun, harrow⟩ := arrowAfterType?_eq_some h
  refine ⟨hparen, Nat.lt_of_succ_lt hrun.lt, fun i hi hlt => ?_, ?_, harrow⟩
  · obtain ⟨t, ht, htype⟩ := hrun.types i hi hlt
    rw [Sheet.typeAt_of_some ht, htype]
  · obtain ⟨t, ht, -⟩ := harrow
    rw [Sheet.typeAt_of_some ht, Bool.eq_false_iff]
    exact fun htype => hrun.stop ⟨t, ht, htype⟩

end Lowering

/-- A parenthesis and an arrow, with the return type between them gone. -/
theorem Sheet.Woven.returned {s : Sheet} {body : Array Token} {last : Token}
    (hwhole : s.Whole body last) {index arrow : Nat} {code : List Char} (h : s.Woven index code)
    (harrow : arrowAfterType? s index = some arrow) (hvalue : s.typeAt index = false)
    (feeds : Nat) :
    s.Woven (arrow + 1)
      (code ++ (s.gap index ++ List.replicate feeds '\n') ++ ") =>".toList) := by
  have hreturns := Lowering.returns_of_arrow harrow
  have hclosed := h.snoc (.moved harrow feeds)
  rw [hwhole.valueText_of_spelling hreturns.parenthesis rfl hvalue] at hclosed
  -- nothing is left of the tokens of the type
  have hpassed : ∀ i, index < i → i ≤ arrow →
      s.Woven i (code ++ (s.gap index ++ List.replicate feeds '\n') ++ [')']) := by
    intro i hi
    induction hi with
    | refl => exact fun _ => hclosed
    | @step i hi ih =>
      intro hle
      have hnext := (ih (by omega)).snoc (.passed harrow hi hle)
      rwa [Sheet.valueText_of_type (hreturns.type i hi hle), List.append_nil, List.append_nil]
        at hnext
  have hdone := (hpassed arrow hreturns.lt (Nat.le_refl _)).snoc (.blank harrow)
  rw [hwhole.valueText_of_spelling hreturns.arrow rfl hreturns.value] at hdone
  simpa using hdone

/-! ## Editors that erase types -/

namespace Editor

variable {s : Sheet} {body : Array Token} {last : Token} {e : Editor} {i : Nat} {code : List Char}

/-- The editor stands on the token at `index`, has written the code and holds nothing back. -/
structure Wrote (s : Sheet) (index : Nat) (code : List Char) (e : Editor) : Prop where
  index : e.index = index
  code : (Edit.renderAll s e.log.toList).code.toList = code
  lead : e.lead = ""
  trimNext : e.trimNext = false

namespace Wrote

variable (hwhole : s.Whole body last) (h : e.Wrote s i code) (hi : i < body.size)
include hwhole h hi

theorem edit (action : Action) (trim : Bool) :
    (e.edit s action trim).Wrote s (i + 1)
      (code ++ (Edit.trimmed trim (s.gap i)).toList ++
        (action.render body[i] (s.textAt i).toList).code.toList) := by
  obtain ⟨rfl, rfl, hlead, htrim⟩ := h
  have htoken := hwhole.token?_of_lt hi
  rw [Editor.edit_of_lt hwhole hi]
  refine ⟨rfl, ?_, rfl, by simp [htrim]⟩
  simp [Edit.renderAll_concat, Edit.render, Sheet.token?, htoken, hlead, htrim, Rendering.plain,
    Sheet.textAt_of_some htoken]

theorem copy : (e.copy s).Wrote s (i + 1) (code ++ s.gap i ++ (s.textAt i).toList) := by
  have hedit : (e.copy s).Wrote s _ _ := h.edit hwhole hi .copy false
  simpa [Edit.trimmed, Action.render, Rendering.mapped] using hedit

theorem blank : (e.blank s).Wrote s (i + 1) (code ++ s.gap i) := by
  have hedit : (e.blank s).Wrote s _ _ := h.edit hwhole hi (.replace "") false
  simpa [Edit.trimmed, Action.render, Rendering.plain] using hedit

theorem remove : (e.remove s).Wrote s (i + 1)
    (code ++ Text.lineFeeds (s.gap i ++ (s.textAt i).toList)) := by
  have hedit : (e.remove s).Wrote s _ _ := h.edit hwhole hi .remove true
  simpa [Edit.trimmed, Action.render, Rendering.plain, Text.lineFeeds] using hedit

theorem replaceTrimmed (word : String) (hword : word ≠ "") :
    (e.replaceTrimmed s word).Wrote s (i + 1)
      (code ++ Text.lineFeeds (s.gap i) ++ word.toList) := by
  have hedit : (e.replaceTrimmed s word).Wrote s _ _ := h.edit hwhole hi (.replace word) true
  simpa [Edit.trimmed, Action.render, Rendering.mapped, hword] using hedit

end Wrote

theorem Wrote.finish (hwhole : s.Whole body last) (h : e.Wrote s body.size code) :
    ∃ rendering, e.finish s = .ok rendering ∧
      rendering.code.toList = code ++ s.gap body.size := by
  have hend : e.atEnd s = true := by
    have hlast := hwhole.token?_last
    rw [← h.index] at hlast
    rw [atEnd, current_of hlast, hwhole.ended]
    rfl
  rw [Editor.finish, if_pos hend, h.lead, h.trimNext, hwhole.size_tokens]
  exact ⟨_, rfl, by simp [h.code, Rendering.plain, Edit.trimmed]⟩

/-- What the editor has written is made up of the values up to the token it stands on. -/
def Weaves (s : Sheet) (e : Editor) : Prop :=
  ∃ code, e.Wrote s e.index code ∧ s.Woven e.index code

theorem Wrote.weaves (h : e.Wrote s i code) (hwoven : s.Woven i code) : e.Weaves s := by
  obtain rfl := h.index
  exact ⟨code, h, hwoven⟩

/-- The editor is in the type that starts at `start`, past its first token. -/
structure Erases (s : Sheet) (start top : Nat) (e : Editor) : Prop where
  weaves : e.Weaves s
  le : e.index ≤ top
  previous : ∃ j, start ≤ j ∧ e.index = j + 1 ∧ s.typeAt j = true

/-- The editor is in the return type before `arrow`, and wrote nothing but line feeds after
`code`. -/
structure Skips (s : Sheet) (arrow : Nat) (code : List Char) (e : Editor) : Prop where
  le : e.index ≤ arrow
  wrote : ∃ feeds, e.Wrote s e.index (code ++ List.replicate feeds '\n')

end Editor

namespace Lowering

variable {c : Scene} {P Q R : Editor → Prop}

/-- From an editor with `P` the step `p` gets to one with `Q`, and changes nothing else in a draft
with nothing to wrap. -/
def Edits (c : Scene) (P : Editor → Prop) (p : Lowering Unit) (Q : Editor → Prop) : Prop :=
  ∀ d : Draft, d.wrapping = .off → P d.editor →
    ∃ e, Yields c d p () { d with editor := e } ∧ Q e

theorem Edits.bind {p : Lowering Unit} {q : Unit → Lowering Unit} (hp : Edits c P p Q)
    (hq : Edits c Q (q ()) R) : Edits c P (p >>= q) R := by
  intro d hwrapping hP
  obtain ⟨e, hrun, hQ⟩ := hp d hwrapping hP
  obtain ⟨e', hrun', hR⟩ := hq { d with editor := e } hwrapping hQ
  exact ⟨e', .bind hrun hrun', hR⟩

theorem Edits.mono {p : Lowering Unit} {Q' : Editor → Prop} (hp : Edits c P p Q)
    (h : ∀ e, Q e → Q' e) : Edits c P p Q' := by
  intro d hwrapping hP
  obtain ⟨e, hrun, hQ⟩ := hp d hwrapping hP
  exact ⟨e, hrun, h e hQ⟩

theorem edit_edits {f : Sheet → Editor → Editor} (h : ∀ e, P e → Q (f c.sheet e)) :
    Edits c P (edit f) Q :=
  fun d _ hP => ⟨f c.sheet d.editor, rfl, h d.editor hP⟩

section Loops

variable {I : Editor → Prop} {b : Editor → Bool} {condition : Lowering Bool} {round : Lowering Unit}
  (hlook : ∀ d : Draft, I d.editor → condition c d = .ok (b d.editor, d))
  (hround : ∀ i, Edits c (fun e => e.index = i ∧ I e ∧ b e = true) round fun e => i < e.index ∧ I e)
include hlook hround

/-- A loop keeps what each round keeps, and ends when each round passes a token. -/
theorem whileBounded_edits {top n : Nat} (htop : ∀ e, I e → e.index ≤ top) :
    Edits c (fun e => I e ∧ top - e.index < n) (whileBounded condition round n)
      fun e => I e ∧ b e = false := by
  induction n with
  | zero => exact fun d _ hd => absurd hd.2 (Nat.not_lt_zero _)
  | succ n ih =>
    rintro d hwrapping ⟨hI, hn⟩
    cases hb : b d.editor with
    | false => exact ⟨d.editor, .look false (hb ▸ hlook d hI) rfl, hI, hb⟩
    | true =>
      obtain ⟨e, hrun, hlt, hI'⟩ := hround _ d hwrapping ⟨rfl, hI, hb⟩
      have hle := htop e hI'
      obtain ⟨e', hrun', hend⟩ := ih { d with editor := e } hwrapping ⟨hI', by
        show top - e.index < n
        omega⟩
      exact ⟨e', .look true (hb ▸ hlook d hI) (.bind hrun hrun'), hend⟩

theorem whileHolds_edits (htop : ∀ e, I e → e.index ≤ c.sheet.tokens.size) :
    Edits c I (whileHolds condition round) fun e => I e ∧ b e = false := by
  intro d hwrapping hI
  obtain ⟨e, hrun, hend⟩ := whileBounded_edits hlook hround htop (n := c.sheet.tokens.size + 1) d
    hwrapping ⟨hI, by omega⟩
  exact ⟨e, .look _ rfl hrun, hend⟩

end Loops

/-! ## Tokens -/

section Tokens

variable {body : Array Token} {last : Token} (hwhole : c.sheet.Whole body last)
include hwhole

theorem size_le : body.size ≤ c.sheet.tokens.size := by
  rw [hwhole.size_tokens]
  exact Nat.le_succ _

theorem typeAt_of_current {e : Editor} (hlt : e.index < body.size) :
    c.sheet.typeAt e.index = (e.current c.sheet).isType := by
  have htoken := hwhole.token?_of_lt hlt
  rw [Sheet.typeAt_of_some htoken, Editor.current_of htoken]

/-- Of a type, the gap before it and the line feeds in it stay. -/
theorem eraseTypes_edits {i : Nat} (hi : i < body.size) (htype : c.sheet.typeAt i = true) :
    Edits c (fun e => e.index = i ∧ e.Weaves c.sheet) eraseTypes
      fun e => i < e.index ∧ e.index ≤ body.size ∧ e.Weaves c.sheet := by
  refine Edits.bind (Q := Editor.Erases c.sheet i body.size) (edit_edits ?_)
    (Edits.mono (whileHolds_edits
      (b := fun e => (e.current c.sheet).isType && !e.atEnd c.sheet) (fun _ _ => rfl)
      (fun j => edit_edits ?_) ?_) ?_)
  · rintro e ⟨rfl, code, hwrote, hwoven⟩
    have hblank := hwrote.blank hwhole hi
    have hnext := hwoven.snoc (.gap _)
    rw [Sheet.valueText_of_type htype, List.append_nil] at hnext
    have hindex := hblank.index
    exact ⟨hblank.weaves hnext, by omega, e.index, Nat.le_refl _, hindex, htype⟩
  · rintro e ⟨rfl, ⟨⟨code, hwrote, hwoven⟩, hle, j, hij, hj, hprevious⟩, hgoes⟩
    rw [Bool.and_eq_true, Bool.not_eq_true', atEnd_eq hwhole hle, beq_eq_false_iff_ne] at hgoes
    have hlt : e.index < body.size := Nat.lt_of_le_of_ne hle hgoes.2
    have hcurrent := (typeAt_of_current hwhole hlt).trans hgoes.1
    have hremove := hwrote.remove hwhole hlt
    rw [hj] at hcurrent hwoven hremove
    have hnext := hwoven.snoc (.erased hprevious hcurrent)
    rw [Sheet.valueText_of_type hcurrent, List.append_nil] at hnext
    have hindex := hremove.index
    exact ⟨by omega, hremove.weaves hnext, by omega, j + 1, by omega, hindex, hcurrent⟩
  · exact fun e he => Nat.le_trans he.le (size_le hwhole)
  · rintro e ⟨⟨hweaves, hle, j, hij, hj, -⟩, -⟩
    exact ⟨by omega, hle, hweaves⟩

/-- The parenthesis before a return type moves to its arrow. -/
theorem eraseReturnType_edits {i arrow : Nat} (harrow : arrowAfterType? c.sheet i = some arrow)
    (hvalue : c.sheet.typeAt i = false) :
    Edits c (fun e => e.index = i ∧ e.Weaves c.sheet) (eraseReturnType arrow)
      fun e => i < e.index ∧ e.index ≤ body.size ∧ e.Weaves c.sheet := by
  have hreturns := returns_of_arrow harrow
  have hlt := hreturns.lt
  have hbelow := hwhole.lt_of_at hreturns.arrow (by decide)
  rintro d hwrapping ⟨rfl, code, hwrote, hwoven⟩
  refine Edits.bind (P := (· = d.editor))
    (Q := Editor.Skips c.sheet arrow (code ++ c.sheet.gap d.editor.index)) (edit_edits ?_)
    (Edits.bind (whileHolds_edits (b := fun e => decide (e.index < arrow)) (fun _ _ => rfl)
      (fun j => edit_edits ?_) ?_) (edit_edits ?_)) d hwrapping rfl
  · rintro e rfl
    have hblank := hwrote.blank hwhole (by omega)
    have hindex := hblank.index
    refine ⟨by omega, 0, ?_⟩
    rwa [hindex, List.replicate_zero, List.append_nil]
  · rintro e ⟨rfl, ⟨hle, feeds, hwrote⟩, hgoes⟩
    have hgoes := of_decide_eq_true hgoes
    have hremove := hwrote.remove hwhole (by omega)
    rw [Text.lineFeeds, List.filter_beq, List.append_assoc, List.replicate_append_replicate]
      at hremove
    have hindex := hremove.index
    exact ⟨by omega, by omega, _, hindex ▸ hremove⟩
  · exact fun e he => Nat.le_trans he.le (Nat.le_trans (Nat.le_of_lt hbelow) (size_le hwhole))
  · rintro e ⟨⟨hle, feeds, hwrote⟩, hends⟩
    have hends := of_decide_eq_false hends
    obtain rfl : e.index = arrow := by omega
    have hdone := hwrote.replaceTrimmed hwhole hbelow ") =>" (by decide)
    rw [Text.lineFeeds, List.filter_beq, List.append_assoc (code ++ _),
      List.replicate_append_replicate, List.append_assoc code] at hdone
    have hindex := hdone.index
    exact ⟨by omega, by omega, hdone.weaves (hwoven.returned hwhole harrow hvalue _)⟩

/-- A token goes with its type, moves or is copied. -/
theorem token_edits (h : c.Idle) (k : Knot) {i : Nat} (hi : i < body.size) :
    Edits c (fun e => e.index = i ∧ e.Weaves c.sheet) (token k)
      fun e => i < e.index ∧ e.index ≤ body.size ∧ e.Weaves c.sheet := by
  rintro d hwrapping ⟨rfl, hweaves⟩
  have hcurrent := typeAt_of_current hwhole hi
  cases htype : c.sheet.typeAt d.editor.index with
  | true =>
    obtain ⟨e, hrun, hend⟩ := eraseTypes_edits hwhole hi htype d hwrapping ⟨rfl, hweaves⟩
    refine ⟨e, .look _ rfl ?_, hend⟩
    rwa [← hcurrent, htype, if_pos rfl]
  | false =>
    cases harrow : arrowAfterType? c.sheet d.editor.index with
    | some arrow =>
      obtain ⟨e, hrun, hend⟩ := eraseReturnType_edits hwhole harrow htype d hwrapping
        ⟨rfl, hweaves⟩
      refine ⟨e, .look _ rfl ?_, hend⟩
      rw [← hcurrent, htype, if_neg Bool.false_ne_true]
      refine .look c.sheet rfl (.look d.editor.index rfl ?_)
      rwa [harrow]
    | none =>
      refine ⟨d.editor.copy c.sheet, h.token_yields k (hcurrent.symm.trans htype) harrow, ?_⟩
      obtain ⟨code, hwrote, hwoven⟩ := hweaves
      have hcopy := hwrote.copy hwhole hi
      have hnext := hwoven.snoc (.gap _)
      rw [Sheet.valueText_of_value htype] at hnext
      have hindex := hcopy.index
      exact ⟨by omega, by omega, hcopy.weaves hnext⟩

theorem snippet_edits (h : c.Idle) :
    Edits c (fun e => e.index ≤ body.size ∧ e.Weaves c.sheet) snippet
      fun e => e.index = body.size ∧ e.Weaves c.sheet := by
  have hlook : ∀ d : Draft, d.editor.index ≤ body.size ∧ d.editor.Weaves c.sheet →
      (return !(← atEnd) : Lowering Bool) c d = .ok (!d.editor.atEnd c.sheet, d) := fun _ _ => rfl
  have hround : ∀ i, Edits c
      (fun e => e.index = i ∧ (e.index ≤ body.size ∧ e.Weaves c.sheet) ∧
        (!e.atEnd c.sheet) = true)
      (do openWrap; (nested (2 * (c.sheet.tokens.size + 1))).token; closeWrap)
      fun e => i < e.index ∧ e.index ≤ body.size ∧ e.Weaves c.sheet := by
    rintro i d hwrapping ⟨rfl, ⟨hle, hweaves⟩, hgoes⟩
    rw [Bool.not_eq_true', atEnd_eq hwhole hle, beq_eq_false_iff_ne] at hgoes
    obtain ⟨e, hrun, hend⟩ := token_edits hwhole h (nested (2 * c.sheet.tokens.size + 1))
      (Nat.lt_of_le_of_ne hle hgoes) d hwrapping ⟨rfl, hweaves⟩
    exact ⟨e, .bind (openWrap_yields hwrapping) (.bind hrun (closeWrap_yields hwrapping)), hend⟩
  intro d hwrapping hd
  obtain ⟨e, hrun, ⟨hle, hweaves⟩, hend⟩ := whileHolds_edits hlook hround
    (fun e he => Nat.le_trans he.1 (size_le hwhole)) d hwrapping hd
  rw [Bool.not_eq_false', atEnd_eq hwhole hle, beq_iff_eq] at hend
  exact ⟨e, .look _ rfl hrun, hend, hweaves⟩

end Tokens

end Lowering

/-! ## Compiled snippets -/

namespace Compile

/-- No enumeration is declared. -/
def Unenumerated (s : Sheet) : Prop := ∀ i < s.tokens.size, isEnumerationAt s i = false

instance (s : Sheet) : Decidable (Unenumerated s) :=
  inferInstanceAs (Decidable (∀ i < s.tokens.size, isEnumerationAt s i = false))

theorem Unenumerated.eq_false {s : Sheet} (h : Unenumerated s) (i : Nat) :
    isEnumerationAt s i = false := by
  by_cases hi : i < s.tokens.size
  · exact h i hi
  · have hnone : s.tokens[i]? = none := Array.getElem?_eq_none (Nat.le_of_not_lt hi)
    simp [isEnumerationAt, Sheet.hasKinds, Sheet.hasWord, hnone]

variable {text : List Char} {options : CompileOptions} {stream : TokenStream}

/-- When types go and nothing else is lowered, lowering starts as for a snippet that stays. -/
theorem prepare_erasing (text : List Char) (hoptions : options.transforms = [.typescript])
    (henum : Unenumerated ⟨text, stream.tokens⟩) :
    Unchanged text stream (prepare text stream options).1 (prepare text stream options).2 := by
  have himports : options.has .imports = false := by simp [CompileOptions.has, hoptions]
  have hjsx : options.has .jsx = false := by simp [CompileOptions.has, hoptions]
  have hwrap : options.has .wrapLastExpression = false := by simp [CompileOptions.has, hoptions]
  unfold prepare
  simp only [himports, hjsx, hwrap]
  refine ⟨rfl, ⟨rfl, rfl, fun index => ?_, fun name => ?_⟩, rfl, rfl, rfl, rfl⟩
  · exact (Bool.and_eq_false_iff ..).mpr (.inr (henum.eq_false index))
  · simp [Lowering.Scene.replacement?]

/-- When types go and nothing else is lowered, a snippet without enumerations is compiled to the
texts of its values, in their order. -/
theorem compile_woven (hparse : parse text options.dialect = .ok (.ok stream))
    (hoptions : options.transforms = [.typescript])
    (henum : Unenumerated ⟨text, stream.tokens⟩) :
    ∃ out code, compile text options = .ok out ∧
      Sheet.Woven ⟨text, stream.tokens⟩ (stream.tokens.size - 1) code ∧
      out.code.toList = code ++ Sheet.gap ⟨text, stream.tokens⟩ (stream.tokens.size - 1) := by
  obtain ⟨body, last, htokens, hreads⟩ := parse_reads hparse
  have hwhole := Sheet.Whole.ofReads htokens hreads
  have hprepare := prepare_erasing text hoptions henum
  generalize hscene : prepare text stream options = prepared at hprepare
  obtain ⟨c, d⟩ := prepared
  have hsheet : c.sheet = ⟨text, stream.tokens⟩ := hprepare.sheet
  rw [← hsheet] at hwhole ⊢
  have hstart : d.editor.index ≤ body.size ∧ d.editor.Weaves c.sheet := by
    rw [hprepare.editor]
    exact ⟨Nat.zero_le _, [], ⟨rfl, rfl, rfl, rfl⟩, .nil⟩
  obtain ⟨e, hrun, hindex, code, hwrote, hwoven⟩ :=
    Lowering.snippet_edits hwhole hprepare.idle d hprepare.wrapping hstart
  rw [hindex] at hwrote hwoven
  obtain ⟨rendering, hfinish, hcode⟩ := hwrote.finish hwhole
  have hcompile : compile text options = .ok (assemble text options c { d with editor := e }
      rendering) := by
    refine compile_eq_ok_iff.mpr ⟨stream, { d with editor := e }, rendering, hparse, ?_⟩
    rw [hscene]
    exact ⟨hrun, hfinish, rfl⟩
  have hsize : stream.tokens.size - 1 = body.size := by simp [htokens]
  rw [hsize]
  refine ⟨_, code, hcompile, hwoven, ?_⟩
  simp [assemble, hprepare.lead, hcode]

/-- A return type on two lines, an optional parameter and a value that is asserted. -/
theorem compile_woven_arrow : ∃ stream out code,
    parse "f = (a?: T): U<\nV> => a! as W;\n".toList { jsx := false, typescript := true } =
      .ok (.ok stream) ∧
    compile "f = (a?: T): U<\nV> => a! as W;\n".toList { transforms := [.typescript] } = .ok out ∧
    Sheet.Woven ⟨"f = (a?: T): U<\nV> => a! as W;\n".toList, stream.tokens⟩
      (stream.tokens.size - 1) code ∧
    out.code.toList = code ++ Sheet.gap ⟨"f = (a?: T): U<\nV> => a! as W;\n".toList, stream.tokens⟩
      (stream.tokens.size - 1) := by
  obtain ⟨stream, hparse, henum⟩ : ∃ stream,
      parse "f = (a?: T): U<\nV> => a! as W;\n".toList
        (CompileOptions.dialect { transforms := [.typescript] }) = .ok (.ok stream) ∧
      Unenumerated ⟨"f = (a?: T): U<\nV> => a! as W;\n".toList, stream.tokens⟩ :=
    exists_accepted (by decide +kernel)
  obtain ⟨out, code, hwoven⟩ := compile_woven hparse rfl henum
  exact ⟨stream, out, code, hparse, hwoven⟩

/-- The code need not be read as the values of the snippet: in `return<any>x`, only the type keeps
the two values apart. -/
theorem assertion_fused : ¬ ∀ (text : List Char) (options : CompileOptions) (stream : TokenStream),
    parse text options.dialect = .ok (.ok stream) → options.transforms = [.typescript] →
    Unenumerated ⟨text, stream.tokens⟩ →
    ∃ out again, compile text options = .ok out ∧
      parse out.code.toList { jsx := false } = .ok (.ok again) ∧
      again.before.map (·.text out.code.toList) =
        (stream.before.filter fun t => !t.isType).map (·.text text) := by
  intro h
  obtain ⟨stream, hstream, henum, hfused⟩ : ∃ stream,
      parse "return<any>x".toList { jsx := false, typescript := true } = .ok (.ok stream) ∧
        Unenumerated ⟨"return<any>x".toList, stream.tokens⟩ ∧
        ((compiled? "return<any>x".toList { transforms := [.typescript] }).all fun out =>
          (accepted? out.code.toList { jsx := false }).all fun again =>
            again.before.map (·.text out.code.toList) !=
              (stream.before.filter fun t => !t.isType).map
                (·.text "return<any>x".toList)) = true :=
    exists_accepted (by decide +kernel)
  obtain ⟨out, again, hcompile, hparse, htexts⟩ := h _ { transforms := [.typescript] } stream
    hstream rfl henum
  rw [compiled?_eq_some_iff.mpr hcompile, Option.all_some, accepted?_eq_some_iff.mpr hparse,
    Option.all_some, htexts] at hfused
  simp at hfused

/-- The last expression may stay as it is. -/
theorem wrap_skipped : ¬ ∀ (text : List Char) (options : CompileOptions)
    (stream : TokenStream) (out : Compiled) (plan : WrapPlan),
    parse text options.dialect = .ok (.ok stream) →
    Transform.wrapLastExpression ∈ options.transforms →
    WrapPlan.ofStatements? ⟨text, stream.tokens⟩ stream.statements.toList = some plan →
    compile text options = .ok out →
    (plan.separator ++ WrapPlan.opening).toList <:+: out.code.toList := by
  intro h
  obtain ⟨stream, d, out, hyields, plan, hplan, hlost⟩ : ∃ stream d out,
      Yields "type A = number;\n<any>f();".toList
        { transforms := [.typescript, .wrapLastExpression] } stream d out ∧
      ∃ plan ∈ WrapPlan.ofStatements? ⟨"type A = number;\n<any>f();".toList, stream.tokens⟩
        stream.statements.toList,
        ¬ (plan.separator ++ WrapPlan.opening).toList <:+: out.code.toList :=
    exists_yielded (by decide +kernel)
  exact hlost (h _ _ stream out plan hyields.parsed (by decide) hplan hyields.compile)

end Compile

end Downlevel
