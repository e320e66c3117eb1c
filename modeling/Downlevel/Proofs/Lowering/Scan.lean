import Downlevel.Lowering.Tag
import Downlevel.Proofs.Token.Phrase

/-!
# Scanning over phrases

Before the attributes of a tag are lowered, they are scanned: braces are counted up to the one that
closes a value (`closingBrace?`), and tags up to the end of an element (`elementEnd?`). Both counts
come to nothing over a phrase, so that each scan stops where the phrase does (`closingBrace?_eq`,
`elementEnd?_eq`). The decorated exports are left out: there a brace may have no other.
-/

namespace Downlevel.Lowering

open Token (At Opens)
open Phrase (Spans)

variable {tokens : Array Token} {i j d : Nat} {k : Kind}

attribute [local simp] closingBrace? elementEnd?

/-! ## Single tokens -/

theorem drop_of_at (h : At tokens i k) :
    ∃ t, t.kind = k ∧ tokens.toList.drop i = t :: tokens.toList.drop (i + 1) := by
  obtain ⟨t, ht, hkind⟩ := h
  obtain ⟨hlt, rfl⟩ := Array.getElem?_eq_some_iff.mp ht
  refine ⟨_, hkind, ?_⟩
  rw [List.drop_eq_getElem_cons (by simpa using hlt), Array.getElem_toList]

theorem head_drop_iff :
    ((tokens.toList.drop i).head?.map (·.kind)) = some k ↔ At tokens i k := by
  simp [At, List.head?_drop]

/-- From one index up to another there are only tokens that names are made of. -/
inductive NameTokens (tokens : Array Token) : Nat → Nat → Prop where
  | nil (i : Nat) : NameTokens tokens i i
  | cons {i j : Nat} {k : Kind} (ht : At tokens i k) (hk : k ∈ [Kind.jsxName, .dot, .colon])
      (hrest : NameTokens tokens (i + 1) j) : NameTokens tokens i j

theorem NameTokens.ofParts (h : NameParts tokens i j) : NameTokens tokens i j := by
  induction h with
  | nil i => exact .nil i
  | cons hmark hname _ ih =>
    have hrest := NameTokens.cons hname (by decide) ih
    exact hmark.elim (.cons · (by decide) hrest) (.cons · (by decide) hrest)

theorem NameTokens.ofTagName (h : TagName tokens i j) : NameTokens tokens i j :=
  .cons h.first (by decide) (.ofParts h.parts)

theorem NameTokens.ofAttributeName (h : AttributeName tokens i j) : NameTokens tokens i j := by
  cases h with
  | single hname => exact .cons hname (by decide) (.nil _)
  | spaced hspace hcolon hname =>
    have hrest := NameTokens.cons hname (by decide) (.nil _)
    exact .cons hspace (by decide) (.cons hcolon (by decide) hrest)

theorem NameTokens.le (h : NameTokens tokens i j) : i ≤ j := by
  induction h with
  | nil => exact Nat.le_refl _
  | cons _ _ _ ih => omega

theorem NameTokens.at {x : Nat} (h : NameTokens tokens i j) (hle : i ≤ x) (hlt : x < j) :
    ∃ k, At tokens x k ∧ k ∈ [Kind.jsxName, .dot, .colon] := by
  induction h with
  | nil => omega
  | @cons i j k ht hk _ ih =>
    rcases Nat.eq_or_lt_of_le hle with rfl | hgt
    · exact ⟨k, ht, hk⟩
    · exact ih hgt hlt

/-- Between the `</` and the `>` of a closing tag stands nothing but a name. -/
theorem closingTag_parts (h : ClosingTag tokens i j) : ∃ m, j = m + 1 ∧
    At tokens i .jsxTagStart ∧ At tokens (i + 1) .slash ∧ NameTokens tokens (i + 2) m ∧
      At tokens m .jsxTagEnd := by
  cases h with
  | fragment hstart hslash hend => exact ⟨i + 2, rfl, hstart, hslash, .nil _, hend⟩
  | named hstart hslash hname hend => exact ⟨_, rfl, hstart, hslash, .ofTagName hname, hend⟩

/-! ## Braces -/

/-- The closing brace that is found from an index on, with `d` braces open before it. -/
def braceFrom (tokens : Array Token) (d i : Nat) : Option Nat :=
  closingBrace? d i (tokens.toList.drop i)

/-- The kind is no brace. -/
def Braceless (k : Kind) : Prop :=
  k ∉ [Kind.braceL, .dollarBraceL, .braceBarL, .braceR, .braceBarR]

instance (k : Kind) : Decidable (Braceless k) := inferInstanceAs (Decidable (_ ∉ _))

theorem braceless_of_plain (hk : k.Plain) : Braceless k := by
  simp_all [Braceless, Kind.Plain]

theorem braceFrom_skip (h : At tokens i k) (hk : Braceless k) :
    braceFrom tokens d i = braceFrom tokens d (i + 1) := by
  obtain ⟨t, rfl, hdrop⟩ := drop_of_at h
  unfold braceFrom
  rw [hdrop, closingBrace?]
  simp only [Braceless, List.mem_cons, List.not_mem_nil, or_false, not_or] at hk
  split <;> simp_all

theorem braceFrom_open (h : At tokens i k) (hk : k ∈ [Kind.braceL, .dollarBraceL, .braceBarL]) :
    braceFrom tokens d i = braceFrom tokens (d + 1) (i + 1) := by
  obtain ⟨t, rfl, hdrop⟩ := drop_of_at h
  unfold braceFrom
  rw [hdrop, closingBrace?]
  simp only [List.mem_cons, List.not_mem_nil, or_false] at hk
  rcases hk with hk | hk | hk <;> rw [hk]

theorem braceFrom_close (h : At tokens i k) (hk : k ∈ [Kind.braceR, .braceBarR]) :
    braceFrom tokens d i = if d ≤ 1 then some i else braceFrom tokens (d - 1) (i + 1) := by
  obtain ⟨t, rfl, hdrop⟩ := drop_of_at h
  unfold braceFrom
  rw [hdrop, closingBrace?]
  simp only [List.mem_cons, List.not_mem_nil, or_false] at hk
  rcases hk with hk | hk <;> rw [hk]

theorem braceFrom_name (h : NameTokens tokens i j) :
    braceFrom tokens d i = braceFrom tokens d j := by
  induction h with
  | nil i => rfl
  | cons ht hk _ ih =>
    rw [braceFrom_skip ht ?_, ih]
    revert hk
    exact (by decide : ∀ k ∈ [Kind.jsxName, .dot, .colon], Braceless k) _

theorem braceFrom_closingTag (h : ClosingTag tokens i j) :
    braceFrom tokens d i = braceFrom tokens d j := by
  obtain ⟨m, rfl, hstart, hslash, hname, hend⟩ := closingTag_parts h
  rw [braceFrom_skip hstart (by decide), braceFrom_skip hslash (by decide), braceFrom_name hname,
    braceFrom_skip hend (by decide)]

/-- The tokens between two brackets of a pair leave the count as it is, and so does the pair. -/
theorem braceFrom_pair {o c : Kind} {m : Nat} (hpair : Kind.Pair o c) (ho : At tokens i o)
    (hinner : ∀ d, braceFrom tokens (d + 1) (i + 1) = braceFrom tokens (d + 1) m)
    (hc : At tokens m c) : braceFrom tokens (d + 1) i = braceFrom tokens (d + 1) (m + 1) := by
  cases hpair with
  | paren => rw [braceFrom_skip ho (by decide), hinner, braceFrom_skip hc (by decide)]
  | brace | dollarBrace | braceBar =>
    rw [braceFrom_open ho (by decide), hinner, braceFrom_close hc (by decide)]
    simp

/-- In a phrase, every brace has its other. -/
theorem braceFrom_spans {p : Phrase} (hplain : Undecorated tokens) (h : Spans tokens p i j)
    (d : Nat) : braceFrom tokens (d + 1) i = braceFrom tokens (d + 1) j := by
  induction h generalizing d with
  | nil i => rfl
  | plain ht hk _ ih => rw [braceFrom_skip ht (braceless_of_plain hk), ih]
  | group hpair ho _ hc _ ih₁ ih₂ => rw [braceFrom_pair hpair ho ih₁ hc, ih₂]
  | nested _ _ ih₁ ih₂ => rw [ih₁, ih₂]
  | decorated hdefault hmark => exact absurd hmark (hplain _ hdefault.lt_size hdefault)
  | fragment hopens hend _ hclosing ih =>
    rw [braceFrom_skip hopens.at (by decide), braceFrom_skip hend (by decide), ih,
      braceFrom_closingTag hclosing]
  | empty hopens hname _ hslash hend ih =>
    rw [braceFrom_skip hopens.at (by decide), braceFrom_name (.ofTagName hname), ih,
      braceFrom_skip hslash (by decide), braceFrom_skip hend (by decide)]
  | paired hopens hname _ hend _ hclosing ih₁ ih₂ =>
    rw [braceFrom_skip hopens.at (by decide), braceFrom_name (.ofTagName hname), ih₁,
      braceFrom_skip hend (by decide), ih₂, braceFrom_closingTag hclosing]
  | spread ho hellipsis _ hc ih =>
    refine braceFrom_pair .brace ho (fun d => ?_) hc
    rw [braceFrom_skip hellipsis (by decide), ih]
  | bare hname => exact braceFrom_name (.ofAttributeName hname)
  | valued hname heq _ ih =>
    rw [braceFrom_name (.ofAttributeName hname), braceFrom_skip heq (by decide), ih]
  | noAttributes i => rfl
  | consAttribute _ _ ih₁ ih₂ => rw [ih₁, ih₂]
  | stringValue ht => exact braceFrom_skip ht (by decide)
  | bracedValue ho _ hc ih => exact braceFrom_pair .brace ho ih hc
  | elementValue _ ih => exact ih d
  | textChild ht =>
    rcases ht with ht | ht
    · exact braceFrom_skip ht (by decide)
    · exact braceFrom_skip ht (by decide)
  | bracedChild ho _ hc ih => exact braceFrom_pair .brace ho ih hc
  | elementChild _ ih => exact ih d
  | noChildren i => rfl
  | consChild _ _ ih₁ ih₂ => rw [ih₁, ih₂]

/-- The brace at an index is closed where the code in it ends. -/
theorem closingBrace?_eq {m : Nat} (hplain : Undecorated tokens) (ho : At tokens i .braceL)
    (hinner : Spans tokens .code (i + 1) m) (hc : At tokens m .braceR) :
    closingBrace? 0 i (tokens.toList.drop i) = some m := by
  show braceFrom tokens 0 i = _
  rw [braceFrom_open ho (by decide), braceFrom_spans hplain hinner, braceFrom_close hc (by decide)]
  rfl

/-! ## Elements -/

/-- The end of the element that is found from an index on, with `d` elements open before it;
`closing` says that a closing tag is open. -/
def endFrom (tokens : Array Token) (d i : Nat) (closing : Bool) : Option Nat :=
  elementEnd? d i closing (tokens.toList.drop i)

theorem endFrom_skip (h : At tokens i k) (hk : k ≠ .jsxTagStart)
    (hslash : k = .slash → ¬ At tokens (i + 1) .jsxTagEnd) :
    endFrom tokens d i false = endFrom tokens d (i + 1) false := by
  obtain ⟨t, rfl, hdrop⟩ := drop_of_at h
  unfold endFrom
  rw [hdrop, elementEnd?]
  by_cases hkind : t.kind = .slash
  · have hnext := hslash hkind
    rw [← head_drop_iff] at hnext
    simp [hkind, hnext, -List.head?_drop]
  · simp [hk, hkind]

theorem endFrom_open (h : At tokens i .jsxTagStart) (hnext : ¬ At tokens (i + 1) .slash) :
    endFrom tokens d i false = endFrom tokens (d + 1) (i + 1) false := by
  obtain ⟨t, hkind, hdrop⟩ := drop_of_at h
  unfold endFrom
  rw [hdrop, elementEnd?]
  rw [← head_drop_iff] at hnext
  simp [hkind, hnext, -List.head?_drop]

theorem endFrom_empty (h : At tokens i .slash) (hend : At tokens (i + 1) .jsxTagEnd) :
    endFrom tokens (d + 1) i false =
      if d = 0 then some (i + 2) else endFrom tokens d (i + 2) false := by
  obtain ⟨t, hkind, hdrop⟩ := drop_of_at h
  have hnext := head_drop_iff.mpr hend
  have hstep : endFrom tokens (d + 1) i false =
      if d + 1 ≤ 1 then some (i + 2) else endFrom tokens d (i + 1) false := by
    unfold endFrom
    rw [hdrop, elementEnd?]
    simp [hkind, hnext, -List.head?_drop]
  rw [hstep, endFrom_skip hend (by decide) nofun]
  simp

theorem endFrom_within (h : NameTokens tokens i j) :
    endFrom tokens d i true = endFrom tokens d j true := by
  induction h with
  | nil i => rfl
  | cons ht hk _ ih =>
    obtain ⟨t, rfl, hdrop⟩ := drop_of_at ht
    have hkind := (by decide : ∀ k ∈ [Kind.jsxName, .dot, .colon], k ≠ .jsxTagEnd) _ hk
    rw [← ih]
    unfold endFrom
    rw [hdrop, elementEnd?]
    simp [hkind]

theorem endFrom_closingTag (h : ClosingTag tokens i j) :
    endFrom tokens (d + 1) i false = if d = 0 then some j else endFrom tokens d j false := by
  obtain ⟨m, rfl, hstart, hslash, hname, hend⟩ := closingTag_parts h
  have hopen : endFrom tokens (d + 1) i false = endFrom tokens (d + 1) (i + 2) true := by
    obtain ⟨t, hkind, hdrop⟩ := drop_of_at hstart
    obtain ⟨u, hkind', hdrop'⟩ := drop_of_at hslash
    unfold endFrom
    rw [hdrop, elementEnd?, hdrop', elementEnd?]
    simp [hkind, hkind']
  obtain ⟨t, hkind, hdrop⟩ := drop_of_at hend
  rw [hopen, endFrom_within hname]
  unfold endFrom
  rw [hdrop, elementEnd?]
  simp [hkind]

theorem endFrom_name (h : NameTokens tokens i j) :
    endFrom tokens d i false = endFrom tokens d j false := by
  induction h with
  | nil i => rfl
  | cons ht hk _ ih =>
    have hkinds := (by decide : ∀ k ∈ [Kind.jsxName, .dot, .colon],
      k ≠ .jsxTagStart ∧ k ≠ .slash) _ hk
    rw [endFrom_skip ht hkinds.1 fun heq => absurd heq hkinds.2, ih]

/-- What follows code is no `>` of a tag, and neither is what it begins with. -/
theorem not_tagEnd_of_code (h : Spans tokens .code i j) (hnext : ¬ At tokens j .jsxTagEnd) :
    ¬ At tokens i .jsxTagEnd := by
  rcases h.code_head with rfl | ⟨k, hk, hkind⟩
  · exact hnext
  · intro hend
    rw [hk.kind_eq hend] at hkind
    exact absurd hkind (by decide)

theorem not_slash_of_element (h : Spans tokens .element i j) : ¬ At tokens (i + 1) .slash := by
  intro hslash
  rcases h.element_head.2 with hnext | hnext
  · cases hnext.kind_eq hslash
  · cases hnext.kind_eq hslash

theorem endFrom_pair {o c : Kind} {m : Nat} (hpair : Kind.Pair o c) (ho : At tokens i o)
    (hinner : ¬ At tokens m .jsxTagEnd →
      endFrom tokens d (i + 1) false = endFrom tokens d m false)
    (hc : At tokens m c) : endFrom tokens d i false = endFrom tokens d (m + 1) false := by
  have hkinds : (o ≠ .jsxTagStart ∧ o ≠ .slash) ∧ c ≠ .jsxTagStart ∧ c ≠ .slash ∧
      c ≠ .jsxTagEnd := by
    cases hpair <;> decide
  rw [endFrom_skip ho hkinds.1.1 fun heq => absurd heq hkinds.1.2, hinner,
    endFrom_skip hc hkinds.2.1 fun heq => absurd heq hkinds.2.2.1]
  exact fun hend => hkinds.2.2.2 (hc.kind_eq hend)

/-- In a phrase, every tag has its other; and what begins with an element is left where the element
ends. -/
theorem endFrom_spans {p : Phrase} (hplain : Undecorated tokens) (h : Spans tokens p i j) :
    (∀ d, (p = .code → ¬ At tokens j .jsxTagEnd) →
      endFrom tokens (d + 1) i false = endFrom tokens (d + 1) j false) ∧
    (p = .element → endFrom tokens 0 i false = some j) := by
  -- an element closes the count that it opens
  have helement : ∀ {i j}, (∀ d, endFrom tokens d i false =
      if d = 0 then some j else endFrom tokens d j false) →
      (∀ d, (Phrase.element = .code → ¬ At tokens j .jsxTagEnd) →
        endFrom tokens (d + 1) i false = endFrom tokens (d + 1) j false) ∧
      (Phrase.element = .element → endFrom tokens 0 i false = some j) := by
    intro i j h
    exact ⟨fun d _ => by simp [h], fun _ => by simp [h]⟩
  induction h with
  | nil i => exact ⟨fun _ _ => rfl, nofun⟩
  | plain ht hk hrest ih =>
    refine ⟨fun d hnext => ?_, nofun⟩
    rw [endFrom_skip ht hk.ne_tagStart fun _ => not_tagEnd_of_code hrest (hnext rfl), ih.1 d hnext]
  | group hpair ho _ hc _ ih₁ ih₂ =>
    refine ⟨fun d hnext => ?_, nofun⟩
    rw [endFrom_pair hpair ho (fun h => ih₁.1 d fun _ => h) hc, ih₂.1 d hnext]
  | nested _ _ ih₁ ih₂ =>
    refine ⟨fun d hnext => ?_, nofun⟩
    rw [ih₁.1 d nofun, ih₂.1 d hnext]
  | decorated hdefault hmark => exact absurd hmark (hplain _ hdefault.lt_size hdefault)
  | fragment hopens hend hchildren hclosing ih =>
    refine helement fun d => ?_
    have hslash := not_slash_of_element (.fragment hopens hend hchildren hclosing)
    rw [endFrom_open hopens.at hslash, endFrom_skip hend (by decide) nofun, ih.1 d nofun,
      endFrom_closingTag hclosing]
  | empty hopens hname hattributes hslash hend ih =>
    refine helement fun d => ?_
    have hslash' := not_slash_of_element (.empty hopens hname hattributes hslash hend)
    rw [endFrom_open hopens.at hslash', endFrom_name (.ofTagName hname), ih.1 d nofun,
      endFrom_empty hslash hend]
  | paired hopens hname hattributes hend hchildren hclosing ih₁ ih₂ =>
    refine helement fun d => ?_
    have hslash := not_slash_of_element (.paired hopens hname hattributes hend hchildren hclosing)
    rw [endFrom_open hopens.at hslash, endFrom_name (.ofTagName hname), ih₁.1 d nofun,
      endFrom_skip hend (by decide) nofun, ih₂.1 d nofun, endFrom_closingTag hclosing]
  | spread ho hellipsis _ hc ih =>
    refine ⟨fun d _ => endFrom_pair .brace ho (fun h => ?_) hc, nofun⟩
    rw [endFrom_skip hellipsis (by decide) nofun, ih.1 d fun _ => h]
  | bare hname => exact ⟨fun d _ => endFrom_name (.ofAttributeName hname), nofun⟩
  | valued hname heq _ ih =>
    refine ⟨fun d _ => ?_, nofun⟩
    rw [endFrom_name (.ofAttributeName hname), endFrom_skip heq (by decide) nofun,
      ih.1 d nofun]
  | noAttributes i => exact ⟨fun _ _ => rfl, nofun⟩
  | consAttribute _ _ ih₁ ih₂ => exact ⟨fun d _ => by rw [ih₁.1 d nofun, ih₂.1 d nofun], nofun⟩
  | stringValue ht => exact ⟨fun _ _ => endFrom_skip ht (by decide) nofun, nofun⟩
  | bracedValue ho _ hc ih =>
    exact ⟨fun d _ => endFrom_pair .brace ho (fun h => ih.1 d fun _ => h) hc, nofun⟩
  | elementValue _ ih => exact ⟨fun d _ => ih.1 d nofun, nofun⟩
  | textChild ht =>
    refine ⟨fun d _ => ?_, nofun⟩
    rcases ht with ht | ht
    · exact endFrom_skip ht (by decide) nofun
    · exact endFrom_skip ht (by decide) nofun
  | bracedChild ho _ hc ih =>
    exact ⟨fun d _ => endFrom_pair .brace ho (fun h => ih.1 d fun _ => h) hc, nofun⟩
  | elementChild _ ih => exact ⟨fun d _ => ih.1 d nofun, nofun⟩
  | noChildren i => exact ⟨fun _ _ => rfl, nofun⟩
  | consChild _ _ ih₁ ih₂ => exact ⟨fun d _ => by rw [ih₁.1 d nofun, ih₂.1 d nofun], nofun⟩

/-- The end of an element is found where the element ends. -/
theorem elementEnd?_eq (hplain : Undecorated tokens) (h : Spans tokens .element i j) :
    elementEnd? 0 i false (tokens.toList.drop i) = some j :=
  (endFrom_spans hplain h).2 rfl

end Downlevel.Lowering
