import Downlevel.Proofs.Token.Tiled

/-!
# Phrases of tokens

How tokens nest, as far as lowering hangs on it: brackets come in pairs, and an element is made of
its tags, its attributes and its children (`Phrase.Spans`). A phrase is told by the kinds of its
tokens and by the shapes that are noted on the `<` of elements, so that it stays one when tokens
follow it or when more is noted on its own (`Phrase.Spans.mono`).
-/

namespace Downlevel

variable {cs : List Statement}

/-! ## Kinds -/

/-- A token of the kind opens nothing and closes nothing. -/
def Kind.Plain (k : Kind) : Prop :=
  k ∉ [Kind.eof, .parenL, .parenR, .braceL, .braceR, .dollarBraceL, .braceBarL, .braceBarR,
    .jsxTagStart, .jsxTagEnd]

instance (k : Kind) : Decidable k.Plain := inferInstanceAs (Decidable (_ ∉ _))

@[grind =] theorem Kind.plain_iff {k : Kind} :
    k.Plain ↔ k ≠ .eof ∧ k ≠ .parenL ∧ k ≠ .parenR ∧ k ≠ .braceL ∧ k ≠ .braceR ∧
      k ≠ .dollarBraceL ∧ k ≠ .braceBarL ∧ k ≠ .braceBarR ∧ k ≠ .jsxTagStart ∧ k ≠ .jsxTagEnd := by
  simp [Plain]

theorem Kind.Plain.ne_eof {k : Kind} (h : k.Plain) : k ≠ .eof := by
  rintro rfl
  exact absurd h (by decide)

theorem Kind.Plain.ne_tagStart {k : Kind} (h : k.Plain) : k ≠ .jsxTagStart := by
  rintro rfl
  exact absurd h (by decide)

/-- The brackets that belong together. -/
inductive Kind.Pair : Kind → Kind → Prop where
  | paren : Pair .parenL .parenR
  | brace : Pair .braceL .braceR
  | dollarBrace : Pair .dollarBraceL .braceR
  | braceBar : Pair .braceBarL .braceBarR

theorem Kind.Pair.live {o c : Kind} (h : Pair o c) : o ≠ .eof ∧ c ≠ .eof := by
  cases h <;> decide

theorem Kind.Pair.ne_tagStart {o c : Kind} (h : Pair o c) :
    o ≠ .jsxTagStart ∧ c ≠ .jsxTagStart := by
  cases h <;> decide

theorem Kind.pair_of_brace {k : Kind} (hk : k = .braceL ∨ k = .braceBarL) :
    k.Pair (if (k == .braceBarL) = true then .braceBarR else .braceR) := by
  rcases hk with rfl | rfl
  · exact .brace
  · exact .braceBar

/-! ## Tokens at indices -/

/-- The token at an index is of some kind. -/
def Token.At (tokens : Array Token) (i : Nat) (k : Kind) : Prop :=
  ∃ t, tokens[i]? = some t ∧ t.kind = k

/-- The token at an index opens an element, the shape of which is noted on it. -/
def Token.Opens (tokens : Array Token) (i : Nat) : Prop :=
  ∃ t, tokens[i]? = some t ∧ t.kind = .jsxTagStart ∧ t.shape.isSome = true

/-- All tokens are still there, of the same kinds, and no shape is lost. -/
structure Token.Extends (tokens tokens' : Array Token) : Prop where
  get : ∀ {i : Nat} {t : Token}, tokens[i]? = some t → ∃ t', tokens'[i]? = some t' ∧
    t'.kind = t.kind ∧ (t.shape.isSome = true → t'.shape.isSome = true)

open Token (At Opens Extends)

variable {tokens tokens' : Array Token} {i j : Nat} {k : Kind}

namespace Token

theorem Extends.refl (tokens : Array Token) : Extends tokens tokens :=
  ⟨fun ht => ⟨_, ht, rfl, id⟩⟩

theorem Extends.trans {tokens'' : Array Token} (h : Extends tokens tokens')
    (h' : Extends tokens' tokens'') : Extends tokens tokens'' := by
  constructor
  intro i t ht
  obtain ⟨u, hu, hkind, hshape⟩ := h.get ht
  obtain ⟨v, hv, hkind', hshape'⟩ := h'.get hu
  exact ⟨v, hv, hkind'.trans hkind, hshape' ∘ hshape⟩

theorem Extends.push (tokens : Array Token) (t : Token) : Extends tokens (tokens.push t) :=
  ⟨fun hu => ⟨_, Tiled.getElem?_push_of_some hu, rfl, id⟩⟩

theorem At.mono (h : At tokens i k) (hext : Extends tokens tokens') : At tokens' i k := by
  obtain ⟨t, ht, rfl⟩ := h
  obtain ⟨u, hu, hkind, -⟩ := hext.get ht
  exact ⟨u, hu, hkind⟩

theorem At.push (tokens : Array Token) (t : Token) :
    At (tokens.push t) tokens.size t.kind :=
  ⟨t, by simp, rfl⟩

theorem At.kind_eq {k' : Kind} (h : At tokens i k) (h' : At tokens i k') : k = k' := by
  obtain ⟨t, ht, rfl⟩ := h
  obtain ⟨u, hu, rfl⟩ := h'
  obtain rfl := Option.some.inj (ht.symm.trans hu)
  rfl

instance (tokens : Array Token) (i : Nat) (k : Kind) : Decidable (At tokens i k) :=
  decidable_of_iff ((tokens[i]?).any (·.kind == k) = true) (by
    simp only [Option.any_eq_true, beq_iff_eq, At])

theorem at_of_kinds {tokens : Array Token} {kinds : Array Kind}
    (h : tokens.map (·.kind) = kinds) {i : Nat} {k : Kind} (hk : kinds[i]? = some k) :
    At tokens i k := by
  subst h
  simpa [At] using hk

theorem At.lt_size (h : At tokens i k) : i < tokens.size := by
  obtain ⟨t, ht, -⟩ := h
  exact (Array.getElem?_eq_some_iff.mp ht).1

theorem Opens.mono (h : Opens tokens i) (hext : Extends tokens tokens') : Opens tokens' i := by
  obtain ⟨t, ht, hkind, hshape⟩ := h
  obtain ⟨u, hu, hkind', hshape'⟩ := hext.get ht
  exact ⟨u, hu, hkind'.trans hkind, hshape' hshape⟩

theorem Opens.at (h : Opens tokens i) : At tokens i .jsxTagStart := by
  obtain ⟨t, ht, hkind, -⟩ := h
  exact ⟨t, ht, hkind⟩

end Token

/-! ## Names -/

/-- Further parts `.b` or `:b` of a name. -/
inductive NameParts (tokens : Array Token) : Nat → Nat → Prop where
  | nil (i : Nat) : NameParts tokens i i
  | cons {i j : Nat} (hmark : At tokens i .dot ∨ At tokens i .colon)
      (hname : At tokens (i + 1) .jsxName) (hrest : NameParts tokens (i + 2) j) :
      NameParts tokens i j

/-- The name of a tag. -/
structure TagName (tokens : Array Token) (i j : Nat) : Prop where
  first : At tokens i .jsxName
  parts : NameParts tokens (i + 1) j

/-- The name of an attribute. -/
inductive AttributeName (tokens : Array Token) : Nat → Nat → Prop where
  | single {i : Nat} (hname : At tokens i .jsxName) : AttributeName tokens i (i + 1)
  | spaced {i : Nat} (hspace : At tokens i .jsxName) (hcolon : At tokens (i + 1) .colon)
      (hname : At tokens (i + 2) .jsxName) : AttributeName tokens i (i + 3)

/-- A tag that closes an element. -/
inductive ClosingTag (tokens : Array Token) : Nat → Nat → Prop where
  | fragment {i : Nat} (hstart : At tokens i .jsxTagStart) (hslash : At tokens (i + 1) .slash)
      (hend : At tokens (i + 2) .jsxTagEnd) : ClosingTag tokens i (i + 3)
  | named {i m : Nat} (hstart : At tokens i .jsxTagStart) (hslash : At tokens (i + 1) .slash)
      (hname : TagName tokens (i + 2) m) (hend : At tokens m .jsxTagEnd) :
      ClosingTag tokens i (m + 1)

theorem NameParts.le (h : NameParts tokens i j) : i ≤ j := by
  induction h with
  | nil => exact Nat.le_refl _
  | cons _ _ _ ih => omega

theorem TagName.lt (h : TagName tokens i j) : i < j := h.parts.le

theorem AttributeName.lt (h : AttributeName tokens i j) : i < j := by
  cases h <;> omega

theorem ClosingTag.lt (h : ClosingTag tokens i j) : i < j := by
  cases h with
  | fragment => omega
  | named _ _ hname => have := hname.lt; omega

section Mono

variable (hext : Extends tokens tokens')
include hext

theorem NameParts.mono (h : NameParts tokens i j) : NameParts tokens' i j := by
  induction h with
  | nil i => exact .nil i
  | cons hmark hname _ ih =>
    exact .cons (hmark.imp (·.mono hext) (·.mono hext)) (hname.mono hext) ih

theorem TagName.mono (h : TagName tokens i j) : TagName tokens' i j :=
  ⟨h.first.mono hext, h.parts.mono hext⟩

theorem AttributeName.mono (h : AttributeName tokens i j) : AttributeName tokens' i j := by
  cases h with
  | single hname => exact .single (hname.mono hext)
  | spaced hspace hcolon hname =>
    exact .spaced (hspace.mono hext) (hcolon.mono hext) (hname.mono hext)

theorem ClosingTag.mono (h : ClosingTag tokens i j) : ClosingTag tokens' i j := by
  cases h with
  | fragment hstart hslash hend =>
    exact .fragment (hstart.mono hext) (hslash.mono hext) (hend.mono hext)
  | named hstart hslash hname hend =>
    exact .named (hstart.mono hext) (hslash.mono hext) (hname.mono hext) (hend.mono hext)

end Mono

/-! ## Phrases -/

/-- What some tokens may be together. -/
inductive Phrase where
  /-- tokens of the language and elements among them, with brackets in pairs -/
  | code
  | element
  | property
  | properties
  /-- what follows the `=` of an attribute -/
  | value
  | child
  | children

/-- The tokens from one index up to another are a phrase. -/
inductive Phrase.Spans (tokens : Array Token) : Phrase → Nat → Nat → Prop where
  | nil (i : Nat) : Spans tokens code i i
  | plain {i j : Nat} {k : Kind} (ht : At tokens i k) (hk : k.Plain)
      (hrest : Spans tokens code (i + 1) j) : Spans tokens code i j
  | group {i m j : Nat} {o c : Kind} (hpair : Kind.Pair o c) (ho : At tokens i o)
      (hinner : Spans tokens code (i + 1) m) (hc : At tokens m c)
      (hrest : Spans tokens code (m + 1) j) : Spans tokens code i j
  | nested {i m j : Nat} (helement : Spans tokens element i m)
      (hrest : Spans tokens code m j) : Spans tokens code i j
  /-- `default @a` is a default export, in which any token may stand for `class` -/
  | decorated {i m j : Nat} {k : Kind} (hdefault : At tokens i .kwDefault)
      (hmark : At tokens (i + 1) .atSign) (hdecorators : Spans tokens code (i + 1) m)
      (ht : At tokens m k) (hrest : Spans tokens code (m + 1) j) : Spans tokens code i j
  /-- `<>…</>` -/
  | fragment {i l j : Nat} (hopens : Opens tokens i) (hend : At tokens (i + 1) .jsxTagEnd)
      (hchildren : Spans tokens children (i + 2) l) (hclosing : ClosingTag tokens l j) :
      Spans tokens element i j
  /-- `<a b/>` -/
  | empty {i n m : Nat} (hopens : Opens tokens i) (hname : TagName tokens (i + 1) n)
      (hattributes : Spans tokens properties n m) (hslash : At tokens m .slash)
      (hend : At tokens (m + 1) .jsxTagEnd) : Spans tokens element i (m + 2)
  /-- `<a b>…</a>` -/
  | paired {i n m l j : Nat} (hopens : Opens tokens i) (hname : TagName tokens (i + 1) n)
      (hattributes : Spans tokens properties n m) (hend : At tokens m .jsxTagEnd)
      (hchildren : Spans tokens children (m + 1) l) (hclosing : ClosingTag tokens l j) :
      Spans tokens element i j
  /-- `{...props}` -/
  | spread {i m : Nat} (ho : At tokens i .braceL) (hellipsis : At tokens (i + 1) .ellipsis)
      (hinner : Spans tokens code (i + 2) m) (hc : At tokens m .braceR) :
      Spans tokens property i (m + 1)
  /-- `a` -/
  | bare {i n : Nat} (hname : AttributeName tokens i n) : Spans tokens property i n
  /-- `a=…` -/
  | valued {i n j : Nat} (hname : AttributeName tokens i n) (heq : At tokens n .eq)
      (hvalue : Spans tokens value (n + 1) j) : Spans tokens property i j
  | noAttributes (i : Nat) : Spans tokens properties i i
  | consAttribute {i m j : Nat} (hfirst : Spans tokens property i m)
      (hrest : Spans tokens properties m j) : Spans tokens properties i j
  | stringValue {i : Nat} (ht : At tokens i .string) : Spans tokens value i (i + 1)
  | bracedValue {i m : Nat} (ho : At tokens i .braceL) (hinner : Spans tokens code (i + 1) m)
      (hc : At tokens m .braceR) : Spans tokens value i (m + 1)
  | elementValue {i j : Nat} (helement : Spans tokens element i j) : Spans tokens value i j
  | textChild {i : Nat} (ht : At tokens i .jsxText ∨ At tokens i .jsxEmptyText) :
      Spans tokens child i (i + 1)
  | bracedChild {i m : Nat} (ho : At tokens i .braceL) (hinner : Spans tokens code (i + 1) m)
      (hc : At tokens m .braceR) : Spans tokens child i (m + 1)
  | elementChild {i j : Nat} (helement : Spans tokens element i j) : Spans tokens child i j
  | noChildren (i : Nat) : Spans tokens children i i
  | consChild {i m j : Nat} (hfirst : Spans tokens child i m)
      (hrest : Spans tokens children m j) : Spans tokens children i j

namespace Phrase.Spans

variable {p : Phrase}

/-- A phrase stays one when tokens follow it and when more is noted on its own. -/
theorem mono (h : Spans tokens p i j) (hext : Extends tokens tokens') : Spans tokens' p i j := by
  induction h with
  | nil i => exact .nil i
  | plain ht hk _ ih => exact .plain (ht.mono hext) hk ih
  | group hpair ho _ hc _ ih₁ ih₂ => exact .group hpair (ho.mono hext) ih₁ (hc.mono hext) ih₂
  | nested _ _ ih₁ ih₂ => exact .nested ih₁ ih₂
  | decorated hdefault hmark _ ht _ ih₁ ih₂ =>
    exact .decorated (hdefault.mono hext) (hmark.mono hext) ih₁ (ht.mono hext) ih₂
  | fragment hopens hend _ hclosing ih =>
    exact .fragment (hopens.mono hext) (hend.mono hext) ih (hclosing.mono hext)
  | empty hopens hname _ hslash hend ih =>
    exact .empty (hopens.mono hext) (hname.mono hext) ih (hslash.mono hext) (hend.mono hext)
  | paired hopens hname _ hend _ hclosing ih₁ ih₂ =>
    exact .paired (hopens.mono hext) (hname.mono hext) ih₁ (hend.mono hext) ih₂
      (hclosing.mono hext)
  | spread ho hellipsis _ hc ih =>
    exact .spread (ho.mono hext) (hellipsis.mono hext) ih (hc.mono hext)
  | bare hname => exact .bare (hname.mono hext)
  | valued hname heq _ ih => exact .valued (hname.mono hext) (heq.mono hext) ih
  | noAttributes i => exact .noAttributes i
  | consAttribute _ _ ih₁ ih₂ => exact .consAttribute ih₁ ih₂
  | stringValue ht => exact .stringValue (ht.mono hext)
  | bracedValue ho _ hc ih => exact .bracedValue (ho.mono hext) ih (hc.mono hext)
  | elementValue _ ih => exact .elementValue ih
  | textChild ht => exact .textChild (ht.imp (·.mono hext) (·.mono hext))
  | bracedChild ho _ hc ih => exact .bracedChild (ho.mono hext) ih (hc.mono hext)
  | elementChild _ ih => exact .elementChild ih
  | noChildren i => exact .noChildren i
  | consChild _ _ ih₁ ih₂ => exact .consChild ih₁ ih₂

theorem append {m : Nat} (h : Spans tokens code i m) (h' : Spans tokens code m j) :
    Spans tokens code i j := by
  generalize hp : code = p at h
  induction h with
  | nil => exact h'
  | plain ht hk _ ih => exact .plain ht hk (ih h' hp)
  | group hpair ho hinner hc _ _ ih => exact .group hpair ho hinner hc (ih h' hp)
  | nested helement _ _ ih => exact .nested helement (ih h' hp)
  | decorated hdefault hmark hdecorators ht _ _ ih =>
    exact .decorated hdefault hmark hdecorators ht (ih h' hp)
  | _ => cases hp

theorem single (ht : At tokens i k) (hk : k.Plain) : Spans tokens code i (i + 1) :=
  .plain ht hk (.nil _)

/-! ### Lengths -/

theorem le (h : Spans tokens p i j) : i ≤ j := by
  induction h with
  | nil | noAttributes | noChildren => exact Nat.le_refl _
  | plain | group | nested | decorated | spread | stringValue | bracedValue | textChild
  | bracedChild => omega
  | fragment _ _ _ hclosing => have := hclosing.lt; omega
  | empty _ hname => have := hname.lt; omega
  | paired _ hname _ _ _ hclosing => have := hname.lt; have := hclosing.lt; omega
  | bare hname => exact Nat.le_of_lt hname.lt
  | valued hname => have := hname.lt; omega
  | elementValue _ ih | elementChild _ ih => exact ih
  | consAttribute _ _ ih₁ ih₂ | consChild _ _ ih₁ ih₂ => exact Nat.le_trans ih₁ ih₂

theorem element_lt (h : Spans tokens element i j) : i < j := by
  cases h with
  | fragment _ _ hchildren hclosing => have := hchildren.le; have := hclosing.lt; omega
  | empty _ hname hattributes => have := hname.lt; have := hattributes.le; omega
  | paired _ hname hattributes _ hchildren hclosing =>
    have := hname.lt
    have := hattributes.le
    have := hchildren.le
    have := hclosing.lt
    omega

theorem property_lt (h : Spans tokens property i j) : i < j := by
  cases h with
  | spread _ _ hinner => have := hinner.le; omega
  | bare hname => exact hname.lt
  | valued hname _ hvalue => have := hname.lt; have := hvalue.le; omega

theorem child_lt (h : Spans tokens child i j) : i < j := by
  cases h with
  | textChild => exact Nat.lt_succ_self i
  | bracedChild _ hinner => have := hinner.le; omega
  | elementChild helement => exact helement.element_lt

/-! ### First tokens -/

theorem element_head (h : Spans tokens element i j) :
    Opens tokens i ∧ (At tokens (i + 1) .jsxTagEnd ∨ At tokens (i + 1) .jsxName) := by
  cases h with
  | fragment hopens hend => exact ⟨hopens, .inl hend⟩
  | empty hopens hname => exact ⟨hopens, .inr hname.first⟩
  | paired hopens hname => exact ⟨hopens, .inr hname.first⟩

theorem code_head (h : Spans tokens code i j) :
    i = j ∨ ∃ k, At tokens i k ∧ k ∉ [Kind.parenR, .braceR, .braceBarR, .jsxTagEnd] := by
  cases h with
  | nil => exact .inl rfl
  | plain ht hk => exact .inr ⟨_, ht, by grind⟩
  | group hpair ho =>
    refine .inr ⟨_, ho, ?_⟩
    cases hpair <;> decide
  | nested helement => exact .inr ⟨_, helement.element_head.1.at, by decide⟩
  | decorated hdefault => exact .inr ⟨_, hdefault, by decide⟩

theorem element_tail (h : Spans tokens element i (j + 1)) : At tokens j .jsxTagEnd := by
  cases h with
  | fragment _ _ _ hclosing | paired _ _ _ _ _ hclosing =>
    cases hclosing with
    | fragment _ _ hend | named _ _ _ hend => exact hend
  | empty _ _ _ _ hend => exact hend

/-- The attributes of a tag, and then the end of the tag. -/
theorem properties_head (h : Spans tokens properties i j)
    (hend : At tokens j .slash ∨ At tokens j .jsxTagEnd) :
    ∃ k, At tokens i k ∧ k ∈ [Kind.jsxName, .braceL, .slash, .jsxTagEnd] := by
  have hname : ∀ {n}, AttributeName tokens i n → At tokens i .jsxName := by
    intro n h
    cases h with
    | single hname => exact hname
    | spaced hspace => exact hspace
  cases h with
  | noAttributes => exact hend.elim (⟨_, ·, by decide⟩) (⟨_, ·, by decide⟩)
  | consAttribute hfirst =>
    cases hfirst with
    | spread ho => exact ⟨_, ho, by decide⟩
    | bare h => exact ⟨_, hname h, by decide⟩
    | valued h => exact ⟨_, hname h, by decide⟩

end Phrase.Spans

/-- No `default` has a decorator after it. -/
def Undecorated (tokens : Array Token) : Prop :=
  ∀ i < tokens.size, At tokens i .kwDefault → ¬ At tokens (i + 1) .atSign

instance (tokens : Array Token) : Decidable (Undecorated tokens) :=
  inferInstanceAs (Decidable (∀ i < tokens.size, _))

/-! ## Statements -/

/-- The statement is an import or an export. -/
def StatementKind.OfModule (kind : StatementKind) : Prop :=
  kind ∈ [StatementKind.importStatement, .exportStatement, .exportDefault]

instance (kind : StatementKind) : Decidable kind.OfModule := inferInstanceAs (Decidable (_ ∈ _))

/-- The statements follow one another from one index up to another, and each is code. A default
export begins like one, unless decorators come first. -/
inductive Outline (tokens : Array Token) : List Statement → Nat → Nat → Prop where
  | nil (i : Nat) : Outline tokens [] i i
  | cons {c : Statement} {cs : List Statement} {j : Nat} (hlt : c.start < c.stop)
      (hcode : Phrase.Spans tokens .code c.start c.stop)
      (hdefault : c.kind = .exportDefault →
        (At tokens c.start .kwExport ∧ At tokens (c.start + 1) .kwDefault) ∨
          At tokens c.start .atSign)
      (hrest : Outline tokens cs c.stop j) : Outline tokens (c :: cs) c.start j

section

variable (h : Outline tokens cs i j)
include h

theorem Outline.bounds : i ≤ j ∧ ∀ c ∈ cs, i ≤ c.start ∧ c.start < c.stop ∧ c.stop ≤ j := by
  induction h with
  | nil i => exact ⟨Nat.le_refl i, nofun⟩
  | cons hlt _ _ _ ih =>
    refine ⟨by omega, List.forall_mem_cons.mpr ⟨⟨Nat.le_refl _, hlt, ih.1⟩, fun c' hc' => ?_⟩⟩
    have := ih.2 c' hc'
    omega

/-- No statement starts inside another. -/
theorem Outline.apart : ∀ c ∈ cs, ∀ c' ∈ cs, c'.start ≤ c.start ∨ c.stop ≤ c'.start := by
  induction h with
  | nil => exact nofun
  | cons hlt _ _ hrest ih =>
    refine List.forall_mem_cons.mpr ⟨List.forall_mem_cons.mpr ⟨.inl (Nat.le_refl _), ?_⟩, ?_⟩
    · exact fun c' hc' => .inr (hrest.bounds.2 c' hc').1
    · intro c' hc'
      have := hrest.bounds.2 c' hc'
      exact List.forall_mem_cons.mpr ⟨.inl (by omega), ih c' hc'⟩

/-- Where a statement starts, no other does. -/
theorem Outline.eq_of_start : ∀ c ∈ cs, ∀ c' ∈ cs, c.start = c'.start → c = c' := by
  induction h with
  | nil => exact nofun
  | @cons c cs _ hlt _ _ hrest ih =>
    have hpast : ∀ c' ∈ cs, c.start ≠ c'.start := fun c' hc' heq => by
      have := (hrest.bounds.2 c' hc').1
      omega
    intro c₁ hc₁ c₂ hc₂ heq
    rcases List.mem_cons.mp hc₁ with heq₁ | hc₁ <;> rcases List.mem_cons.mp hc₂ with heq₂ | hc₂
    · rw [heq₁, heq₂]
    · exact absurd (heq₁ ▸ heq) (hpast c₂ hc₂)
    · exact absurd (heq₂ ▸ heq.symm) (hpast c₁ hc₁)
    · exact ih c₁ hc₁ c₂ hc₂ heq

theorem Outline.defaulted : ∀ st ∈ cs, st.kind = .exportDefault →
      (At tokens st.start .kwExport ∧ At tokens (st.start + 1) .kwDefault) ∨
        At tokens st.start .atSign := by
  induction h with
  | nil => exact nofun
  | cons _ _ hdefault _ ih => exact List.forall_mem_cons.mpr ⟨hdefault, ih⟩

/-- All that comes before a statement or up to its end is code. -/
theorem Outline.code {lo : Nat}
    (hcode : Phrase.Spans tokens .code lo i) : Phrase.Spans tokens .code lo j ∧
      ∀ st ∈ cs, Phrase.Spans tokens .code lo st.start ∧ Phrase.Spans tokens .code lo st.stop := by
  induction h with
  | nil => exact ⟨hcode, nofun⟩
  | cons _ hfirst _ _ ih =>
    obtain ⟨hall, hrest⟩ := ih (hcode.append hfirst)
    exact ⟨hall, List.forall_mem_cons.mpr ⟨⟨hcode, hcode.append hfirst⟩, hrest⟩⟩

theorem Outline.mono (hext : Extends tokens tokens') : Outline tokens' cs i j := by
  induction h with
  | nil i => exact .nil i
  | cons hlt hcode hdefault _ ih =>
    refine .cons hlt (hcode.mono hext) (fun hkind => ?_) ih
    exact (hdefault hkind).imp (fun h => ⟨h.1.mono hext, h.2.mono hext⟩) (·.mono hext)

end

end Downlevel
