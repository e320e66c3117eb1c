import Downlevel.Grammar.Element
import Downlevel.Proofs.Token.Phrase

/-!
# Elements and their shapes

What an element holds directly, with the number of children that each part counts for (`Kids`). The
shape that is noted on the `<` of an element says how many there are in all (`Shaped`). The parts
that lowering goes into, braces and inner elements, are on the same side of the types as the `<`: in
a value no part of the frame of an element belongs to a type.
-/

namespace Downlevel

open Token (At Opens Extends)
open Phrase (Spans)

/-- The token at an index is there, and `b` says whether it belongs to a type. -/
def Token.Sided (tokens : Array Token) (b : Bool) (i : Nat) : Prop :=
  ∃ t, tokens[i]? = some t ∧ t.isType = b

open Token (Sided)

theorem Token.Sided.lt_size {tokens : Array Token} {b : Bool} {i : Nat} (h : Sided tokens b i) :
    i < tokens.size := by
  obtain ⟨t, ht, -⟩ := h
  exact (Array.getElem?_eq_some_iff.mp ht).1

theorem Token.Sided.push {tokens : Array Token} {b : Bool} {i : Nat} (h : Sided tokens b i)
    (t : Token) : Sided (tokens.push t) b i := by
  have hlt := h.lt_size
  obtain ⟨p, hp, hb⟩ := h
  exact ⟨p, by rw [Array.getElem?_push, if_neg (Nat.ne_of_lt hlt), hp], hb⟩

/-! ## Parts of elements -/

/-- What follows the `=` of an attribute. -/
inductive Given (tokens : Array Token) (b : Bool) : Nat → Nat → Prop where
  | string {i : Nat} (ht : At tokens i .string) : Given tokens b i (i + 1)
  | braced {i m : Nat} (ho : At tokens i .braceL) (hside : Sided tokens b i)
      (hinner : Spans tokens .code (i + 1) m) (hc : At tokens m .braceR) :
      Given tokens b i (m + 1)
  | element {i j : Nat} (h : Spans tokens .element i j) (hside : Sided tokens b i) :
      Given tokens b i j

/-- The attributes of a tag. -/
inductive Props (tokens : Array Token) (b : Bool) : Nat → Nat → Prop where
  | nil (i : Nat) : Props tokens b i i
  /-- `{...props}` -/
  | spread {i m j : Nat} (ho : At tokens i .braceL) (hside : Sided tokens b i)
      (hellipsis : At tokens (i + 1) .ellipsis) (hinner : Spans tokens .code (i + 2) m)
      (hc : At tokens m .braceR) (hrest : Props tokens b (m + 1) j) : Props tokens b i j
  | bare {i n j : Nat} (hname : AttributeName tokens i n) (hrest : Props tokens b n j) :
      Props tokens b i j
  | valued {i n m j : Nat} (hname : AttributeName tokens i n) (heq : At tokens n .eq)
      (hvalue : Given tokens b (n + 1) m) (hrest : Props tokens b m j) : Props tokens b i j

/-- A child, and for how many it counts. -/
inductive Kid (tokens : Array Token) (b : Bool) : Nat → Nat → Nat → Prop where
  | text {i : Nat} (ht : At tokens i .jsxText) : Kid tokens b 1 i (i + 1)
  | blank {i : Nat} (ht : At tokens i .jsxEmptyText) : Kid tokens b 0 i (i + 1)
  /-- `{}` -/
  | hollow {i : Nat} (ho : At tokens i .braceL) (hside : Sided tokens b i)
      (hc : At tokens (i + 1) .braceR) : Kid tokens b 0 i (i + 2)
  /-- `{...x}` -/
  | spread {i m : Nat} (ho : At tokens i .braceL) (hside : Sided tokens b i)
      (hellipsis : At tokens (i + 1) .ellipsis) (hinner : Spans tokens .code (i + 2) m)
      (hc : At tokens m .braceR) : Kid tokens b 2 i (m + 1)
  | filled {i m : Nat} {k : Kind} (ho : At tokens i .braceL) (hside : Sided tokens b i)
      (hfirst : At tokens (i + 1) k) (hk : k ∉ [Kind.ellipsis, .braceR])
      (hinner : Spans tokens .code (i + 1) m) (hc : At tokens m .braceR) :
      Kid tokens b 1 i (m + 1)
  | element {i j : Nat} (h : Spans tokens .element i j) (hside : Sided tokens b i) :
      Kid tokens b 1 i j

/-- The children of an element, and how many they count for. -/
inductive Kids (tokens : Array Token) (b : Bool) : Nat → Nat → Nat → Prop where
  | nil (i : Nat) : Kids tokens b 0 i i
  | cons {n m i j l : Nat} (hfirst : Kid tokens b n i j) (hrest : Kids tokens b m j l) :
      Kids tokens b (n + m) i l

/-- A closing tag up to its `>`. -/
structure Closing (tokens : Array Token) (l e : Nat) : Prop where
  start : At tokens l .jsxTagStart
  slash : At tokens (l + 1) .slash
  name : e = l + 2 ∨ TagName tokens (l + 2) e

/-- The element that opens at `x` has a shape; `e` is where its last `>` belongs. -/
inductive Shaped (tokens : Array Token) (x : Nat) : ElementShape → Nat → Prop where
  | fragment {b : Bool} {count l e : Nat} (hside : Sided tokens b x)
      (hend : At tokens (x + 1) .jsxTagEnd) (hkids : Kids tokens b count (x + 2) l)
      (hclosing : Closing tokens l e) : Shaped tokens x (Grammar.elementShape false count) e
  | empty {b key : Bool} {n m : Nat} (hside : Sided tokens b x)
      (hname : TagName tokens (x + 1) n) (hprops : Props tokens b n m)
      (hslash : At tokens m .slash) : Shaped tokens x (Grammar.elementShape key 0) (m + 1)
  | paired {b key : Bool} {count n m l e : Nat} (hside : Sided tokens b x)
      (hname : TagName tokens (x + 1) n) (hprops : Props tokens b n m)
      (hend : At tokens m .jsxTagEnd) (hkids : Kids tokens b count (m + 1) l)
      (hclosing : Closing tokens l e) : Shaped tokens x (Grammar.elementShape key count) e

/-- The name of a tag stands from one index up to another, before an attribute or the end of the
tag. -/
structure Headed (tokens : Array Token) (i n : Nat) : Prop where
  name : TagName tokens i n
  next : ∃ k, At tokens n k ∧ k ∈ [Kind.jsxName, .braceL, .slash, .jsxTagEnd]

/-! ## What the notes on tokens say -/

/-- The token at an index lies in a stretch of code that belongs to types as a whole. -/
def Covered (tokens : Array Token) (i : Nat) : Prop :=
  ∃ a b, a ≤ i ∧ i < b ∧ Spans tokens .code a b ∧ ∀ y, a ≤ y → y < b → Sided tokens true y

/-- Every element has the parts that its shape says. -/
def Formed (tokens : Array Token) : Prop :=
  ∀ {i : Nat} {t : Token} {shape : ElementShape}, tokens[i]? = some t → t.shape = some shape →
    At tokens i .jsxTagStart ∧ ∃ e, Shaped tokens i shape e ∧ At tokens e .jsxTagEnd

/-- An element is a fragment or has a name, and what is named in a tag can only be read. -/
structure Titled (tokens : Array Token) : Prop where
  tag : ∀ {i : Nat} {t : Token}, tokens[i]? = some t → t.shape.isSome = true →
    At tokens (i + 1) .jsxTagEnd ∨ ∃ n, Headed tokens (i + 1) n
  role : ∀ {i : Nat} {t : Token}, tokens[i]? = some t → t.kind = .jsxName →
    t.role = none ∨ t.role = some .access

/-- What is noted on the tokens is so. The decorated exports are left out: there any token may stand
for `class`. -/
structure Faithful (tokens : Array Token) : Prop where
  undecorated : Undecorated tokens
  covered : ∀ i, Sided tokens true i → Covered tokens i
  formed : Formed tokens

variable {tokens tokens' : Array Token} {b b' : Bool} {i j l e x n : Nat} {shape : ElementShape}

/-! ## Phrases -/

theorem Given.spans (h : Given tokens b i j) : Spans tokens .value i j := by
  cases h with
  | string ht => exact .stringValue ht
  | braced ho _ hinner hc => exact .bracedValue ho hinner hc
  | element h => exact .elementValue h

theorem Props.spans (h : Props tokens b i j) : Spans tokens .properties i j := by
  induction h with
  | nil i => exact .noAttributes i
  | spread ho _ hellipsis hinner hc _ ih => exact .consAttribute (.spread ho hellipsis hinner hc) ih
  | bare hname _ ih => exact .consAttribute (.bare hname) ih
  | valued hname heq hvalue _ ih => exact .consAttribute (.valued hname heq hvalue.spans) ih

theorem Props.append (h : Props tokens b i j) (h' : Props tokens b j l) : Props tokens b i l := by
  induction h with
  | nil => exact h'
  | spread ho hside hellipsis hinner hc _ ih => exact .spread ho hside hellipsis hinner hc (ih h')
  | bare hname _ ih => exact .bare hname (ih h')
  | valued hname heq hvalue _ ih => exact .valued hname heq hvalue (ih h')

theorem Kid.spans (h : Kid tokens b n i j) : Spans tokens .child i j := by
  cases h with
  | text ht => exact .textChild (.inl ht)
  | blank ht => exact .textChild (.inr ht)
  | hollow ho _ hc => exact .bracedChild ho (.nil _) hc
  | spread ho _ hellipsis hinner hc =>
    exact .bracedChild ho (.plain hellipsis (by decide) hinner) hc
  | filled ho _ _ _ hinner hc => exact .bracedChild ho hinner hc
  | element h => exact .elementChild h

theorem Kids.spans (h : Kids tokens b n i j) : Spans tokens .children i j := by
  induction h with
  | nil i => exact .noChildren i
  | cons hfirst _ ih => exact .consChild hfirst.spans ih

theorem Closing.closingTag (h : Closing tokens l e) (hend : At tokens e .jsxTagEnd) :
    ClosingTag tokens l (e + 1) := by
  rcases h.name with rfl | hname
  · exact .fragment h.start h.slash hend
  · exact .named h.start h.slash hname hend

theorem Closing.lt (h : Closing tokens l e) : l + 1 < e := by
  rcases h.name with rfl | hname
  · omega
  · have := hname.lt
    omega

theorem Shaped.spans (h : Shaped tokens x shape e) (hopens : Opens tokens x)
    (hend : At tokens e .jsxTagEnd) : Spans tokens .element x (e + 1) := by
  cases h with
  | fragment _ htag hkids hclosing =>
    exact .fragment hopens htag hkids.spans (hclosing.closingTag hend)
  | empty _ hname hprops hslash => exact .empty hopens hname hprops.spans hslash hend
  | paired _ hname hprops htag hkids hclosing =>
    exact .paired hopens hname hprops.spans htag hkids.spans (hclosing.closingTag hend)

theorem Shaped.lt (h : Shaped tokens x shape e) : x < e := by
  cases h with
  | fragment _ _ hkids hclosing =>
    have := hkids.spans.le
    have := hclosing.lt
    omega
  | empty _ hname hprops =>
    have := hname.lt
    have := hprops.spans.le
    omega
  | paired _ hname hprops _ hkids hclosing =>
    have := hname.lt
    have := hprops.spans.le
    have := hkids.spans.le
    have := hclosing.lt
    omega

theorem Shaped.titled (h : Shaped tokens x shape e) :
    At tokens (x + 1) .jsxTagEnd ∨ ∃ n, Headed tokens (x + 1) n := by
  cases h with
  | fragment _ hend => exact .inl hend
  | empty _ hname hprops hslash =>
    exact .inr ⟨_, hname, hprops.spans.properties_head (.inl hslash)⟩
  | paired _ hname hprops hend =>
    exact .inr ⟨_, hname, hprops.spans.properties_head (.inr hend)⟩

/-! ## More tokens and more notes -/

section Mono

variable (hext : Extends tokens tokens')
include hext

theorem Headed.mono (h : Headed tokens i n) : Headed tokens' i n := by
  obtain ⟨k, hk, hkind⟩ := h.next
  exact ⟨h.name.mono hext, k, hk.mono hext, hkind⟩

theorem Closing.mono (h : Closing tokens l e) : Closing tokens' l e :=
  ⟨h.start.mono hext, h.slash.mono hext, h.name.imp_right (·.mono hext)⟩

section

variable (hside : ∀ y, i ≤ y → y < j → Sided tokens b y → Sided tokens' b' y)
include hside

/-- Attributes stay what they are when all that lie on one side go to the same side. -/
theorem Given.mono (h : Given tokens b i j) : Given tokens' b' i j := by
  cases h with
  | string ht => exact .string (ht.mono hext)
  | braced ho hb hinner hc =>
    exact .braced (ho.mono hext) (hside _ (Nat.le_refl _) (by have := hinner.le; omega) hb)
      (hinner.mono hext) (hc.mono hext)
  | element h hb => exact .element (h.mono hext) (hside _ (Nat.le_refl _) h.element_lt hb)

theorem Props.mono (h : Props tokens b i j) : Props tokens' b' i j := by
  induction h with
  | nil i => exact .nil i
  | spread ho hb hellipsis hinner hc hrest ih =>
    have hle := hinner.le
    have hle' := hrest.spans.le
    exact .spread (ho.mono hext) (hside _ (Nat.le_refl _) (by omega) hb) (hellipsis.mono hext)
      (hinner.mono hext) (hc.mono hext) (ih fun y hy => hside y (by omega))
  | bare hname hrest ih =>
    have hlt := hname.lt
    exact .bare (hname.mono hext) (ih fun y hy => hside y (by omega))
  | valued hname heq hvalue hrest ih =>
    have hlt := hname.lt
    have hle := hvalue.spans.le
    have hle' := hrest.spans.le
    refine .valued (hname.mono hext) (heq.mono hext) (hvalue.mono hext ?_)
      (ih fun y hy => hside y (by omega))
    exact fun y hy hlt => hside y (by omega) (by omega)

theorem Kid.mono (h : Kid tokens b n i j) : Kid tokens' b' n i j := by
  have hlt := h.spans.child_lt
  cases h with
  | text ht => exact .text (ht.mono hext)
  | blank ht => exact .blank (ht.mono hext)
  | hollow ho hb hc => exact .hollow (ho.mono hext) (hside _ (Nat.le_refl _) hlt hb) (hc.mono hext)
  | spread ho hb hellipsis hinner hc =>
    exact .spread (ho.mono hext) (hside _ (Nat.le_refl _) hlt hb) (hellipsis.mono hext)
      (hinner.mono hext) (hc.mono hext)
  | filled ho hb hfirst hk hinner hc =>
    exact .filled (ho.mono hext) (hside _ (Nat.le_refl _) hlt hb) (hfirst.mono hext) hk
      (hinner.mono hext) (hc.mono hext)
  | element h hb => exact .element (h.mono hext) (hside _ (Nat.le_refl _) hlt hb)

theorem Kids.mono (h : Kids tokens b n i j) : Kids tokens' b' n i j := by
  induction h with
  | nil i => exact .nil i
  | cons hfirst hrest ih =>
    have hlt := hfirst.spans.child_lt
    have hle := hrest.spans.le
    refine .cons (hfirst.mono hext ?_) (ih fun y hy => hside y (by omega))
    exact fun y hy hlt => hside y hy (by omega)

end

/-- An element keeps its shape when all of it that lies on one side goes to the same side. -/
theorem Shaped.mono (h : Shaped tokens x shape e)
    (hside : ∀ b, ∃ b', ∀ y, x ≤ y → y < e → Sided tokens b y → Sided tokens' b' y) :
    Shaped tokens' x shape e := by
  have hlt := h.lt
  cases h with
  | @fragment b _ l _ hb hend hkids hclosing =>
    obtain ⟨b', hside⟩ := hside b
    have hle := hclosing.lt
    exact .fragment (hside x (Nat.le_refl x) hlt hb) (hend.mono hext)
      (hkids.mono hext fun y hy hlt => hside y (by omega) (by omega)) (hclosing.mono hext)
  | @empty b _ n m hb hname hprops hslash =>
    obtain ⟨b', hside⟩ := hside b
    have hle := hname.lt
    exact .empty (hside x (Nat.le_refl x) hlt hb) (hname.mono hext)
      (hprops.mono hext fun y hy hlt => hside y (by omega) (by omega)) (hslash.mono hext)
  | @paired b _ _ n m l _ hb hname hprops hend hkids hclosing =>
    obtain ⟨b', hside⟩ := hside b
    have hle := hname.lt
    have hle' := hprops.spans.le
    have hle'' := hkids.spans.le
    have hle''' := hclosing.lt
    exact .paired (hside x (Nat.le_refl x) hlt hb) (hname.mono hext)
      (hprops.mono hext fun y hy hlt => hside y (by omega) (by omega)) (hend.mono hext)
      (hkids.mono hext fun y hy hlt => hside y (by omega) (by omega)) (hclosing.mono hext)

end Mono

end Downlevel
