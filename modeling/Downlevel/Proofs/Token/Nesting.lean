import Downlevel.Proofs.Lowering.Scan
import Downlevel.Proofs.Token.Shape

/-!
# How phrases nest

Code that begins inside a phrase and reaches its end goes on from there as code (`Spans.cut`). So
two phrases never overlap in part: code that begins inside an element does not get out of it
(`Spans.not_inside`), code that begins between brackets does not get past the one that closes
(`Spans.le_of_closed`), and braces that open in a phrase close in it (`Spans.brace_within`).

The decorated exports are left out: there any token may stand for `class`.
-/

namespace Downlevel.Phrase.Spans

open Token (At)
open Lowering (NameTokens closingTag_parts elementEnd?_eq)

variable {tokens : Array Token} {p : Phrase} {i j m a e : Nat} {k o c : Kind}

/-! ## Code from its first token on -/

theorem eq_of_closer (h : Spans tokens code i e) (hk : At tokens i k)
    (hcloser : k ∈ [Kind.parenR, .braceR, .braceBarR, .jsxTagEnd]) : i = e := by
  rcases h.code_head with heq | ⟨k', hk', hno⟩
  · exact heq
  · exact absurd (hk.kind_eq hk' ▸ hcloser) hno

theorem eq_of_closingTag (h : Spans tokens code i e) (hstart : At tokens i .jsxTagStart)
    (hslash : At tokens (i + 1) .slash) : i = e := by
  cases h with
  | nil => rfl
  | plain ht hk => exact absurd (ht.kind_eq hstart) hk.ne_tagStart
  | group hpair ho => exact absurd (ho.kind_eq hstart) hpair.ne_tagStart.1
  | nested helement => exact absurd hslash (Lowering.not_slash_of_element helement)
  | decorated hdefault => cases hdefault.kind_eq hstart

theorem mem_closers (h : Kind.Pair o c) :
    c ∈ [Kind.parenR, .braceR, .braceBarR, .jsxTagEnd] := by
  cases h <;> decide

section

variable (hplain : Undecorated tokens)
include hplain

theorem tail_of_plain (h : Spans tokens code i e) (hlt : i < e) (hk : At tokens i k)
    (hkind : k.Plain) : Spans tokens code (i + 1) e := by
  cases h with
  | nil => omega
  | plain _ _ hrest => exact hrest
  | group hpair ho =>
    rw [hk.kind_eq ho] at hkind
    cases hpair <;> exact absurd hkind (by decide)
  | nested helement => exact absurd (hk.kind_eq helement.element_head.1.at) hkind.ne_tagStart
  | decorated hdefault hmark => exact absurd hmark (hplain _ hdefault.lt_size hdefault)

theorem tail_of_opener (h : Spans tokens code i e) (hlt : i < e) (hpair : Kind.Pair o c)
    (ho : At tokens i o) : ∃ c' m, Kind.Pair o c' ∧ Spans tokens code (i + 1) m ∧
      At tokens m c' ∧ Spans tokens code (m + 1) e := by
  cases h with
  | nil => omega
  | plain ht hk =>
    rw [ht.kind_eq ho] at hk
    cases hpair <;> exact absurd hk (by decide)
  | group hpair' ho' hinner hc hrest =>
    obtain rfl := ho.kind_eq ho'
    exact ⟨_, _, hpair', hinner, hc, hrest⟩
  | nested helement => exact absurd (ho.kind_eq helement.element_head.1.at) hpair.ne_tagStart.1
  | decorated hdefault hmark => exact absurd hmark (hplain _ hdefault.lt_size hdefault)

/-- Code that begins with an element goes on after it. -/
theorem tail_of_element (h : Spans tokens code i e) (hlt : i < e)
    (helement : Spans tokens element i m) : Spans tokens code m e := by
  have hstart := helement.element_head.1.at
  cases h with
  | nil => omega
  | plain ht hk => exact absurd (ht.kind_eq hstart) hk.ne_tagStart
  | group hpair ho => exact absurd (ho.kind_eq hstart) hpair.ne_tagStart.1
  | nested helement' hrest =>
    have hend := elementEnd?_eq hplain helement
    rw [elementEnd?_eq hplain helement'] at hend
    obtain rfl := Option.some.inj hend
    exact hrest
  | decorated hdefault => cases hdefault.kind_eq hstart

theorem cut_token (hk : At tokens i k) (hkind : k.Plain) (hia : i ≤ a) (hai : a ≤ i + 1)
    (hie : i + 1 ≤ e) (h : Spans tokens code a e) : Spans tokens code (i + 1) e := by
  rcases Nat.eq_or_lt_of_le hia with rfl | hlt
  · exact h.tail_of_plain hplain hie hk hkind
  · rwa [show a = i + 1 by omega] at h

theorem cut_name (hname : NameTokens tokens i j) (hia : i ≤ a) (haj : a ≤ j) (hje : j ≤ e)
    (h : Spans tokens code a e) : Spans tokens code j e := by
  induction hname generalizing a with
  | nil i => rwa [show a = i by omega] at h
  | @cons i j k ht hk hrest ih =>
    have hle := hrest.le
    by_cases ha : a ≤ i + 1
    · refine ih (Nat.le_refl _) hle hje (cut_token hplain ht ?_ hia ha (by omega) h)
      revert hk
      exact (by decide : ∀ k ∈ [Kind.jsxName, .dot, .colon], k.Plain) _
    · exact ih (by omega) haj hje h

/-! ## Code from the inside of a phrase -/

/-- Where phrases of one length come in the induction: an element is a child, and a child is one of
the children. -/
def rank : Phrase → Nat
  | element => 0
  | code | value | child => 1
  | property => 2
  | properties | children => 3

omit hplain in
theorem rank_le (p : Phrase) : rank p ≤ 3 := by
  cases p <;> decide

/-- Brackets that close are not passed from the inside, given this of all that is shorter. -/
theorem cut_group {n : Nat} (ih : ∀ {p : Phrase} {i j a e : Nat}, j - i < n → Spans tokens p i j →
      i ≤ a → a ≤ j → j ≤ e → Spans tokens code a e → Spans tokens code j e)
    (hpair : Kind.Pair o c) (ho : At tokens i o) (hinner : Spans tokens code (i + 1) m)
    (hc : At tokens m c) (hn : m - i ≤ n) (hia : i ≤ a) (ham : a ≤ m + 1) (hme : m + 1 ≤ e)
    (h : Spans tokens code a e) : Spans tokens code (m + 1) e := by
  have hle := hinner.le
  rcases Nat.eq_or_lt_of_le hia with rfl | hlt
  · obtain ⟨c', m', hpair', hinner', hc', hrest⟩ := h.tail_of_opener hplain (by omega) hpair ho
    have hle' := hinner'.le
    suffices m' = m by rwa [this] at hrest
    rcases Nat.le_total m m' with hmm | hmm
    · have htail := ih (by omega) hinner (Nat.le_refl _) hle hmm hinner'
      exact (htail.eq_of_closer hc (mem_closers hpair)).symm
    · have htail := ih (by omega) hinner' (Nat.le_refl _) hle' hmm hinner
      exact htail.eq_of_closer hc' (mem_closers hpair')
  · by_cases ha : a = m + 1
    · rwa [ha] at h
    · have htail := ih (by omega) hinner hlt (by omega) (by omega) h
      have heq := htail.eq_of_closer hc (mem_closers hpair)
      omega

omit hplain in
/-- A closing tag is not passed from the inside. -/
theorem not_closing (hplain : Undecorated tokens) (hclosing : ClosingTag tokens i j) (hia : i ≤ a)
    (haj : a < j) (hje : j ≤ e) : ¬ Spans tokens code a e := by
  intro h
  obtain ⟨m, rfl, hstart, hslash, hname, hend⟩ := closingTag_parts hclosing
  have hle := hname.le
  rcases Nat.eq_or_lt_of_le hia with rfl | hlt
  · have heq := h.eq_of_closingTag hstart hslash
    omega
  · have htail : Spans tokens code m e := by
      by_cases ha : a ≤ i + 2
      · exact cut_name hplain hname (Nat.le_refl _) hle (by omega)
          (cut_token hplain hslash (by decide) hlt ha (by omega) h)
      · exact cut_name hplain hname (by omega) (by omega) (by omega) h
    have heq := htail.eq_of_closer hend (by decide)
    omega

/-- Code that begins inside an element does not get out of it, given that it can be cut after all
that is shorter. -/
theorem not_inside_of (hcut : ∀ {p : Phrase} {i' j' a : Nat}, j' - i' < j - i →
      Spans tokens p i' j' → i' ≤ a → a ≤ j' → j' ≤ e → Spans tokens code a e →
      Spans tokens code j' e)
    (h : Spans tokens element i j) (hia : i < a) (haj : a < j) (hje : j ≤ e) :
    ¬ Spans tokens code a e := by
  intro hcode
  cases h with
  | @fragment _ l _ hopens hend hchildren hclosing =>
    have hle := hchildren.le
    have hlt := hclosing.lt
    by_cases hal : l ≤ a
    · exact not_closing hplain hclosing hal haj hje hcode
    refine not_closing hplain hclosing (Nat.le_refl l) hlt hje ?_
    by_cases ha : a = i + 1
    · subst ha
      have heq := hcode.eq_of_closer hend (by decide)
      omega
    · exact hcut (by omega) hchildren (by omega) (by omega) (by omega) hcode
  | @empty _ n m hopens hname hattributes hslash hend =>
    have hlt := hname.lt
    have hle := hattributes.le
    have htag : ∀ {a : Nat}, n ≤ a → a ≤ m + 1 → Spans tokens code a e → False := by
      intro a hna ham hcode
      have htail : Spans tokens code (m + 1) e := by
        by_cases ha : a ≤ m
        · exact cut_token hplain hslash (by decide) (Nat.le_refl m) (by omega) (by omega)
            (hcut (by omega) hattributes hna ha (by omega) hcode)
        · rwa [show a = m + 1 by omega] at hcode
      have heq := htail.eq_of_closer hend (by decide)
      omega
    by_cases hna : n ≤ a
    · exact htag hna (by omega) hcode
    · exact htag (Nat.le_refl n) (by omega)
        (cut_name hplain (.ofTagName hname) hia (by omega) (by omega) hcode)
  | @paired _ n m l _ hopens hname hattributes hend hchildren hclosing =>
    have hlt := hname.lt
    have hle := hattributes.le
    have hle' := hchildren.le
    have hlt' := hclosing.lt
    by_cases hal : l ≤ a
    · exact not_closing hplain hclosing hal haj hje hcode
    by_cases ham : m < a
    · exact not_closing hplain hclosing (Nat.le_refl l) hlt' hje
        (hcut (by omega) hchildren ham (by omega) (by omega) hcode)
    have hcode' : Spans tokens code m e := by
      by_cases hna : n ≤ a
      · exact hcut (by omega) hattributes hna (by omega) (by omega) hcode
      · exact hcut (by omega) hattributes (Nat.le_refl n) hle (by omega)
          (cut_name hplain (.ofTagName hname) hia (by omega) (by omega) hcode)
    have heq := hcode'.eq_of_closer hend (by decide)
    omega

/-- Code that begins inside a phrase and reaches its end goes on from there. -/
theorem cut (h : Spans tokens p i j) (hia : i ≤ a) (haj : a ≤ j) (hje : j ≤ e)
    (hcode : Spans tokens code a e) : Spans tokens code j e := by
  -- the induction is on the length of the phrase, and for one length on its rank
  induction hn : 4 * (j - i) + rank p using Nat.strongRecOn generalizing p i j a e with
  | ind n ih =>
  subst hn
  have ihrank : ∀ {q : Phrase} {i' j' a : Nat}, 4 * (j' - i') + rank q < 4 * (j - i) + rank p →
      Spans tokens q i' j' → i' ≤ a → a ≤ j' → j' ≤ e → Spans tokens code a e →
      Spans tokens code j' e := fun hlt h hia haj hje hcode => ih _ hlt h hia haj hje hcode rfl
  have ihshort : ∀ {q : Phrase} {i' j' a e : Nat}, j' - i' < j - i → Spans tokens q i' j' →
      i' ≤ a → a ≤ j' → j' ≤ e → Spans tokens code a e → Spans tokens code j' e :=
    fun {q _ _ _ _} hlt h hia haj hje hcode =>
      ih _ (by have := rank_le q; omega) h hia haj hje hcode rfl
  have hlast : a = j → Spans tokens code j e := fun ha => ha ▸ hcode
  have helement : Spans tokens element i j → Spans tokens code j e := by
    intro h
    rcases Nat.eq_or_lt_of_le hia with rfl | hgt
    · exact hcode.tail_of_element hplain (by have := h.element_lt; omega) h
    · by_contra hno
      refine not_inside_of hplain ihshort h hgt (Nat.lt_of_le_of_ne haj ?_) hje hcode
      exact fun ha => hno (hlast ha)
  -- what has two parts is cut after the first one, unless the code begins after it
  have hparts : ∀ {q : Phrase} {m : Nat}, i < m → Spans tokens q m j →
      (a ≤ m → m ≤ e → Spans tokens code m e) → Spans tokens code j e := by
    intro q m him hrest hfirst
    have hle := hrest.le
    by_cases ha : a ≤ m
    · exact ihshort (by omega) hrest (Nat.le_refl m) hle hje (hfirst ha (by omega))
    · exact ihshort (by omega) hrest (by omega) haj hje hcode
  cases h with
  | nil | noAttributes | noChildren => exact hlast (by omega)
  | plain ht hk hrest =>
    exact hparts (Nat.lt_succ_self i) hrest fun ha hme => cut_token hplain ht hk hia ha hme hcode
  | group hpair ho hinner hc hrest =>
    have hle := hinner.le
    have hle' := hrest.le
    exact hparts (by omega) hrest fun ha hme =>
      cut_group hplain ihshort hpair ho hinner hc (by omega) hia ha hme hcode
  | nested helement hrest =>
    have hle := hrest.le
    exact hparts helement.element_lt hrest fun ha hme =>
      ihrank (by simp only [rank]; omega) helement hia ha hme hcode
  | decorated hdefault hmark => exact absurd hmark (hplain _ hdefault.lt_size hdefault)
  | fragment hopens hend hchildren hclosing =>
    exact helement (.fragment hopens hend hchildren hclosing)
  | empty hopens hname hattributes hslash hend =>
    exact helement (.empty hopens hname hattributes hslash hend)
  | paired hopens hname hattributes hend hchildren hclosing =>
    exact helement (.paired hopens hname hattributes hend hchildren hclosing)
  | @spread _ m ho hellipsis hinner hc =>
    have hle := hinner.le
    exact cut_group hplain ihshort .brace ho (.plain hellipsis (by decide) hinner) hc (by omega) hia
      haj hje hcode
  | bare hname => exact cut_name hplain (.ofAttributeName hname) hia haj hje hcode
  | @valued _ n _ hname heq hvalue =>
    refine hparts (Nat.lt_succ_of_lt hname.lt) hvalue fun han hne => ?_
    by_cases hna : n ≤ a
    · exact cut_token hplain heq (by decide) hna han hne hcode
    · exact cut_token hplain heq (by decide) (Nat.le_refl n) (by omega) hne
        (cut_name hplain (.ofAttributeName hname) hia (by omega) (by omega) hcode)
  | consAttribute hfirst hrest =>
    have hle := hrest.le
    exact hparts hfirst.property_lt hrest fun ha hme =>
      ihrank (by simp only [rank]; omega) hfirst hia ha hme hcode
  | stringValue ht => exact cut_token hplain ht (by decide) hia haj hje hcode
  | bracedValue ho hinner hc | bracedChild ho hinner hc =>
    have hle := hinner.le
    exact cut_group hplain ihshort .brace ho hinner hc (by omega) hia haj hje hcode
  | elementValue h | elementChild h => exact helement h
  | textChild ht =>
    rcases ht with ht | ht
    · exact cut_token hplain ht (by decide) hia haj hje hcode
    · exact cut_token hplain ht (by decide) hia haj hje hcode
  | consChild hfirst hrest =>
    have hle := hrest.le
    exact hparts hfirst.child_lt hrest fun ha hme =>
      ihrank (by simp only [rank]; omega) hfirst hia ha hme hcode

/-! ## What follows -/

/-- Code that begins inside an element does not get out of it. -/
theorem not_inside (h : Spans tokens element i j) (hia : i < a) (haj : a < j) (hje : j ≤ e) :
    ¬ Spans tokens code a e :=
  not_inside_of hplain (fun _ => cut hplain) h hia haj hje

/-- Code between brackets does not get past the one that closes. -/
theorem le_of_closed (hinner : Spans tokens code i m) (hc : At tokens m c)
    (hcloser : c ∈ [Kind.parenR, .braceR, .braceBarR, .jsxTagEnd]) (hia : i ≤ a) (ham : a ≤ m)
    (h : Spans tokens code a e) : e ≤ m := by
  by_contra hlt
  have heq := (cut hplain hinner hia ham (by omega) h).eq_of_closer hc hcloser
  omega

/-- A brace that opens in a phrase closes in it. -/
theorem brace_within {p : Phrase} {x : Nat} (h : Spans tokens p i j) (hx : i ≤ x) (hxj : x < j)
    (ho : At tokens x .braceL) : ∃ m, Spans tokens code (x + 1) m ∧ At tokens m .braceR ∧
    m < j := by
  have hwiden : ∀ {y z}, y ≤ z → (∃ m, Spans tokens code (x + 1) m ∧ At tokens m .braceR ∧ m < y) →
      ∃ m, Spans tokens code (x + 1) m ∧ At tokens m .braceR ∧ m < z := by
    rintro y z hle ⟨m, hm, hc, hlt⟩
    exact ⟨m, hm, hc, Nat.lt_of_lt_of_le hlt hle⟩
  -- a token of another kind is passed over
  have hskip : ∀ {y k}, At tokens y k → k ≠ .braceL → y ≤ x → y + 1 ≤ x := by
    intro y k hk hne hle
    rcases Nat.eq_or_lt_of_le hle with rfl | hlt
    · exact absurd (hk.kind_eq ho) hne
    · exact hlt
  have hname : ∀ {y z}, NameTokens tokens y z → y ≤ x → z ≤ x := by
    intro y z h hle
    by_contra hlt
    obtain ⟨k, hk, hmem⟩ := h.at hle (by omega)
    rw [hk.kind_eq ho] at hmem
    exact absurd hmem (by decide)
  have hclosing : ∀ {y z}, ClosingTag tokens y z → x < z → x < y := by
    intro y z h hlt
    obtain ⟨m, rfl, hstart, hslash, hparts, hend⟩ := closingTag_parts h
    by_contra hge
    have hle := hskip hend (by decide) (hname hparts
      (hskip hslash (by decide) (hskip hstart (by decide) (Nat.le_of_not_lt hge))))
    omega
  -- braces around code are found, or the brace lies inside or after them
  have hbraces : ∀ {y z}, At tokens y .braceL → Spans tokens code (y + 1) z → At tokens z .braceR →
      (y + 1 ≤ x → x < z → ∃ m, Spans tokens code (x + 1) m ∧ At tokens m .braceR ∧ m < z) →
      y ≤ x → x < z + 1 → ∃ m, Spans tokens code (x + 1) m ∧ At tokens m .braceR ∧ m < z + 1 := by
    intro y z hy hinner hz ih hle hlt
    rcases Nat.eq_or_lt_of_le hle with rfl | hgt
    · exact ⟨z, hinner, hz, Nat.lt_succ_self z⟩
    · have hne : x ≠ z := fun heq => Kind.noConfusion (ho.kind_eq (heq ▸ hz))
      exact hwiden (Nat.le_succ z) (ih hgt (by omega))
  induction h with
  | nil | noAttributes | noChildren => omega
  | plain ht hk _ ih => exact ih (hskip ht (by rintro rfl; exact absurd hk (by decide)) hx) hxj
  | @group i m j o c hpair ho' hinner hc hrest ih₁ ih₂ =>
    have hle := hrest.le
    by_cases hm : m < x
    · exact ih₂ hm hxj
    · have hne : x ≠ m := by
        rintro rfl
        exact absurd (hc.kind_eq ho) (by cases hpair <;> decide)
      rcases Nat.eq_or_lt_of_le hx with rfl | hlt
      · obtain rfl := ho.kind_eq ho'
        cases hpair
        exact ⟨m, hinner, hc, by omega⟩
      · exact hwiden (by omega) (ih₁ hlt (by omega))
  | @nested i m j _ hrest ih₁ ih₂ =>
    have hle := hrest.le
    by_cases hm : m ≤ x
    · exact ih₂ hm hxj
    · exact hwiden (by omega) (ih₁ hx (by omega))
  | decorated hdefault hmark => exact absurd hmark (hplain _ hdefault.lt_size hdefault)
  | @fragment i l j hopens hend hchildren hclose ih =>
    have hx' := hskip hend (by decide) (hskip hopens.at (by decide) hx)
    exact hwiden (Nat.le_of_lt hclose.lt) (ih hx' (hclosing hclose hxj))
  | @empty i n m hopens htag _ hslash hend ih =>
    have hx' := hname (.ofTagName htag) (hskip hopens.at (by decide) hx)
    have hm : x < m := by
      by_contra hge
      have := hskip hend (by decide) (hskip hslash (by decide) (by omega))
      omega
    exact hwiden (by omega) (ih hx' hm)
  | @paired i n m l j hopens htag hattributes hend hchildren hclose ih₁ ih₂ =>
    have hlt := hclose.lt
    have hle := hchildren.le
    have hx' := hname (.ofTagName htag) (hskip hopens.at (by decide) hx)
    by_cases hm : x < m
    · exact hwiden (by omega) (ih₁ hx' hm)
    · have hx'' := hskip hend (by decide) (Nat.le_of_not_lt hm)
      exact hwiden (Nat.le_of_lt hlt) (ih₂ hx'' (hclosing hclose hxj))
  | spread ho' hellipsis hinner hc ih =>
    exact hbraces ho' (.plain hellipsis (by decide) hinner) hc
      (fun hx hlt => ih (hskip hellipsis (by decide) hx) hlt) hx hxj
  | bare hattribute =>
    have := hname (.ofAttributeName hattribute) hx
    omega
  | valued hattribute heq _ ih =>
    exact ih (hskip heq (by decide) (hname (.ofAttributeName hattribute) hx)) hxj
  | stringValue ht =>
    have := hskip ht (by decide) hx
    omega
  | bracedValue ho' hinner hc ih => exact hbraces ho' hinner hc ih hx hxj
  | elementValue _ ih => exact ih hx hxj
  | textChild ht =>
    have := ht.elim (hskip · (by decide) hx) (hskip · (by decide) hx)
    omega
  | bracedChild ho' hinner hc ih => exact hbraces ho' hinner hc ih hx hxj
  | elementChild _ ih => exact ih hx hxj
  | @consAttribute i m j _ hrest ih₁ ih₂ | @consChild i m j _ hrest ih₁ ih₂ =>
    have hle := hrest.le
    by_cases hm : m ≤ x
    · exact ih₂ hm hxj
    · exact hwiden (by omega) (ih₁ hx (by omega))

end

end Downlevel.Phrase.Spans
