import Downlevel.Proofs.Token.Nesting

/-!
# Walks through code

A walk through code passes brackets one by one, and whatever belongs to types as a whole. Behind it
lies a trail (`Trail`): code, and in it the brackets that are still open, none of which belongs to a
type. What comes next follows from the code as a whole (`Trail.cases`), and a run of tokens that
belong to types is passed with the trail as it was (`Trail.run`).

The decorated exports are left out: there any token may stand for `class`.
-/

namespace Downlevel

open Token (At Sided)
open Phrase (Spans)

/-- The tokens from `lo` up to an index are code, but for brackets that are still open. The kinds of
what closes these are listed, the innermost first. -/
inductive Trail (tokens : Array Token) (lo : Nat) : List Kind → Nat → Prop where
  | code {p : Nat} (h : Spans tokens .code lo p) : Trail tokens lo [] p
  | opened {cs : List Kind} {x p : Nat} {o c : Kind} (h : Trail tokens lo cs x)
      (hpair : Kind.Pair o c) (ho : At tokens x o) (hside : Sided tokens false x)
      (hcode : Spans tokens .code (x + 1) p) : Trail tokens lo (c :: cs) p

/-- The open brackets after a token, when those in `cs` are open before it. -/
def turned (kind : Kind) (cs : List Kind) : List Kind :=
  match kind with
  | .parenL => .parenR :: cs
  | .braceL | .dollarBraceL => .braceR :: cs
  | .braceBarL => .braceBarR :: cs
  | .parenR | .braceR | .braceBarR => cs.tail
  | _ => cs

/-- The tokens from `i` up to `j` belong to types, and the one at `j` does not. -/
structure TypeRun (tokens : Array Token) (i j : Nat) : Prop where
  lt : i < j
  types : ∀ y, i ≤ y → y < j → Sided tokens true y
  stop : ¬ Sided tokens true j

/-- A stretch of code, and what closes it. No run of types goes into it from before, and none goes
on after it. -/
structure Site (tokens : Array Token) (lo hi : Nat) : Prop where
  code : Spans tokens .code lo hi
  before : ∀ y, y + 1 = lo → Sided tokens false y
  after : ∀ y, y + 1 = hi → Sided tokens true y → ¬ Sided tokens true hi
  next : ∃ k, At tokens hi k ∧ k ∈ [Kind.parenR, .braceR, .braceBarR, .comma, .eof]

theorem turned_of_plain {k : Kind} (h : k.Plain) (cs : List Kind) : turned k cs = cs := by
  unfold turned
  split <;> first | rfl | exact absurd h (by decide)

theorem turned_of_opener {o c : Kind} (h : Kind.Pair o c) (cs : List Kind) :
    turned o cs = c :: cs := by
  cases h <;> rfl

theorem turned_of_closer {o c : Kind} (h : Kind.Pair o c) (cs : List Kind) :
    turned c cs = cs.tail := by
  cases h <;> rfl

theorem Kind.Pair.eq {o c c' : Kind} (h : Pair o c) (h' : Pair o c') : c = c' := by
  cases h <;> cases h' <;> rfl

theorem Token.Sided.eq {tokens : Array Token} {b b' : Bool} {i : Nat} (h : Sided tokens b i)
    (h' : Sided tokens b' i) : b = b' := by
  obtain ⟨t, ht, rfl⟩ := h
  obtain ⟨t', ht', rfl⟩ := h'
  obtain rfl := Option.some.inj (ht.symm.trans ht')
  rfl

variable {tokens : Array Token} {lo hi p q m : Nat} {cs : List Kind} {c o k : Kind}

/-- What closes a stretch of code is of no other kind. -/
theorem Site.not_at (h : Site tokens lo hi)
    (hk : k ∉ [Kind.parenR, .braceR, .braceBarR, .comma, .eof]) : ¬ At tokens hi k := by
  obtain ⟨k', hk', hmem⟩ := h.next
  exact fun hat => hk (hk'.kind_eq hat ▸ hmem)

/-- A run of types does not go past a place on one side of which there is no type. -/
theorem TypeRun.le_of_edge (h : TypeRun tokens p q)
    (hedge : ∀ y, y + 1 = hi → Sided tokens true y → ¬ Sided tokens true hi) (hlt : p < hi) :
    q ≤ hi := by
  by_contra hgt
  exact hedge (hi - 1) (by omega) (h.types _ (by omega) (by omega))
    (h.types _ (by omega) (by omega))

/-- A run of types that begins in the stretch ends in it. -/
theorem Site.run_le (h : Site tokens lo hi) (hrun : TypeRun tokens p q) (hlt : p < hi) :
    q ≤ hi := hrun.le_of_edge h.after hlt

theorem TypeRun.eq (h : TypeRun tokens p q) (h' : TypeRun tokens p m) : q = m := by
  rcases Nat.lt_trichotomy q m with hlt | heq | hlt
  · exact absurd (h'.types q (Nat.le_of_lt h.lt) hlt) h.stop
  · exact heq
  · exact absurd (h.types m (Nat.le_of_lt h'.lt) hlt) h'.stop

namespace Trail

theorem le (h : Trail tokens lo cs p) : lo ≤ p := by
  induction h with
  | code h => exact h.le
  | opened _ _ _ _ hcode ih => have := hcode.le; omega

theorem append (h : Trail tokens lo cs p) (hcode : Spans tokens .code p q) :
    Trail tokens lo cs q := by
  cases h with
  | code h => exact .code (h.append hcode)
  | opened h hpair ho hside hinner => exact .opened h hpair ho hside (hinner.append hcode)

theorem plain (h : Trail tokens lo cs p) (hk : At tokens p k) (hkind : k.Plain) :
    Trail tokens lo cs (p + 1) := h.append (.single hk hkind)

theorem close (h : Trail tokens lo (c :: cs) p) (hc : At tokens p c) :
    Trail tokens lo cs (p + 1) := by
  cases h with
  | opened h hpair ho _ hinner => exact h.append (.group hpair ho hinner hc (.nil _))

section

variable (hplain : Undecorated tokens)
include hplain

section

variable (h : Trail tokens lo cs p) (hcode : Spans tokens .code lo hi)
include h hcode

/-- What is open is closed before the code ends. -/
theorem split (hle : p ≤ hi) : (cs = [] ∧ Spans tokens .code p hi) ∨
    ∃ c cs' m o, cs = c :: cs' ∧ Kind.Pair o c ∧ Spans tokens .code p m ∧ At tokens m c ∧
      m < hi := by
  induction h with
  | code h => exact .inl ⟨rfl, h.cut hplain (Nat.le_refl _) h.le hle hcode⟩
  | @opened cs x p o c _ hpair ho _ hinner ih =>
    have hlt := hinner.le
    -- the bracket at `x` is closed in any code that goes on over it
    have hclosed : ∀ {e}, Spans tokens .code x e → x < e → ∃ m, Spans tokens .code p m ∧
        At tokens m c ∧ m < e := by
      intro e hx hxe
      obtain ⟨c', m, hpair', hgroup, hc, hrest⟩ := hx.tail_of_opener hplain hxe hpair ho
      obtain rfl := hpair.eq hpair'
      have hpm := hgroup.le_of_closed hplain hc (Spans.mem_closers hpair) (Nat.le_refl _)
        hgroup.le hinner
      exact ⟨m, hinner.cut hplain (Nat.le_refl _) hinner.le hpm hgroup, hc, hrest.le⟩
    obtain ⟨-, hx⟩ | ⟨c', cs', m', o', -, hpair', hx, hc', hm'⟩ := ih (by omega)
    · obtain ⟨m, hcode, hc, hm⟩ := hclosed hx (by omega)
      exact .inr ⟨c, cs, m, o, rfl, hpair, hcode, hc, hm⟩
    · have hxm : x < m' := by
        rcases Nat.eq_or_lt_of_le hx.le with rfl | hlt
        · exact absurd (ho.kind_eq hc') (by cases hpair <;> cases hpair' <;> decide)
        · exact hlt
      obtain ⟨m, hcode, hc, hm⟩ := hclosed hx hxm
      exact .inr ⟨c, cs, m, o, rfl, hpair, hcode, hc, by omega⟩

/-- What comes next in the code: a token that opens and closes nothing, an open bracket, an element,
or what closes the innermost bracket. -/
theorem cases (hlt : p < hi) : (∃ k, At tokens p k ∧ k.Plain) ∨
      (∃ o c, Kind.Pair o c ∧ At tokens p o) ∨ (∃ j, Spans tokens .element p j ∧ j ≤ hi) ∨
      ∃ c cs' o, cs = c :: cs' ∧ Kind.Pair o c ∧ At tokens p c := by
  obtain ⟨e, hrest, hlt, hle⟩ | hclosed : (∃ e, Spans tokens .code p e ∧ p < e ∧ e ≤ hi) ∨
      ∃ c cs' o, cs = c :: cs' ∧ Kind.Pair o c ∧ At tokens p c := by
    obtain ⟨-, hrest⟩ | ⟨c, cs', m, o, rfl, hpair, hrest, hc, hm⟩ :=
      h.split hplain hcode (Nat.le_of_lt hlt)
    · exact .inl ⟨hi, hrest, hlt, Nat.le_refl _⟩
    · rcases Nat.eq_or_lt_of_le hrest.le with rfl | hlt'
      · exact .inr ⟨c, cs', o, rfl, hpair, hc⟩
      · exact .inl ⟨m, hrest, hlt', Nat.le_of_lt hm⟩
  · cases hrest with
    | nil => omega
    | plain ht hk => exact .inl ⟨_, ht, hk⟩
    | group hpair ho => exact .inr (.inl ⟨_, _, hpair, ho⟩)
    | nested helement hrest => exact .inr (.inr (.inl ⟨_, helement, by have := hrest.le; omega⟩))
    | decorated hdefault hmark => exact absurd hmark (hplain _ hdefault.lt_size hdefault)
  · exact .inr (.inr (.inr hclosed))

/-- Where an element opens in the code, there is one. -/
theorem element (hlt : p < hi) (hstart : At tokens p .jsxTagStart) :
    ∃ j, Spans tokens .element p j ∧ j ≤ hi := by
  obtain ⟨k, hk, hkind⟩ | ⟨o, c, hpair, ho⟩ | helement | ⟨c, cs', o, -, hpair, hc⟩ :=
    h.cases hplain hcode hlt
  · exact absurd (hk.kind_eq hstart) hkind.ne_tagStart
  · exact absurd (ho.kind_eq hstart) hpair.ne_tagStart.1
  · exact helement
  · exact absurd (hc.kind_eq hstart) hpair.ne_tagStart.2

theorem next (hlt : p < hi) (hk : At tokens p k) (hside : Sided tokens false p)
    (hkind : k ≠ .jsxTagStart) :
    Trail tokens lo (turned k cs) (p + 1) := by
  obtain ⟨k', hk', hplain'⟩ | ⟨o, c, hpair, ho⟩ | ⟨j, helement, -⟩ | ⟨c, cs', o, rfl, hpair, hc⟩ :=
    h.cases hplain hcode hlt
  · obtain rfl := hk.kind_eq hk'
    rw [turned_of_plain hplain']
    exact h.plain hk hplain'
  · obtain rfl := hk.kind_eq ho
    rw [turned_of_opener hpair]
    exact .opened h hpair hk hside (.nil _)
  · exact absurd (hk.kind_eq helement.element_head.1.at) hkind
  · obtain rfl := hk.kind_eq hc
    rw [turned_of_closer hpair]
    exact h.close hk

end

theorem nil_of_end (h : Trail tokens lo cs hi) (hcode : Spans tokens .code lo hi) : cs = [] := by
  obtain ⟨hnil, -⟩ | ⟨_, _, m, _, -, -, hrest, -, hm⟩ := h.split hplain hcode (Nat.le_refl _)
  · exact hnil
  · have := hrest.le
    omega

/-! ## Types -/

/-- Types that cover the next token begin after the innermost bracket, and go on as code. -/
theorem covered (h : Trail tokens lo cs p) (hbefore : ∀ y, y + 1 = lo → Sided tokens false y)
    (hp : Covered tokens p) :
    ∃ b, p < b ∧ Spans tokens .code p b ∧ ∀ y, p ≤ y → y < b → Sided tokens true y := by
  obtain ⟨a, b, hap, hpb, hcode, htypes⟩ := hp
  -- the code up to `p` goes back to a token that belongs to no type
  obtain ⟨lo', hcode', hbefore'⟩ : ∃ lo', Spans tokens .code lo' p ∧
      ∀ y, y + 1 = lo' → Sided tokens false y := by
    cases h with
    | code h => exact ⟨lo, h, hbefore⟩
    | @opened _ x _ _ _ _ _ _ hside hinner =>
      refine ⟨x + 1, hinner, fun y hy => ?_⟩
      obtain rfl : y = x := by omega
      exact hside
  have hle : lo' ≤ a := by
    by_contra hlt
    obtain ⟨y, rfl⟩ : ∃ y, lo' = y + 1 := ⟨lo' - 1, by omega⟩
    have hle := hcode'.le
    exact absurd ((hbefore' y rfl).eq (htypes y (by omega) (by omega))) (by decide)
  exact ⟨b, hpb, hcode'.cut hplain hle hap (Nat.le_of_lt hpb) hcode,
    fun y hy hyb => htypes y (by omega) hyb⟩

/-- A run of types is passed with the trail as it was, and stays inside the stretch of code. -/
theorem run (hcovered : ∀ i, Sided tokens true i → Covered tokens i) (hsite : Site tokens lo hi)
    (h : Trail tokens lo cs p) (hlt : p < hi) (htype : Sided tokens true p) :
    ∃ q, q ≤ hi ∧ TypeRun tokens p q ∧ Trail tokens lo cs q := by
  induction hn : hi - p using Nat.strongRecOn generalizing p with
  | ind n ih =>
  subst hn
  obtain ⟨b, hpb, hcode, htypes⟩ := h.covered hplain hsite.before (hcovered p htype)
  have hwall : ∀ {q}, (∀ y, p ≤ y → y < q → Sided tokens true y) → q ≤ hi ∨ q ≤ p := by
    intro q hq
    by_contra hno
    exact hsite.after (hi - 1) (by omega) (hq _ (by omega) (by omega)) (hq _ (by omega) (by omega))
  have hb : b ≤ hi := by have := hwall htypes; omega
  by_cases hnext : Sided tokens true b
  · have hlt' : b < hi := by
      rcases Nat.eq_or_lt_of_le hb with rfl | hlt'
      · exact absurd hnext (hsite.after (b - 1) (by omega) (htypes _ (by omega) (by omega)))
      · exact hlt'
    obtain ⟨q, hq, hrun, htrail⟩ := ih (hi - b) (by omega) (h.append hcode) hlt' hnext rfl
    have hbq := hrun.lt
    refine ⟨q, hq, ⟨by omega, fun y hy hyq => ?_, hrun.stop⟩, htrail⟩
    by_cases hyb : y < b
    · exact htypes y hy hyb
    · exact hrun.types y (by omega) hyq
  · exact ⟨b, hb, ⟨hpb, htypes, hnext⟩, h.append hcode⟩

/-- The type that a function returns is passed together with the parenthesis before it and the arrow
after it. -/
theorem returned (hcovered : ∀ i, Sided tokens true i → Covered tokens i)
    (hsite : Site tokens lo hi) (h : Trail tokens lo cs p) (hlt : p < hi)
    (hparen : At tokens p .parenR) (hside : Sided tokens false p)
    (hrun : TypeRun tokens (p + 1) q) (harrow : At tokens q .arrow) (hq : q < hi) :
    Trail tokens lo cs.tail (q + 1) := by
  have hlt' := hrun.lt
  have hafter := h.next hplain hsite.code hlt hparen hside (by decide)
  obtain ⟨q', -, hrun', htrail⟩ := hafter.run hplain hcovered hsite (by omega)
    (hrun.types _ (Nat.le_refl _) hlt')
  obtain rfl := hrun.eq hrun'
  exact htrail.plain harrow (by decide)

end

end Trail

/-! ## Braces -/

section

variable (hplain : Undecorated tokens)
  (hcovered : ∀ i, Sided tokens true i → Covered tokens i)
include hplain hcovered

/-- What closes a bracket belongs to a type only if what opens it does. -/
theorem sided_closer {x : Nat} (hside : Sided tokens false x)
    (hinner : Spans tokens .code (x + 1) m) (hpair : Kind.Pair o c) (hc : At tokens m c) :
    Sided tokens false m := by
  obtain ⟨t, ht, hkind⟩ := hc
  cases htype : t.isType with
  | false => exact ⟨t, ht, htype⟩
  | true =>
    obtain ⟨a, b, ham, hmb, hcode, htypes⟩ := hcovered m ⟨t, ht, htype⟩
    have hle := hinner.le
    by_cases hax : a ≤ x
    · exact absurd (hside.eq (htypes x hax (by omega))) (by decide)
    · have := hinner.le_of_closed hplain ⟨t, ht, hkind⟩ (Spans.mem_closers hpair) (by omega) ham
        hcode
      omega

/-- The code between brackets is a site of its own. -/
theorem site_of_group {x : Nat} (hside : Sided tokens false x)
    (hinner : Spans tokens .code (x + 1) m) (hpair : Kind.Pair o c) (hc : At tokens m c) :
    Site tokens (x + 1) m := by
  refine ⟨hinner, fun y hy => ?_, fun _ _ _ htype => ?_, c, hc, by cases hpair <;> decide⟩
  · obtain rfl : y = x := by omega
    exact hside
  · have hclose := sided_closer hplain hcovered hside hinner hpair hc
    exact absurd (hclose.eq htype) (by decide)

end

end Downlevel
