import Downlevel.Proofs.Lowering.Children
import Downlevel.Proofs.Lowering.Lands
import Downlevel.Proofs.Token.Trail

/-!
# Elements are lowered up to their end

Given that what is nested in an element is lowered up to its end (`Knot.Through`), so is the element
(`element_passes`). Lowering finds out again where attributes, children and the code in braces end,
and finds what the phrases say: the scan over a tag answers one kind for each attribute
(`attributesFrom_lands`), the code in braces is left at its closing brace (`balanced_passes`), and
as many children are written as the shape of the element says (`written_lands`). Types may stand in
the code in braces, but the element itself belongs to none.
-/

namespace Downlevel.Lowering

open Token (At Opens Sided)
open Phrase (Spans)
open Sheet (hasKinds_one_iff hasKinds_two_iff kindAt_of_at)

variable {n : Nat} {tokens : Array Token} {count l : Nat} {kinds : List AttributeKind}
  {cs : List Kind} {d : Draft} {kind : Kind} {rest stop : Nat}

/-- Elements are lowered, and what is noted on the tokens is so. -/
structure Scene.Noted (c : Scene) : Prop extends Faithful c.sheet.tokens where
  lowers : c.pragmas.isSome = true

/-- From `lo` up to `hi`, walks through code go on: brackets are passed one by one; runs of types,
elements and enumerations as a whole. -/
structure Knot.Through (c : Scene) (lo hi : Nat) (k : Knot) : Prop where
  token : ∀ {l m i : Nat} {cs : List Kind} {t : Token}, lo ≤ i → m ≤ hi →
    Site c.sheet.tokens l m → l ≤ i → i < m →
    (c.pragmas.isSome = true → Trail c.sheet.tokens l cs i) → c.sheet.tokens[i]? = some t →
    Lands c i k.token fun _ j => i < j ∧ j ≤ m ∧ (c.pragmas.isSome = true →
      Trail c.sheet.tokens l (if t.isType then cs else turned t.kind cs) j)
  element : ∀ {i j : Nat}, c.pragmas.isSome = true → lo ≤ i → j ≤ hi →
    Spans c.sheet.tokens .element i j → Sided c.sheet.tokens false i → Passes c i k.element j

/-! ## Attributes as they are scanned -/

/-- What comes after the name of an attribute: its value, or what is no part of it. -/
def Assigned (tokens : Array Token) (n j : Nat) : Prop :=
  (At tokens n .eq ∧ Given tokens false (n + 1) j) ∨
    (j = n ∧ ∃ k, At tokens n k ∧ k ∈ [Kind.jsxName, .braceL, .slash, .jsxTagEnd])

/-- The tokens from one index up to another are an attribute of the kind. -/
inductive Attribute (tokens : Array Token) : AttributeKind → Nat → Nat → Prop where
  | spread {i m : Nat} (ho : At tokens i .braceL) (hside : Sided tokens false i)
      (hellipsis : At tokens (i + 1) .ellipsis) (hinner : Spans tokens .code (i + 2) m)
      (hc : At tokens m .braceR) : Attribute tokens .spread i (m + 1)
  | named {kind : AttributeKind} {i n j : Nat} (hkind : kind ≠ .spread)
      (hname : AttributeName tokens i n) (hkey : kind = .key → n = i + 1)
      (hvalue : Assigned tokens n j) : Attribute tokens kind i j

/-- The tokens from one index up to another are attributes of the kinds. -/
inductive Attributes (tokens : Array Token) : List AttributeKind → Nat → Nat → Prop where
  | nil (i : Nat) : Attributes tokens [] i i
  | cons {kind : AttributeKind} {kinds : List AttributeKind} {i m j : Nat}
      (hfirst : Attribute tokens kind i m) (hrest : Attributes tokens kinds m j) :
      Attributes tokens (kind :: kinds) i j

/-- What comes after the attributes of a tag, up to the end of the element. -/
inductive Finish (tokens : Array Token) : Nat → Nat → Prop where
  | empty {m : Nat} (hslash : At tokens m .slash) (hend : At tokens (m + 1) .jsxTagEnd) :
      Finish tokens m (m + 2)
  | paired {count m l j : Nat} (hend : At tokens m .jsxTagEnd)
      (hchildren : Kids tokens false count (m + 1) l) (hclosing : ClosingTag tokens l j) :
      Finish tokens m j

/-- No text among the children is cleaned away. -/
def Scene.Worded (c : Scene) : Prop :=
  ∀ i, At c.sheet.tokens i .jsxText → Markup.clean (c.sheet.textAt i).toList ≠ []

/-- From the token at `i` up to the one at `m` children are lowered, and what is written counts for
so many. -/
def Counts (c : Scene) (k : Knot) (n i m count : Nat) : Prop :=
  ∀ comma, Lands c i (writtenBounded k comma n) fun ws j =>
    j = m ∧ (c.Worded → (ws.map Written.weight).sum = count)

variable {c : Scene} {lo hi i j m : Nat} {body : Array Token} {last : Token}

theorem Finish.head (h : Finish tokens i j) : At tokens i .slash ∨ At tokens i .jsxTagEnd := by
  cases h with
  | empty hslash => exact .inl hslash
  | paired hend => exact .inr hend

theorem Finish.lt (h : Finish tokens i j) : i < j := by
  cases h with
  | empty => omega
  | paired _ hchildren hclosing => have := hchildren.spans.le; have := hclosing.lt; omega

/-- What an element has is what its shape says. -/
theorem shaped_of_element (hnoted : Faithful tokens) (h : Spans tokens .element i j) : ∃ t shape e,
    tokens[i]? = some t ∧ t.shape = some shape ∧ Shaped tokens i shape e ∧
      At tokens e .jsxTagEnd ∧ j = e + 1 := by
  obtain ⟨t, ht, hkind, hsome⟩ := h.element_head.1
  obtain ⟨shape, hshape⟩ := Option.isSome_iff_exists.mp hsome
  obtain ⟨-, e, hshaped, hend⟩ := hnoted.formed ht hshape
  have hend' := elementEnd?_eq hnoted.undecorated (hshaped.spans ⟨t, ht, hkind, hsome⟩ hend)
  refine ⟨t, shape, e, ht, hshape, hshaped, hend, ?_⟩
  exact Option.some.inj ((elementEnd?_eq hnoted.undecorated h).symm.trans hend')

/-- An element without a name is a fragment; any other has attributes. -/
theorem element_parts (hnoted : Faithful tokens)
    (h : Spans tokens .element i j) (hside : Sided tokens false i) : (At tokens (i + 1) .jsxTagEnd ∧
      ∃ count l, Kids tokens false count (i + 2) l ∧ ClosingTag tokens l j) ∨
    (¬ At tokens (i + 1) .jsxTagEnd ∧
      ∃ n m, TagName tokens (i + 1) n ∧ Props tokens false n m ∧ Finish tokens m j) := by
  have hnot : ∀ {n}, TagName tokens (i + 1) n → ¬ At tokens (i + 1) .jsxTagEnd :=
    fun hname hend => Kind.noConfusion (hname.first.kind_eq hend)
  obtain ⟨t, shape, e, -, -, hshaped, hlast, rfl⟩ := shaped_of_element hnoted h
  cases hshaped with
  | fragment hb hend hkids hclosing =>
    obtain rfl := hb.eq hside
    exact .inl ⟨hend, _, _, hkids, hclosing.closingTag hlast⟩
  | empty hb hname hprops hslash =>
    obtain rfl := hb.eq hside
    exact .inr ⟨hnot hname, _, _, hname, hprops, .empty hslash hlast⟩
  | paired hb hname hprops hend hkids hclosing =>
    obtain rfl := hb.eq hside
    exact .inr ⟨hnot hname, _, _, hname, hprops, .paired hend hkids (hclosing.closingTag hlast)⟩

theorem not_slash_of_tagEnd {s : Sheet} (h : At s.tokens i .jsxTagEnd) :
    ¬ s.hasKinds i [.slash, .jsxTagEnd] = true := by
  rw [hasKinds_two_iff]
  exact fun hslash => Kind.noConfusion (h.kind_eq hslash.1)

theorem expectTagEnd_eq {d : Draft} (h : At c.sheet.tokens d.editor.index .jsxTagEnd) :
    expectTagEnd c d = .ok ((), d) := by
  unfold expectTagEnd
  rw [run_look (c.sheet.hasKinds d.editor.index [.jsxTagEnd]) rfl, Sheet.hasKinds_one_iff.mpr h]
  rfl

theorem expectTagEnd_passes (h : At c.sheet.tokens i .jsxTagEnd) : Passes c i expectTagEnd i := by
  refine .seeing ?_
  rw [if_neg (by simp [Sheet.hasKinds_one_iff.mpr h])]
  exact .pure rfl

theorem Assigned.not_colon (h : Assigned tokens n j) : ∃ k, At tokens n k ∧ k ≠ .colon := by
  rcases h with ⟨heq, -⟩ | ⟨-, k, hk, hkind⟩
  · exact ⟨_, heq, by decide⟩
  · refine ⟨k, hk, ?_⟩
    rintro rfl
    exact absurd hkind (by decide)

theorem Attribute.le {kind : AttributeKind} (h : Attribute tokens kind i j) : i ≤ j := by
  cases h with
  | spread _ _ _ hinner => have := hinner.le; omega
  | named _ hname _ hvalue =>
    have := hname.lt
    rcases hvalue with ⟨-, hvalue⟩ | ⟨rfl, -⟩
    · have := hvalue.spans.le
      omega
    · omega

theorem Attributes.le (h : Attributes tokens kinds i j) : i ≤ j := by
  induction h with
  | nil => exact Nat.le_refl _
  | cons hfirst _ ih => exact Nat.le_trans hfirst.le ih

/-- A name is followed by a colon only if it goes on after it. -/
theorem kindAt_after_name {s : Sheet} (hname : AttributeName s.tokens i n)
    (hvalue : Assigned s.tokens n j) :
    (s.kindAt (i + 1) = .colon ∧ n = i + 3) ∨ (s.kindAt (i + 1) ≠ .colon ∧ n = i + 1) := by
  cases hname with
  | single =>
    obtain ⟨k, hk, hcolon⟩ := hvalue.not_colon
    exact .inr ⟨by rwa [kindAt_of_at hk], rfl⟩
  | spaced _ hcolon => exact .inl ⟨kindAt_of_at hcolon, rfl⟩

section Ahead

variable (hplain : Undecorated c.sheet.tokens) {index : Nat}
include hplain

theorem afterBraces_lands (ho : At c.sheet.tokens index .braceL)
    (hinner : Spans c.sheet.tokens .code (index + 1) m) (hc : At c.sheet.tokens m .braceR) :
    Lands c i (afterBraces index) fun stop j => j = i ∧ stop = m + 1 := by
  refine .sheet ?_
  rw [closingBrace?_eq hplain ho hinner hc]
  exact .pure ⟨rfl, rfl⟩

theorem afterValue_lands (h : Spans c.sheet.tokens .value index m) :
    Lands c i (afterValue index) fun stop j => j = i ∧ stop = m := by
  refine .sheet ?_
  cases h with
  | stringValue ht =>
    rw [kindAt_of_at ht]
    exact .pure ⟨rfl, rfl⟩
  | bracedValue ho hinner hc =>
    rw [kindAt_of_at ho]
    exact afterBraces_lands hplain ho hinner hc
  | elementValue helement =>
    rw [kindAt_of_at helement.element_head.1.at]
    refine .sheet ?_
    rw [elementEnd?_eq hplain helement]
    exact .pure ⟨rfl, rfl⟩

theorem namedAttributeAt_lands (hname : AttributeName c.sheet.tokens index n)
    (hvalue : Assigned c.sheet.tokens n m) : Lands c i (namedAttributeAt index) fun found j =>
      j = i ∧ found.2 = m ∧ Attribute c.sheet.tokens found.1 index m := by
  have hcolon := kindAt_after_name hname hvalue
  refine .sheet ?_
  extract_lets isKey afterName rest
  have hafter : afterName = n := by
    rcases hcolon with ⟨hcolon, rfl⟩ | ⟨hcolon, rfl⟩
    · exact if_pos (by rw [hcolon]; rfl)
    · exact if_neg (by simpa using hcolon)
  have hkey : isKey = true → n = index + 1 := by
    intro hkey
    rcases hcolon with ⟨hcolon, -⟩ | ⟨-, heq⟩
    · simp [isKey, hcolon] at hkey
    · exact heq
  have hrest : ∀ stop j, j = i ∧ stop = m → Lands c j (rest stop) fun found j =>
      j = i ∧ found.2 = m ∧ Attribute c.sheet.tokens found.1 index m := by
    rintro stop j ⟨rfl, rfl⟩
    refine .pure ⟨rfl, rfl, ?_⟩
    split
    · rename_i hiskey
      exact .named nofun hname (fun _ => hkey hiskey) hvalue
    · exact .named nofun hname nofun hvalue
  rw [hafter]
  rcases hvalue with ⟨heq, hvalue⟩ | ⟨rfl, k, hk, hkind⟩
  · rw [if_pos (by rw [kindAt_of_at heq]; rfl)]
    exact (afterValue_lands hplain hvalue.spans).bind hrest
  · rw [if_neg]
    · exact hrest _ _ ⟨rfl, rfl⟩
    · rw [kindAt_of_at hk]
      revert hkind
      exact (by decide : ∀ k ∈ [Kind.jsxName, .braceL, .slash, .jsxTagEnd], ¬ (k == .eq) = true) k

/-- The scan over a named attribute goes on after its value. -/
theorem namedFrom_lands (hname : AttributeName c.sheet.tokens index l)
    (hvalue : Assigned c.sheet.tokens l j)
    (hrest : Lands c i (attributesFrom j n) fun kinds i' =>
      i' = i ∧ Attributes c.sheet.tokens kinds j m) :
    Lands c i (attributesFrom index (n + 1)) fun kinds i' =>
      i' = i ∧ Attributes c.sheet.tokens kinds index m := by
  have hfirst : At c.sheet.tokens index .jsxName := by
    cases hname with
    | single hname => exact hname
    | spaced hspace => exact hspace
  refine .sheet ?_
  rw [kindAt_of_at hfirst]
  refine (namedAttributeAt_lands hplain hname hvalue).bind fun found i' h => ?_
  obtain ⟨kind, next⟩ := found
  obtain ⟨rfl, rfl, hattribute⟩ := h
  exact hrest.bind fun kinds i' h => .pure ⟨h.1, .cons hattribute h.2⟩

/-- The scan over a tag answers one kind for each attribute. -/
theorem attributesFrom_lands (h : Props c.sheet.tokens false index m)
    (hend : At c.sheet.tokens m .slash ∨ At c.sheet.tokens m .jsxTagEnd) (hn : m - index < n) :
    Lands c i (attributesFrom index n) fun kinds j =>
      j = i ∧ Attributes c.sheet.tokens kinds index m := by
  induction h generalizing n with
  | nil index =>
    obtain _ | n := n
    · omega
    refine .sheet ?_
    rcases hend with hend | hend <;> rw [kindAt_of_at hend] <;> exact .pure ⟨rfl, .nil _⟩
  | spread ho hside hellipsis hinner hc hrest ih =>
    obtain _ | n := n
    · omega
    have hle := hinner.le
    have hle' := hrest.spans.le
    have hrest := ih (n := n) hend (by omega)
    refine .sheet ?_
    rw [kindAt_of_at ho]
    refine (afterBraces_lands hplain ho (.plain hellipsis (by decide) hinner) hc).bind
      fun next j h => ?_
    obtain ⟨rfl, rfl⟩ := h
    exact hrest.bind fun kinds j h => .pure ⟨h.1, .cons (.spread ho hside hellipsis hinner hc) h.2⟩
  | bare hname hrest ih =>
    obtain _ | n := n
    · omega
    have hlt := hname.lt
    have hle := hrest.spans.le
    exact namedFrom_lands hplain hname (.inr ⟨rfl, hrest.spans.properties_head hend⟩)
      (ih hend (by omega))
  | valued hname heq hvalue hrest ih =>
    obtain _ | n := n
    · omega
    have hlt := hname.lt
    have hle := hvalue.spans.le
    have hle' := hrest.spans.le
    exact namedFrom_lands hplain hname (.inl ⟨heq, hvalue⟩) (ih hend (by omega))

theorem tagAttributes_lands (h : Props c.sheet.tokens false i m)
    (hend : At c.sheet.tokens m .slash ∨ At c.sheet.tokens m .jsxTagEnd) :
    Lands c i tagAttributes fun kinds j => j = i ∧ Attributes c.sheet.tokens kinds i m := by
  have hm : m < c.sheet.tokens.size := hend.elim (·.lt_size) (·.lt_size)
  exact .position (.budget (attributesFrom_lands hplain h hend (by omega)))

end Ahead

section

variable (hwhole : c.sheet.Whole body last)
include hwhole

/-! ## Names -/

omit hwhole in
/-- The name of a tag ends where no further part follows. -/
theorem afterTagName_eq (h : NameParts c.sheet.tokens i m)
    (hnext : ∃ k, At c.sheet.tokens m k ∧ k ∈ [Kind.jsxName, .braceL, .slash, .jsxTagEnd])
    (hn : m - i ≤ n) : afterTagName c.sheet i n = m := by
  induction h generalizing n with
  | nil i =>
    cases n with
    | zero => rfl
    | succ n =>
      obtain ⟨k, hk, hkind⟩ := hnext
      have hno : ∀ mark : Kind, mark ∉ [Kind.jsxName, .braceL, .slash, .jsxTagEnd] →
          ¬ c.sheet.hasKinds i [mark, .jsxName] = true := by
        intro mark hmark hsees
        rw [hasKinds_two_iff] at hsees
        exact hmark (hk.kind_eq hsees.1 ▸ hkind)
      rw [afterTagName, if_neg]
      simp [hno .dot (by decide), hno .colon (by decide)]
  | @cons i j hmark hname hrest ih =>
    obtain ⟨n, rfl⟩ : ∃ n', n = n' + 1 := ⟨n - 1, by have := hrest.le; omega⟩
    rw [afterTagName, if_pos, ih hnext (by omega)]
    simp only [Bool.or_eq_true, hasKinds_two_iff]
    exact hmark.imp (⟨·, hname⟩) (⟨·, hname⟩)

theorem tagName_passes (h : TagName c.sheet.tokens i m)
    (hnext : ∃ k, At c.sheet.tokens m k ∧ k ∈ [Kind.jsxName, .braceL, .slash, .jsxTagEnd]) :
    Passes c i tagName m := by
  obtain ⟨k, hk, hkind⟩ := hnext
  have hm : m < body.size := by
    refine hwhole.lt_of_at hk ?_
    rintro rfl
    exact absurd hkind (by decide)
  have hsize := hwhole.size_tokens
  have hlt := h.lt
  refine .seeing ?_
  rw [if_neg (by simp [Sheet.hasKinds_one_iff.mpr h.first])]
  refine .sheet (.position ?_)
  extract_lets stop written
  have hstop : stop = m := afterTagName_eq h.parts ⟨k, hk, hkind⟩ (by omega)
  rw [hstop]
  split
  · exact (name_passes hwhole (by omega)).bind fun _ =>
      whileBelow_passes (fun i hi => copy_passes hwhole (by omega)) hlt (by omega)
  · exact (replace_passes hwhole (by omega) _).bind fun _ =>
      whileBelow_passes (fun i hi => remove_passes hwhole (by omega)) hlt (by omega)

/-! ## Code in braces -/

/-- How many braces and parentheses are open after a token, when so many were before. -/
def counted (kind : Kind) (braces parens : Nat) : Nat × Nat :=
  match kind with
  | .braceL | .dollarBraceL => (braces + 1, parens)
  | .parenL => (braces, parens + 1)
  | .braceR => (braces - 1, parens)
  | .parenR => (braces, parens - 1)
  | _ => (braces, parens)

omit hwhole in
theorem counted_of_plain (h : kind.Plain) (braces parens : Nat) :
    counted kind braces parens = (braces, parens) := by
  unfold counted
  split
  case h_6 => rfl
  all_goals exact absurd h (by decide)

omit hwhole in
/-- The counts go along with the brackets that are open. -/
theorem counted_turned (hplain : Undecorated tokens) (h : Trail tokens l cs i)
    (hcode : Spans tokens .code l m) (hlt : i < m) (hk : At tokens i kind) :
    (kind = .braceR → cs.count .braceR ≠ 0) ∧ (kind = .parenR → cs.count .parenR ≠ 0) ∧
      counted kind (cs.count .braceR) (cs.count .parenR) =
        ((turned kind cs).count .braceR, (turned kind cs).count .parenR) := by
  obtain ⟨k', hk', hplain'⟩ | ⟨o, c, hpair, ho⟩ | ⟨j, helement, -⟩ | ⟨c, cs', o, rfl, hpair, hc⟩ :=
    h.cases hplain hcode hlt
  · obtain rfl := hk.kind_eq hk'
    rw [counted_of_plain hplain', turned_of_plain hplain']
    refine ⟨?_, ?_, rfl⟩ <;> rintro rfl <;> exact absurd hplain' (by decide)
  · obtain rfl := hk.kind_eq ho
    cases hpair <;> simp [counted, turned]
  · obtain rfl := hk.kind_eq helement.element_head.1.at
    exact ⟨fun h => absurd h (by decide), fun h => absurd h (by decide), rfl⟩
  · obtain rfl := hk.kind_eq hc
    cases hpair <;> simp [counted, turned]

variable {k : Knot}

theorem balancedBounded_eq {braces parens : Nat} {t : Token}
    (ht : c.sheet.tokens[d.editor.index]? = some t) (hi : d.editor.index < body.size)
    (hbrace : t.isType = false → t.kind = .braceR → braces ≠ 0)
    (hparen : t.isType = false → t.kind = .parenR → parens ≠ 0) :
    balancedBounded k braces parens (n + 1) c d = (k.token >>= fun _ =>
        let counts := if t.isType then (braces, parens) else counted t.kind braces parens
        balancedBounded k counts.1 counts.2 n) c d := by
  rw [balancedBounded, run_look _ rfl, atEnd_of_lt hwhole hi, if_neg Bool.false_ne_true,
    run_look _ rfl, Editor.current_of ht]
  cases htype : t.isType with
  | true => rfl
  | false =>
    have hbrace := hbrace htype
    have hparen := hparen htype
    rw [if_neg Bool.false_ne_true, if_neg Bool.false_ne_true]
    -- Both sides match on the kind, so it is named before they are reduced.
    generalize t.kind = kind at hbrace hparen
    obtain rfl | hb := eq_or_ne kind .braceR
    · dsimp only
      rw [if_neg (by simpa using hbrace rfl)]
      rfl
    obtain rfl | hp := eq_or_ne kind .parenR
    · dsimp only
      rw [if_neg (by simpa using hparen rfl)]
      rfl
    unfold counted
    repeat' split
    all_goals first | contradiction | rfl

theorem balancedBounded_closed {parens : Nat} (hc : At c.sheet.tokens d.editor.index .braceR)
    (hside : Sided c.sheet.tokens false d.editor.index) :
    balancedBounded k 0 parens (n + 1) c d = .ok ((), d) := by
  have hi := hwhole.lt_of_at hc (by decide)
  obtain ⟨t, ht, hkind⟩ := hc
  obtain ⟨u, hu, htype⟩ := hside
  obtain rfl := Option.some.inj (ht.symm.trans hu)
  rw [balancedBounded, run_look _ rfl, atEnd_of_lt hwhole hi, if_neg Bool.false_ne_true,
    run_look _ rfl, Editor.current_of ht, if_neg (by simp [htype]), hkind]
  rfl

/-- One draft comes from another by lowering tokens one after the other. -/
inductive Knot.Turns (c : Scene) (k : Knot) : Draft → Draft → Prop where
  | refl (d : Draft) : Turns c k d d
  | step {d d₁ d₂ : Draft} (hrun : k.token c d = .ok ((), d₁)) (hrest : Turns c k d₁ d₂) :
      Turns c k d d₂

variable (hnoted : c.Noted) (hk : k.Through c lo hi)
include hnoted hk

/-- The walk through code in braces gets to the end of a stretch of it, with nothing open there that
was not open before. -/
theorem balancedBounded_reaches (hsite : Site c.sheet.tokens l m) (hm : m < body.size)
    (h : Trail c.sheet.tokens l cs i) (hlo : lo ≤ i) (hle : i ≤ m) (hhi : m ≤ hi) (hn : m - i ≤ n)
    (hd : d.editor.index = i) :
    ∃ n' d', n ≤ n' + (m - i) ∧ k.Turns c d d' ∧ d'.editor.index = m ∧
      d.editor.log.size ≤ d'.editor.log.size ∧
      balancedBounded k (cs.count .braceR) (cs.count .parenR) n c d =
        balancedBounded k 0 0 n' c d' := by
  induction n generalizing i cs d with
  | zero =>
    obtain rfl : i = m := by omega
    obtain rfl := h.nil_of_end hnoted.undecorated hsite.code
    exact ⟨0, d, by omega, .refl d, hd, Nat.le_refl _, rfl⟩
  | succ n ih =>
    rcases Nat.eq_or_lt_of_le hle with rfl | hlt
    · obtain rfl := h.nil_of_end hnoted.undecorated hsite.code
      exact ⟨n + 1, d, by omega, .refl d, hd, Nat.le_refl _, rfl⟩
    · have ht := hwhole.token?_of_lt (Nat.lt_trans hlt hm)
      generalize body[i] = t at ht
      obtain ⟨⟨⟩, d₁, hrun, hlog, hpast, hbound, htrail⟩ :=
        hk.token hlo hhi hsite h.le hlt (fun _ => h) ht d hd
      obtain ⟨hbrace, hparen, hcounts⟩ :=
        counted_turned hnoted.undecorated h hsite.code hlt ⟨t, ht, rfl⟩
      obtain ⟨n', d', hn', hturns, hindex, hlog', heq⟩ :=
        ih (htrail hnoted.lowers) (by omega) hbound (by omega) rfl
      subst hd
      refine ⟨n', d', by omega, .step hrun hturns, hindex, Nat.le_trans hlog hlog', ?_⟩
      rw [balancedBounded_eq hwhole ht (by omega) (fun _ => hbrace) fun _ => hparen, run_bind hrun,
        ← heq, hcounts]
      cases t.isType <;> rfl

/-- The walk through code in braces ends at the closing brace. -/
theorem balancedBounded_passes (hsite : Site c.sheet.tokens l m) (hc : At c.sheet.tokens m .braceR)
    (hside : Sided c.sheet.tokens false m) (h : Trail c.sheet.tokens l cs i) (hlo : lo ≤ i)
    (hle : i ≤ m) (hhi : m ≤ hi) (hn : m - i < n) :
    Passes c i (balancedBounded k (cs.count .braceR) (cs.count .parenR) n) m := by
  intro d hd
  have hm := hwhole.lt_of_at hc (by decide)
  obtain ⟨n', d', hn', -, hindex, hlog, heq⟩ :=
    balancedBounded_reaches hwhole hnoted hk hsite hm h hlo hle hhi (Nat.le_of_lt hn) hd
  obtain ⟨n', rfl⟩ : ∃ n'', n' = n'' + 1 := ⟨n' - 1, by omega⟩
  exact ⟨(), d', heq.trans (balancedBounded_closed hwhole (hindex ▸ hc) (hindex ▸ hside)), hlog,
    hindex⟩

/-- The code in braces is left at the closing brace. -/
theorem balanced_passes {x : Nat} (hside : Sided c.sheet.tokens false x)
    (hinner : Spans c.sheet.tokens .code (x + 1) m) (hc : At c.sheet.tokens m .braceR)
    (h : Spans c.sheet.tokens .code (x + 1) i) (hlo : lo ≤ i) (hle : i ≤ m) (hhi : m ≤ hi) :
    Passes c i (balanced k) m := by
  have hsize := hc.lt_size
  have hsite := site_of_group hnoted.undecorated hnoted.covered hside hinner .brace hc
  have hclose := sided_closer hnoted.undecorated hnoted.covered hside hinner .brace hc
  exact .budget (balancedBounded_passes hwhole hnoted hk hsite hc hclose (.code h) hlo hle hhi
    (by omega))

/-- What stands in braces is lowered, and the closing brace goes. -/
theorem braced_passes {x : Nat} (hside : Sided c.sheet.tokens false x)
    (hinner : Spans c.sheet.tokens .code (x + 1) m) (hc : At c.sheet.tokens m .braceR)
    (h : Spans c.sheet.tokens .code (x + 1) i) (hlo : lo ≤ i) (hle : i ≤ m) (hhi : m < hi) :
    Passes c i (do balanced k; removeExpected .braceR) (m + 1) :=
  (balanced_passes hwhole hnoted hk hside hinner hc h hlo hle (Nat.le_of_lt hhi)).bind fun _ =>
    removeExpected_passes hwhole hc (by decide)

/-! ## Attributes -/

theorem attributeValue_passes (h : Given c.sheet.tokens false i m) (hlo : lo ≤ i)
    (hhi : m ≤ hi) : Passes c i (attributeValue k) m := by
  cases h with
  | string ht =>
    have hi := hwhole.lt_of_at ht (by decide)
    obtain ⟨t, ht, hkind⟩ := ht
    refine .current ht ?_
    rw [hkind]
    refine .currentText fun text => ?_
    split
    · exact replace_passes hwhole hi _
    · exact copy_passes hwhole hi
  | braced ho hside hinner hc =>
    have hi := hwhole.lt_of_at ho (by decide)
    obtain ⟨t, ht, hkind⟩ := ho
    refine .current ht ?_
    rw [hkind]
    exact (remove_passes hwhole hi).bind fun _ =>
      braced_passes hwhole hnoted hk hside hinner hc (.nil _) (by omega) hinner.le (by omega)
  | element helement hside =>
    obtain ⟨t, ht, hkind⟩ := helement.element_head.1.at
    refine .current ht ?_
    rw [hkind]
    exact hk.element hnoted.lowers hlo hhi helement hside

/-- After the name of an attribute comes its value, if it has one. -/
theorem assigned_passes (absent : String) (h : Assigned c.sheet.tokens n m)
    (hlo : lo ≤ n) (hhi : m ≤ hi) : Passes c n (do
      if ← seeing [.eq] then
        replace ": "
        attributeValue k
      else append absent) m := by
  refine .seeing ?_
  rcases h with ⟨heq, hvalue⟩ | ⟨rfl, kind, hkind, hmem⟩
  · rw [if_pos (Sheet.hasKinds_one_iff.mpr heq)]
    exact (replace_passes hwhole (hwhole.lt_of_at heq (by decide)) _).bind fun _ =>
      attributeValue_passes hwhole hnoted hk hvalue (by omega) hhi
  · rw [if_neg]
    · exact append_passes _
    · rw [hasKinds_one_iff]
      intro heq
      rw [hkind.kind_eq heq] at hmem
      exact absurd hmem (by decide)

theorem namedAttribute_passes {kind : AttributeKind} (hkind : kind ≠ .spread)
    (h : Attribute c.sheet.tokens kind i m) (hlo : lo ≤ i) (hhi : m ≤ hi) :
    Passes c i (namedAttribute k) m := by
  cases h with
  | spread => contradiction
  | @named _ _ n _ _ hname _ hvalue =>
    have hrest := assigned_passes hwhole hnoted hk ": true" hvalue
      (Nat.le_trans hlo (Nat.le_of_lt hname.lt)) hhi
    refine .sheet (.position (.seeing ?_))
    have hafter := kindAt_after_name hname hvalue
    cases hname with
    | single hname =>
      have hi := hwhole.lt_of_at hname (by decide)
      rw [if_neg]
      · refine .currentText fun text => ?_
        split
        · exact (copy_passes hwhole hi).bind fun _ => hrest
        · exact .currentText fun text => (replace_passes hwhole hi _).bind fun _ => hrest
      · intro hsees
        obtain ⟨-, hsees⟩ := Sheet.hasKinds_cons_iff.mp hsees
        rcases hafter with ⟨-, heq⟩ | ⟨hne, -⟩
        · omega
        · exact hne (kindAt_of_at (Sheet.hasKinds_two_iff.mp hsees).1)
    | spaced hspace hcolon hname =>
      rw [if_pos]
      · refine (replace_passes hwhole (hwhole.lt_of_at hspace (by decide)) _).bind fun _ => ?_
        refine (remove_passes hwhole (hwhole.lt_of_at hcolon (by decide))).bind fun _ => ?_
        exact (remove_passes hwhole (hwhole.lt_of_at hname (by decide))).bind fun _ => hrest
      · exact Sheet.hasKinds_cons_iff.mpr ⟨hspace, Sheet.hasKinds_two_iff.mpr ⟨hcolon, hname⟩⟩

theorem spreadAttribute_passes (h : Attribute c.sheet.tokens .spread i m) (hlo : lo ≤ i)
    (hhi : m ≤ hi) (asEntry : Bool) : Passes c i (spreadAttribute k asEntry) m := by
  cases h with
  | named hkind => contradiction
  | spread ho hside hellipsis hinner hc =>
    have hle := hinner.le
    have hrest := braced_passes hwhole hnoted hk hside (.plain hellipsis (by decide) hinner) hc
      (.single hellipsis (by decide)) (by omega) hle (by omega)
    refine (blank_passes hwhole (hwhole.lt_of_at ho (by decide))).bind fun _ => ?_
    split
    · exact (copyExpected_passes hwhole hellipsis (by decide)).bind fun _ => hrest
    · exact (removeExpected_passes hwhole hellipsis (by decide)).bind fun _ => hrest

/-! ## Children -/

omit hwhole hnoted hk in
theorem Counts.cons {m : Nat} (h : Counts c k n m stop rest) (w : Written) :
    Lands c m (do return w :: (← writtenBounded k true n)) fun ws j =>
      j = stop ∧ (c.Worded → (ws.map Written.weight).sum = w.weight + rest) := by
  refine Lands.bind (h true) fun ws j hws => .pure ⟨hws.1, fun hworded => ?_⟩
  rw [List.map_cons, List.sum_cons, hws.2 hworded]

/-- A child in braces is written, and then the children after it. -/
theorem bracedChild_counts (ho : At c.sheet.tokens i .braceL) (hside : Sided c.sheet.tokens false i)
    (hfirst : At c.sheet.tokens (i + 1) kind) (hkind : kind ≠ .braceR)
    (hinner : Spans c.sheet.tokens .code (i + 1) m) (hc : At c.sheet.tokens m .braceR)
    (hlo : lo ≤ i) (hhi : m < hi) (hrest : Counts c k n (m + 1) stop rest) :
    Counts c k (n + 1) i stop
      ((if c.sheet.hasKinds i [.braceL, .ellipsis] then Written.spread
        else .child).weight + rest) := by
  intro comma
  have hi := hwhole.lt_of_at ho (by decide)
  obtain ⟨t, ht, hbrace⟩ := ho
  refine .current ht ?_
  rw [hbrace]
  refine .seeing ?_
  rw [if_neg]
  · refine .seeing ((replace_passes hwhole hi _).bind fun _ => ?_)
    refine (balanced_passes hwhole hnoted hk hside hinner hc (.nil _) (by omega) hinner.le
      (by omega)).bind fun _ => ?_
    exact (removeExpected_passes hwhole hc (by decide)).bind fun _ => hrest.cons _
  · rw [hasKinds_two_iff]
    exact fun hsees => hkind (hfirst.kind_eq hsees.2)

/-- A child is written if it counts as one, and then the children after it. -/
theorem writtenBounded_round (h : Kid c.sheet.tokens false count i m) (hlo : lo ≤ i) (hhi : m ≤ hi)
    (hrest : Counts c k n m stop rest) :
    Counts c k (n + 1) i stop (count + rest) := by
  cases h with
  | text hat =>
    intro comma
    have hi := hwhole.lt_of_at hat (by decide)
    obtain ⟨t, ht, hkind⟩ := id hat
    refine .current ht ?_
    rw [hkind]
    refine .look (c.sheet.textAt i) (by rintro d rfl; rfl) ?_
    dsimp only
    split
    · rename_i hempty
      refine (remove_passes hwhole hi).bind fun _ => (hrest comma).mono fun ws j hws => ?_
      exact ⟨hws.1, fun hworded => absurd (List.isEmpty_iff.mp hempty) (hworded i hat)⟩
    · exact (replace_passes hwhole hi _).bind fun _ => hrest.cons .child
  | blank ht =>
    intro comma
    have hi := hwhole.lt_of_at ht (by decide)
    obtain ⟨t, ht, hkind⟩ := ht
    refine .current ht ?_
    rw [hkind, Nat.zero_add]
    exact (remove_passes hwhole hi).bind fun _ => hrest comma
  | hollow ho _ hc =>
    intro comma
    have hi := hwhole.lt_of_at ho (by decide)
    obtain ⟨t, ht, hkind⟩ := ho
    refine .current ht ?_
    rw [hkind, Nat.zero_add]
    refine .seeing ?_
    rw [if_pos (Sheet.hasKinds_two_iff.mpr ⟨⟨t, ht, hkind⟩, hc⟩)]
    refine (remove_passes hwhole hi).bind fun _ => ?_
    exact (remove_passes hwhole (hwhole.lt_of_at hc (by decide))).bind fun _ => hrest comma
  | spread ho hside hellipsis hinner hc =>
    have hchild := bracedChild_counts hwhole hnoted hk ho hside hellipsis (by decide)
      (.plain hellipsis (by decide) hinner) hc hlo hhi hrest
    rwa [if_pos (Sheet.hasKinds_two_iff.mpr ⟨ho, hellipsis⟩)] at hchild
  | filled ho hside hfirst hkind hinner hc =>
    have hchild := bracedChild_counts hwhole hnoted hk ho hside hfirst
      (by rintro rfl; exact hkind (by decide)) hinner hc hlo hhi hrest
    rwa [if_neg] at hchild
    rw [hasKinds_two_iff]
    intro hsees
    obtain rfl := hfirst.kind_eq hsees.2
    exact hkind (by decide)
  | element helement hside =>
    intro comma
    obtain ⟨t, ht, hkind⟩ := helement.element_head.1.at
    refine .current ht ?_
    rw [hkind]
    refine .seeing ?_
    rw [if_neg]
    · refine (append_passes _).bind fun _ => ?_
      exact (hk.element hnoted.lowers hlo (by omega) helement hside).bind fun _ =>
        hrest.cons .child
    · rw [hasKinds_two_iff]
      exact fun hsees => not_slash_of_element helement hsees.2

/-- Children are lowered up to the closing tag, and as many are written as count. -/
theorem writtenBounded_counts (h : Kids c.sheet.tokens false count i m) (hlo : lo ≤ i)
    (hhi : m ≤ hi) (hstart : At c.sheet.tokens m .jsxTagStart)
    (hslash : At c.sheet.tokens (m + 1) .slash) (hn : m - i < n) : Counts c k n i m count := by
  induction h generalizing n with
  | nil =>
    intro comma
    obtain _ | n := n
    · omega
    obtain ⟨t, ht, hkind⟩ := hstart
    refine .current ht ?_
    rw [hkind]
    refine .seeing ?_
    rw [if_pos (Sheet.hasKinds_two_iff.mpr ⟨⟨t, ht, hkind⟩, hslash⟩)]
    exact .pure ⟨rfl, fun _ => rfl⟩
  | cons hfirst hrest ih =>
    have := hfirst.spans.child_lt
    have := hrest.spans.le
    obtain _ | n := n
    · omega
    exact writtenBounded_round hwhole hnoted hk hfirst hlo (by omega)
      (ih (by omega) hhi hstart hslash (by omega))

/-- The shape of an element with these children is that of what is written. -/
theorem written_lands (h : Kids c.sheet.tokens false count i m) (hlo : lo ≤ i) (hhi : m ≤ hi)
    (hstart : At c.sheet.tokens m .jsxTagStart) (hslash : At c.sheet.tokens (m + 1) .slash)
    (comma : Bool) :
    Lands c i (written k comma) fun ws j =>
      j = m ∧ (c.Worded → Grammar.elementShape false count = Written.shape ws) := by
  have hsize := hstart.lt_size
  have hcounts := writtenBounded_counts (n := c.sheet.tokens.size + 1) hwhole hnoted hk h hlo hhi
    hstart hslash (by omega)
  refine .budget ((hcounts comma).mono fun ws j hws => ⟨hws.1, fun hworded => ?_⟩)
  rw [Written.shape_eq, hws.2 hworded]

omit hnoted hk in
theorem closingTag_passes (h : ClosingTag c.sheet.tokens i m) (code : String) :
    Passes c i (closingTag code) m := by
  obtain ⟨m, rfl, hstart, hslash, hname, hend⟩ := closingTag_parts h
  have hm := hwhole.lt_of_at hend (by decide)
  have hle := hname.le
  refine (removeExpected_passes hwhole hstart (by decide)).bind fun _ => ?_
  refine (removeExpected_passes hwhole hslash (by decide)).bind fun _ => ?_
  refine Lands.bind (whileHolds_lands (I := fun x => i + 2 ≤ x ∧ x ≤ m)
    (b := fun x => !c.sheet.hasKinds x [.jsxTagEnd]) (fun _ _ => rfl) (fun x hx hb => ?_)
    (fun x hx => ?_) ⟨Nat.le_refl _, hle⟩) fun _ x hx => ?_
  · -- the loop has not yet come to the end of the tag
    have hlt : x < m := by
      rcases Nat.eq_or_lt_of_le hx.2 with rfl | hlt
      · simp [Sheet.hasKinds_one_iff.mpr hend] at hb
      · exact hlt
    refine .atEnd hwhole (by omega) ?_
    refine (remove_passes hwhole (by omega)).mono fun _ y hy => ?_
    omega
  · have := hwhole.size_tokens
    omega
  · obtain rfl : x = m := by
      rcases Nat.eq_or_lt_of_le hx.1.2 with heq | hlt
      · exact heq
      · obtain ⟨kind, hkind, hmem⟩ := hname.at hx.1.1 hlt
        have hsees : c.sheet.hasKinds x [.jsxTagEnd] = true := by simpa using hx.2
        rw [hkind.kind_eq (Sheet.hasKinds_one_iff.mp hsees)] at hmem
        exact absurd hmem (by decide)
    exact replace_passes hwhole hm code

/-- The children of an element and its closing tag. -/
theorem filled_passes (h : Kids c.sheet.tokens false count i l) (hlo : lo ≤ i) (hhi : m ≤ hi)
    (hclosing : ClosingTag c.sheet.tokens l m) (comma : Bool) (code : String) :
    Passes c i (do children k comma; closingTag code) m := by
  obtain ⟨m', rfl, hstart, hslash, -⟩ := closingTag_parts hclosing
  have hlt := hclosing.lt
  have hwritten := written_lands hwhole hnoted hk h hlo (by omega) hstart hslash comma
  rw [children_eq, bind_assoc]
  refine Lands.bind hwritten fun _ l' hl => ?_
  obtain rfl := hl.1
  exact closingTag_passes hwhole hclosing code

omit hnoted hk in
theorem emptyEnd_passes (hslash : At c.sheet.tokens m .slash)
    (hend : At c.sheet.tokens (m + 1) .jsxTagEnd) (code : String) :
    Passes c m (do remove; replace code) (m + 2) :=
  (remove_passes hwhole (hwhole.lt_of_at hslash (by decide))).bind fun _ =>
    replace_passes hwhole (hwhole.lt_of_at hend (by decide)) code

theorem pairedEnd_passes (hend : At c.sheet.tokens m .jsxTagEnd)
    (h : Kids c.sheet.tokens false count (m + 1) l) (hlo : lo ≤ m + 1) (hhi : j ≤ hi)
    (hclosing : ClosingTag c.sheet.tokens l j) (comma : Bool) (code : String) :
    Passes c m (do remove; children k comma; closingTag code) j :=
  (remove_passes hwhole (hwhole.lt_of_at hend (by decide))).bind fun _ =>
    filled_passes hwhole hnoted hk h hlo hhi hclosing comma code

/-! ## The classic runtime -/

theorem mergedAttributes_passes (h : Attributes c.sheet.tokens kinds i m) (hlo : lo ≤ i)
    (hhi : m ≤ hi) (grouped : Bool) :
    Passes c i (mergedAttributes k grouped kinds) m := by
  induction h generalizing grouped with
  | nil =>
    unfold mergedAttributes
    split
    · exact append_passes _
    · exact .pure rfl
  | @cons kind kinds i m' m hfirst hrest ih =>
    have hle := hfirst.le
    have hle' := hrest.le
    have hrest := ih (by omega) hhi
    cases kind with
    | spread =>
      rw [mergedAttributes]
      refine .optional (append_passes _) ((append_passes _).bind fun _ => ?_)
      exact (spreadAttribute_passes hwhole hnoted hk hfirst hlo (by omega) false).bind
        fun _ => hrest false
    | key | named =>
      refine (append_passes _).bind fun _ => ?_
      exact (namedAttribute_passes hwhole hnoted hk (by decide) hfirst hlo
        (by omega)).bind fun _ => hrest true

theorem entryAttributes_passes (h : Attributes c.sheet.tokens kinds i m) (hlo : lo ≤ i)
    (hhi : m ≤ hi) (isFirst : Bool) :
    Passes c i (entryAttributes k isFirst kinds) m := by
  induction h generalizing isFirst with
  | nil => exact .pure rfl
  | @cons kind kinds i m' m hfirst hrest ih =>
    have hle := hfirst.le
    have hle' := hrest.le
    have hrest := ih (by omega) hhi false
    rw [entryAttributes]
    refine .optional (append_passes _) ?_
    split
    · rename_i hkind
      obtain rfl := beq_iff_eq.mp hkind
      exact (spreadAttribute_passes hwhole hnoted hk hfirst hlo (by omega) true).bind
        fun _ => hrest
    · rename_i hkind
      exact (namedAttribute_passes hwhole hnoted hk (by simpa using hkind) hfirst hlo
        (by omega)).bind fun _ => hrest

theorem classicProps_passes (h : Props c.sheet.tokens false i m) (hlo : lo ≤ i)
    (hhi : m ≤ hi) (hend : At c.sheet.tokens m .slash ∨ At c.sheet.tokens m .jsxTagEnd) :
    Passes c i (classicProps k) m := by
  refine (tagAttributes_lands hnoted.undecorated h hend).bind fun kinds j hkinds => ?_
  obtain ⟨rfl, hkinds⟩ := hkinds
  have hentries : Passes c j
      (do append ", \x7b"; entryAttributes k true kinds; append " \x7d") m := by
    refine (append_passes _).bind fun _ => ?_
    exact (entryAttributes_passes hwhole hnoted hk hkinds hlo hhi true).bind fun _ =>
      append_passes _
  refine .look c.options (fun _ _ => rfl) ?_
  split
  · cases hkinds
    exact append_passes _
  · cases hkinds with
    | cons hfirst hrest =>
      cases hrest
      exact (append_passes _).bind fun _ =>
        spreadAttribute_passes hwhole hnoted hk hfirst hlo hhi false
  · split
    · refine (append_passes _).bind fun _ => ?_
      exact (mergedAttributes_passes hwhole hnoted hk hkinds hlo hhi false).bind fun _ =>
        append_passes _
    · exact hentries
  · exact hentries

theorem classicElement_passes (h : Spans c.sheet.tokens .element i j)
    (hside : Sided c.sheet.tokens false i) (hlo : lo ≤ i + 1) (hhi : j ≤ hi) (pragmas : Pragmas) :
    Passes c i (classicElement k pragmas) j := by
  have hopens := h.element_head.1.at
  refine (replace_passes hwhole (hwhole.lt_of_at hopens (by decide)) _).bind fun _ => .seeing ?_
  rcases element_parts hnoted.toFaithful h hside with ⟨hend, _, l, hchildren, hclosing⟩ |
    ⟨hno, n, m, hname, hattributes, hfinish⟩
  · rw [if_pos (Sheet.hasKinds_one_iff.mpr hend)]
    refine (replace_passes hwhole (hwhole.lt_of_at hend (by decide)) _).bind fun _ => ?_
    exact filled_passes hwhole hnoted hk hchildren (by omega) hhi hclosing true _
  · have hle := hattributes.spans.le
    have hlt := hname.lt
    have hlt' := hfinish.lt
    rw [if_neg (by rwa [hasKinds_one_iff])]
    refine (tagName_passes hwhole hname (hattributes.spans.properties_head hfinish.head)).bind
      fun _ => ?_
    refine (classicProps_passes hwhole hnoted hk hattributes (by omega) (by omega)
      hfinish.head).bind fun _ => .seeing ?_
    cases hfinish with
    | empty hslash hend =>
      rw [if_pos (Sheet.hasKinds_two_iff.mpr ⟨hslash, hend⟩)]
      exact emptyEnd_passes hwhole hslash hend _
    | paired hend hchildren hclosing =>
      rw [if_neg (not_slash_of_tagEnd hend)]
      refine (expectTagEnd_passes hend).bind fun _ => ?_
      exact pairedEnd_passes hwhole hnoted hk hend hchildren (by omega) hhi hclosing true _

/-! ## The automatic runtime -/

omit hwhole hnoted hk in
theorem runtimeImport_passes (source base : String) : Passes c i (runtimeImport source base) i := by
  refine .get fun d => ?_
  split
  · exact .pure rfl
  · refine .read ?_
    dsimp only
    split
    · exact .pure rfl
    · refine .get fun d => ?_
      exact Passes.bind (modify_passes (by intro d; rfl)) fun _ => .pure rfl

/-- What is noted for a key is there to be taken out again. -/
theorem keyAttribute_passes (h : Attribute c.sheet.tokens .key i m) (hlo : lo ≤ i) (hhi : m ≤ hi)
    (previous : Option String) : Passes c i (keyAttribute k previous) m := by
  cases h with
  | @named _ _ n _ _ hname hkey hvalue =>
    obtain rfl := hkey rfl
    have hfirst : At c.sheet.tokens i .jsxName := by
      cases hname with
      | single hname => exact hname
    refine (append_passes _).bind fun _ => ?_
    refine (remove_passes hwhole (hwhole.lt_of_at hfirst (by decide))).bind fun _ => .seeing ?_
    rcases hvalue with ⟨heq, hvalue⟩ | ⟨rfl, kind, hkind, hmem⟩
    · rw [if_pos (Sheet.hasKinds_one_iff.mpr heq)]
      refine (remove_passes hwhole (hwhole.lt_of_at heq (by decide))).bind fun _ d hd => ?_
      obtain ⟨_, d', hrun, hlog, hindex⟩ := attributeValue_passes hwhole hnoted hk hvalue
        (by omega) hhi d hd
      rw [run_look d.editor rfl, run_bind hrun, run_look d'.editor rfl, run_look c.sheet rfl,
        Editor.extract?, if_pos (show d.editor.bookmark.logSize ≤ d'.editor.log.size from hlog)]
      refine ⟨_, _, rfl, ?_, hindex⟩
      simp [Editor.bookmark, hlog]
    · rw [if_neg]
      · exact .pure rfl
      · rw [hasKinds_one_iff]
        intro heq
        rw [hkind.kind_eq heq] at hmem
        exact absurd hmem (by decide)

theorem automaticAttributes_passes (h : Attributes c.sheet.tokens kinds i m) (hlo : lo ≤ i)
    (hhi : m ≤ hi) (count : Nat) (key : Option String) :
    Passes c i (automaticAttributes k count key kinds) m := by
  induction h generalizing count key with
  | nil => exact .pure rfl
  | @cons kind kinds i m' m hfirst hrest ih =>
    have hle := hfirst.le
    have hle' := hrest.le
    have hrest := ih (by omega) hhi
    cases kind with
    | key =>
      exact (keyAttribute_passes hwhole hnoted hk hfirst hlo (by omega) key).bind
        fun key => hrest count (some key)
    | spread =>
      rw [automaticAttributes]
      refine .optional (append_passes _) ?_
      exact (spreadAttribute_passes hwhole hnoted hk hfirst hlo (by omega) true).bind
        fun _ => hrest (count + 1) key
    | named =>
      rw [automaticAttributes]
      refine .optional (append_passes _) ?_
      exact (namedAttribute_passes hwhole hnoted hk (by decide) hfirst hlo
        (by omega)).bind fun _ => hrest (count + 1) key

omit hwhole hnoted hk in
theorem fragmentTag_passes (hend : At c.sheet.tokens i .jsxTagEnd) (runtime : String) :
    Passes c i (automaticTag k runtime) i := by
  refine .seeing ?_
  rw [if_pos (Sheet.hasKinds_one_iff.mpr hend)]
  exact (append_passes _).bind fun _ => .pure rfl

theorem automaticTag_passes {n : Nat} (hname : TagName c.sheet.tokens i n)
    (hprops : Props c.sheet.tokens false n m)
    (hhead : At c.sheet.tokens m .slash ∨ At c.sheet.tokens m .jsxTagEnd) (hlo : lo ≤ i)
    (hhi : m ≤ hi) (runtime : String) : Passes c i (automaticTag k runtime) m := by
  have hlt := hname.lt
  refine .seeing ?_
  rw [if_neg]
  · refine (tagName_passes hwhole hname (hprops.spans.properties_head hhead)).bind fun _ => ?_
    refine (tagAttributes_lands hnoted.undecorated hprops hhead).bind fun kinds _ hkinds => ?_
    obtain ⟨rfl, hkinds⟩ := hkinds
    refine (append_passes _).bind fun _ => ?_
    exact automaticAttributes_passes hwhole hnoted hk hkinds (by omega) hhi 0 none
  · rw [hasKinds_one_iff]
    exact fun hend => Kind.noConfusion (hname.first.kind_eq hend)

omit hwhole hnoted hk in
theorem beginChildren_passes (hasChildren isStatic : Bool) (count : Nat) :
    Passes c i (beginChildren hasChildren isStatic count) i := by
  unfold beginChildren
  split
  · exact .optional (append_passes _) (append_passes _)
  · exact .pure rfl

theorem automaticCall_passes (h : Spans c.sheet.tokens .element i j)
    (hside : Sided c.sheet.tokens false i) (hlo : lo ≤ i + 1) (hhi : j ≤ hi)
    (hasChildren isStatic : Bool) : Passes c i (automaticCall k hasChildren isStatic) j := by
  have hopens := h.element_head.1.at
  have hi := hwhole.lt_of_at hopens (by decide)
  obtain ⟨t, ht, -⟩ := hopens
  refine .read (.current ht ((runtimeImport_passes _ _).bind fun runtime => ?_))
  refine (replace_passes hwhole hi _).bind fun _ => ?_
  obtain ⟨m, hm, hfinish, htag⟩ : ∃ m, i + 1 ≤ m ∧ Finish c.sheet.tokens m j ∧
      Passes c (i + 1) (automaticTag k runtime) m := by
    rcases element_parts hnoted.toFaithful h hside with ⟨hend, _, l, hchildren, hclosing⟩ |
      ⟨-, n, m, hname, hprops, hfinish⟩
    · exact ⟨_, Nat.le_refl _, .paired hend hchildren hclosing, fragmentTag_passes hend runtime⟩
    · have hle := hprops.spans.le
      have hlt := hname.lt
      have hlt' := hfinish.lt
      exact ⟨m, by omega, hfinish,
        automaticTag_passes hwhole hnoted hk hname hprops hfinish.head hlo (by omega) runtime⟩
  refine htag.bind fun r => .seeing ?_
  cases hfinish with
  | empty hslash hend =>
    rw [if_pos (Sheet.hasKinds_two_iff.mpr ⟨hslash, hend⟩)]
    refine (append_passes _).bind fun _ => (append_passes _).bind fun _ => ?_
    exact emptyEnd_passes hwhole hslash hend _
  | paired hend hchildren hclosing =>
    rw [if_neg (not_slash_of_tagEnd hend)]
    refine (expectTagEnd_passes hend).bind fun _ => (beginChildren_passes _ _ _).bind fun _ => ?_
    exact pairedEnd_passes hwhole hnoted hk hend hchildren (by omega) hhi hclosing false _

/-! ## Elements of any runtime -/

/-- An element is lowered up to its end. -/
theorem element_passes (h : Spans c.sheet.tokens .element i j)
    (hside : Sided c.sheet.tokens false i) (hlo : lo ≤ i + 1) (hhi : j ≤ hi) :
    Passes c i (element k) j := by
  obtain ⟨t, ht, -, hshape⟩ := h.element_head.1
  obtain ⟨shape, hshape⟩ := Option.isSome_iff_exists.mp hshape
  refine .read (.current ht ?_)
  rw [hshape]
  dsimp only
  split
  · exact classicElement_passes hwhole hnoted hk h hside hlo hhi _
  · split
    · refine (runtimeImport_passes _ _).bind fun _ => ?_
      exact classicElement_passes hwhole hnoted hk h hside hlo hhi _
    · exact automaticCall_passes hwhole hnoted hk h hside hlo hhi _ _

end

end Downlevel.Lowering
