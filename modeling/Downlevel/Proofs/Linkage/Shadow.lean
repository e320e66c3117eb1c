import Mathlib.Data.List.Pairwise
import Downlevel.Linkage.Shadow
import Downlevel.Proofs.Grammar.Scopes

/-!
# Hidden names

A declaration in an inner scope hides what a snippet imports under the same name. How far it does is
a matter of scopes: a declaration of function level reaches as far as the nearest function around
it, any other as far as the nearest scope (`Scope.Home`), and wherever that scope reaches, the name
is hidden (`Shadow.Hidden`).

The marks on tokens are made in another way, by the length of scopes. Since the scopes of a snippet
form a tree, of those around a token the shortest is in all others, and so a name is marked exactly
where it is hidden (`shadowed_mark_iff`).
-/

namespace Downlevel

variable {text : List Char} {dialect : Dialect} {functionOnly : Bool} {globals : List String}
  {stream : TokenStream} {t : Token}

/-! ## Nearest scopes -/

namespace Scope

variable {scopes : List Scope} {level : Level} {i j : Nat} {b c d : Scope}

/-- The number of tokens in a scope. -/
def length (c : Scope) : Nat := c.stop - c.start

theorem covers_iff : c.covers i = true ↔ c.start ≤ i ∧ i < c.stop := by
  simp [covers]

theorem Nested.refl (c : Scope) : c.Nested c :=
  .inr (.inr (.inl ⟨Nat.le_refl _, Nat.le_refl _⟩))

theorem Nested.symm (h : c.Nested d) : d.Nested c := by
  rcases h with h | h | h | h
  · exact .inr (.inl h)
  · exact .inl h
  · exact .inr (.inr (.inr h))
  · exact .inr (.inr (.inl h))

instance : Std.Symm Nested := ⟨fun _ _ => Nested.symm⟩

/-- Of two scopes around a token, the shorter one is in the other. -/
theorem Nested.within (h : c.Nested d) (hc : c.covers i = true) (hd : d.covers i = true)
    (hle : c.length ≤ d.length) : c.Within d := by
  rw [covers_iff] at hc hd
  unfold length at hle
  rcases h with h | h | h | h
  · omega
  · omega
  · exact h
  · obtain ⟨hstart, hstop⟩ := h
    exact ⟨by omega, by omega⟩

theorem Within.covers (h : c.Within d) (hc : c.covers i = true) : d.covers i = true := by
  rw [covers_iff] at hc ⊢
  obtain ⟨hstart, hstop⟩ := h
  exact ⟨by omega, by omega⟩

/-- A scope that a declaration of the level can belong to. -/
def Takes (c : Scope) (level : Level) : Prop := level = .function → c.isFunction = true

/-- The scope that a declaration at an index belongs to: the nearest one around it, and for a
declaration of function level the nearest one of a function. -/
structure Home (scopes : List Scope) (level : Level) (index : Nat) (c : Scope) : Prop where
  mem : c ∈ scopes
  covers : c.covers index = true
  takes : c.Takes level
  nearest : ∀ d ∈ scopes, d.covers index = true → d.Takes level → c.Within d

/-- A declaration belongs to one stretch of tokens. -/
theorem Home.covers_eq (hc : Home scopes level j c) (hd : Home scopes level j d) :
    c.covers i = d.covers i := by
  have hcd := hc.nearest d hd.mem hd.covers hd.takes
  have hdc := hd.nearest c hc.mem hc.covers hc.takes
  rw [Bool.eq_iff_iff]
  exact ⟨hcd.covers, hdc.covers⟩

end Scope

namespace Shadow

open Scope (Home Takes Within Nested covers_iff)

variable {scopes : List Scope} {level : Level} {i j : Nat} {b c d : Scope}

/-- The shorter of two scopes, the first one if they are equally long. -/
def shorter (best : Option Scope) (c : Scope) : Option Scope :=
  match best with
  | some b => if c.length < b.length then some c else some b
  | none => some c

/-- The scopes that a declaration may belong to. -/
def candidates (scopes : List Scope) (index : Nat) (functionOnly : Bool) : List Scope :=
  scopes.filter fun c => c.start ≤ index && index < c.stop && (!functionOnly || c.isFunction)

theorem innermost?_eq (scopes : List Scope) (index : Nat) (functionOnly : Bool) :
    innermost? scopes index functionOnly =
      (candidates scopes index functionOnly).foldl shorter none := rfl

theorem mem_candidates (h : functionOnly = true ↔ level = .function) :
    c ∈ candidates scopes i functionOnly ↔ c ∈ scopes ∧ c.covers i = true ∧ c.Takes level := by
  simp only [candidates, List.mem_filter, Takes, ← h, covers_iff]
  cases functionOnly <;> simp [and_assoc]

/-- What is kept is a scope that was met, and none that was met is shorter. -/
theorem foldl_shorter (met : List Scope) (b : Scope) : ∃ c, met.foldl shorter (some b) = some c ∧
    c ∈ b :: met ∧ ∀ d ∈ b :: met, c.length ≤ d.length := by
  induction met generalizing b with
  | nil => exact ⟨b, rfl, List.mem_singleton_self b, by simp⟩
  | cons first met ih =>
    by_cases hlt : first.length < b.length
    · obtain ⟨c, hc, hmem, hleast⟩ := ih first
      simp only [List.forall_mem_cons] at hleast ⊢
      refine ⟨c, ?_, List.mem_cons_of_mem _ hmem, by omega, hleast⟩
      simpa [shorter, hlt] using hc
    · obtain ⟨c, hc, hmem, hleast⟩ := ih b
      simp only [List.forall_mem_cons] at hleast ⊢
      refine ⟨c, ?_, ?_, hleast.1, by omega, hleast.2⟩
      · simpa [shorter, hlt] using hc
      · simp only [List.mem_cons] at hmem ⊢
        tauto

/-- The shortest scope around a token is the nearest one. -/
theorem home_of_innermost? (hnested : scopes.Pairwise Nested)
    (hlevel : functionOnly = true ↔ level = .function)
    (h : innermost? scopes i functionOnly = some c) : Home scopes level i c := by
  rw [innermost?_eq] at h
  cases hmet : candidates scopes i functionOnly with
  | nil =>
    rw [hmet] at h
    cases h
  | cons first met =>
    obtain ⟨c', hc', hmem, hleast⟩ := foldl_shorter met first
    rw [hmet, List.foldl_cons] at h
    obtain rfl : c' = c := Option.some.inj (hc'.symm.trans h)
    rw [← hmet, mem_candidates hlevel] at hmem
    obtain ⟨hin, hcovers, htakes⟩ := hmem
    refine ⟨hin, hcovers, htakes, ?_⟩
    intro d hd hcovers' htakes'
    have hmet' := (mem_candidates hlevel).mpr ⟨hd, hcovers', htakes'⟩
    rw [hmet] at hmet'
    have hpair : c'.Nested d :=
      List.Pairwise.forall_of_forall (fun c _ => Nested.refl c) hnested hin hd
    exact hpair.within hcovers hcovers' (hleast d hmet')

/-- There is a nearest scope wherever there is a scope at all. -/
theorem exists_innermost? (hlevel : functionOnly = true ↔ level = .function) (hc : c ∈ scopes)
    (hcovers : c.covers i = true) (htakes : c.Takes level) :
    ∃ d, innermost? scopes i functionOnly = some d := by
  have hmem := (mem_candidates hlevel).mpr ⟨hc, hcovers, htakes⟩
  rw [innermost?_eq]
  cases hmet : candidates scopes i functionOnly with
  | nil =>
    rw [hmet] at hmem
    cases hmem
  | cons first met =>
    obtain ⟨d, hd, -⟩ := foldl_shorter met first
    exact ⟨d, hd⟩

/-- Every declaration of a snippet belongs to some scope, if need be to the one of the snippet. -/
theorem exists_home (hparse : parse text dialect = .ok (.ok stream)) (level : Level)
    (hj : j < stream.tokens.size) :
    ∃ c, Home stream.scopes.toList level j c := by
  obtain ⟨_, inner, -, -, hscopes⟩ := parse_layered hparse
  have hroot : (⟨0, stream.tokens.size, true⟩ : Scope) ∈ stream.scopes.toList := by
    simp [hscopes]
  have hcovers : (⟨0, stream.tokens.size, true⟩ : Scope).covers j = true :=
    covers_iff.mpr ⟨Nat.zero_le j, hj⟩
  have hlevel : decide (level = .function) = true ↔ level = .function := decide_eq_true_iff
  obtain ⟨c, hc⟩ := exists_innermost? hlevel hroot hcovers fun _ => rfl
  exact ⟨c, home_of_innermost? (parse_nested hparse) hlevel hc⟩

/-! ## Marks -/

/-- A value of the given name that is declared at a level. -/
structure Declares (text : List Char) (t : Token) (level : Level) (name : String) : Prop where
  value : t.isType = false
  kind : t.kind = .name
  role : ∃ shorthand, t.role = some (.declaration level shorthand)
  spelled : String.ofList (t.text text) = name

theorem declaresInside_iff (text : List Char) : declaresInside t = true ↔
    ∃ level, level ≠ .topLevel ∧ Declares text t level (String.ofList (t.text text)) := by
  constructor
  · intro h
    simp only [declaresInside, Bool.and_eq_true, Bool.not_eq_true', beq_iff_eq,
      Option.any_eq_true, Bool.or_eq_true] at h
    obtain ⟨⟨hvalue, hkind⟩, role, hrole, hlevel⟩ := h
    cases role with
    | declaration level shorthand =>
      refine ⟨level, ?_, hvalue, hkind, ⟨shorthand, hrole⟩, rfl⟩
      rintro rfl
      simp [Role.declaresAt] at hlevel
    | _ => simp [Role.declaresAt] at hlevel
  · rintro ⟨level, hlevel, hvalue, hkind, ⟨shorthand, hrole⟩, -⟩
    cases level <;> simp_all [declaresInside, Role.declaresAt]

theorem Declares.atFunction {name : String} (h : Declares text t level name) :
    t.role.any (·.declaresAt .function) = true ↔ level = .function := by
  obtain ⟨shorthand, hrole⟩ := h.role
  simp [hrole, Role.declaresAt]

/-- A name at an index stands for an inner declaration: one of the same name belongs to a scope that
the index is in. -/
def Hidden (text : List Char) (stream : TokenStream) (name : String) (index : Nat) : Prop :=
  ∃ j t level c, stream.tokens[j]? = some t ∧ level ≠ .topLevel ∧ Declares text t level name ∧
    Home stream.scopes.toList level j c ∧ c.covers index = true

theorem mem_regions {s : Sheet} {name : String} :
    (name, c) ∈ regions s scopes globals ↔ ∃ j t, s.tokens[j]? = some t ∧
      declaresInside t = true ∧ String.ofList (t.text s.text) = name ∧ name ∈ globals ∧
      innermost? scopes j (t.role.any (·.declaresAt .function)) = some c := by
  simp only [regions, List.mem_filterMap, Prod.exists, List.mem_zipIdx_iff_getElem?,
    Array.getElem?_toList, Option.ite_none_right_eq_some, Option.map_eq_some_iff, Prod.mk.injEq,
    List.contains_iff_mem]
  constructor
  · rintro ⟨t, j, ht, hinside, hglobal, _, hc, rfl, rfl⟩
    exact ⟨j, t, ht, hinside, rfl, hglobal, hc⟩
  · rintro ⟨j, t, ht, hinside, rfl, hglobal, hc⟩
    exact ⟨t, j, ht, hinside, hglobal, _, hc, rfl, rfl⟩

/-- Whether a name is declared again around an index. -/
def isMarked (s : Sheet) (scopes : List Scope) (globals : List String) (index : Nat) (t : Token) :
    Bool :=
  (t.kind == .name || t.kind == .jsxName) && (regions s scopes globals).any fun r =>
    r.2.covers index && r.1 == String.ofList (t.text s.text)

theorem getElem?_mark {s : Sheet} (scopes : List Scope) (globals : List String)
    (ht : s.tokens[i]? = some t) : (mark s scopes globals)[i]? =
      some { t with shadowed := t.shadowed || isMarked s scopes globals i t } := by
  unfold mark
  dsimp only
  split
  · rename_i hempty
    simp [isMarked, List.isEmpty_iff.mp hempty, ht]
  · rw [Array.getElem?_mapIdx, ht, Option.map_some]
    have hmarked : isMarked s scopes globals i t =
        ((t.kind == .name || t.kind == .jsxName) && (regions s scopes globals).any fun r =>
          decide (r.2.start ≤ i) && decide (i < r.2.stop) &&
            r.1 == String.ofList (t.text s.text)) := rfl
    rw [hmarked]
    split
    · rename_i h
      rw [h, Bool.or_true]
    · rename_i h
      rw [eq_false_of_ne_true h, Bool.or_false]

/-- A name that a snippet imports is marked where it is hidden. -/
theorem isMarked_iff (hparse : parse text dialect = .ok (.ok stream))
    (hkind : t.kind = .name ∨ t.kind = .jsxName) (hglobal : String.ofList (t.text text) ∈ globals) :
    isMarked ⟨text, stream.tokens⟩ stream.scopes.toList globals i t = true ↔
      Hidden text stream (String.ofList (t.text text)) i := by
  have hnested := parse_nested hparse
  have hname : (t.kind == .name || t.kind == .jsxName) = true := by
    rcases hkind with hkind | hkind <;> simp [hkind]
  simp only [isMarked, hname, Bool.true_and, List.any_eq_true, Bool.and_eq_true, beq_iff_eq,
    Prod.exists]
  constructor
  · rintro ⟨_, c, hregion, hcovers, rfl⟩
    obtain ⟨j, d, hd, hinside, hspelled, -, hinnermost⟩ := mem_regions.mp hregion
    obtain ⟨level, hlevel, hdeclares⟩ := (declaresInside_iff text).mp hinside
    have hhome := home_of_innermost? hnested hdeclares.atFunction hinnermost
    exact ⟨j, d, level, c, hd, hlevel, hspelled ▸ hdeclares, hhome, hcovers⟩
  · rintro ⟨j, d, level, c, hd, hlevel, hdeclares, hhome, hcovers⟩
    have hinside := (declaresInside_iff text).mpr ⟨level, hlevel, hdeclares.spelled ▸ hdeclares⟩
    obtain ⟨c', hc'⟩ := exists_innermost? hdeclares.atFunction hhome.mem hhome.covers hhome.takes
    have hhome' := home_of_innermost? hnested hdeclares.atFunction hc'
    refine ⟨_, c', mem_regions.mpr ⟨j, d, hd, hinside, hdeclares.spelled, hglobal, hc'⟩, ?_, rfl⟩
    rw [hhome'.covers_eq hhome]
    exact hcovers

end Shadow

/-! ## Tokens as they are read -/

namespace Grammar

/-- Reading marks no token. -/
theorem Run.unmarked {ctx : Context} {s t : State} (h : Run ctx s t)
    (hs : ∀ u ∈ s.tokens, u.shadowed = false) : ∀ u ∈ t.tokens, u.shadowed = false := by
  have htook : ∀ (s : State) (mode : Mode), (∀ u ∈ s.tokens, u.shadowed = false) →
      ∀ u ∈ (s.took ctx mode).tokens, u.shadowed = false := by
    intro s mode hs u hu
    rcases Array.mem_push.mp hu with hu | rfl
    · exact hs u hu
    · rfl
  induction h with
  | refl s => exact hs
  | trans _ _ ih₁ ih₂ => exact ih₂ (ih₁ hs)
  | take _ _ => exact htook _ _ hs
  | piece _ _ _ _ => exact htook _ _ (htook _ _ (htook _ _ hs))
  | reread _ _ _ => exact hs
  | typing _ _ _ ih => exact ih hs
  | scope _ _ ih => exact ih hs
  | note hf =>
    intro u hu
    obtain ⟨i, hi⟩ := Array.mem_iff_getElem?.mp hu
    obtain ⟨t, ht, rfl | ⟨-, rfl⟩⟩ := getElem?_noting hi
    · exact hs u (Array.mem_of_getElem? ht)
    · rw [(hf.harmless t).2.2.2.2.2]
      exact hs t (Array.mem_of_getElem? ht)
  | mark _ _ =>
    intro u hu
    obtain ⟨i, hi⟩ := Array.mem_iff_getElem?.mp hu
    obtain ⟨t, ht, rfl⟩ := getElem?_marking hi
    have hunmarked := hs t (Array.mem_of_getElem? ht)
    split <;> exact hunmarked

end Grammar

theorem parse_unmarked (h : parse text dialect = .ok (.ok stream)) (ht : t ∈ stream.tokens) :
    t.shadowed = false := by
  obtain ⟨u, hread⟩ := parse_runs h
  rw [hread.tokens] at ht
  rcases Array.mem_push.mp ht with ht | rfl
  · exact hread.run.unmarked (by simp [Grammar.State.first]) t ht
  · rfl

end Downlevel
