import Downlevel.Proofs.Grammar.Export
import Downlevel.Proofs.Grammar.Heads
import Downlevel.Proofs.Grammar.Termination

/-!
# The tokens of import and export clauses

An import or export is read by looking at one token after the other, so that its tokens can be told
exactly: the names that it binds (`Bound`), the specifiers between its braces (`Specifiers`), the
word `from` and the string after it (`Sourced`). What is read is described by the tokens that a
parser takes (`Brings`), and in a snippet they stay as they were taken (`parse_imports`).
-/

namespace Downlevel

variable {c : Statement} {found : StatementKind} {tokens : Array Token}

/-! ## Specifiers -/

namespace Token

/-- A name or a string that is no part of a type. -/
structure Names (t : Token) : Prop where
  kind : t.kind = .name ∨ t.kind = .string
  value : t.isType = false

/-- `a` or `a as b`, with the two names. -/
inductive Item (single : Token → Prop) (both : Token → Token → Prop) :
    List Token → Token × Token → Prop where
  | one {t : Token} (ht : t.Names) (h : single t) : Item single both [t] (t, t)
  | two {t a u : Token} (ht : t.Names) (ha : a.isWord .kwAs = true ∧ a.role = none) (hu : u.Names)
      (h : both t u) : Item single both [t, a, u] (t, u)

/-- A comma after an item, which may be left out at the end. -/
inductive Parts : List Token → List Token → Prop where
  | comma {c : Token} {rest : List Token} (hkind : c.kind = .comma) (hrole : c.role = none) :
      Parts [c] rest
  | last : Parts [] []

/-- The token as part of a type. -/
def asType (t : Token) : Token := { t with isType := true }

theorem asType_asType (t : Token) : t.asType.asType = t.asType := rfl

/-- What stands between braces, with the pairs of names in it. Those of types do not count. -/
inductive Specifiers (single : Token → Prop) (both : Token → Token → Prop) :
    List Token → List (Token × Token) → Prop where
  | nil : Specifiers single both [] []
  | typed {m : Token} {ts sep rest : List Token} {pair : Token × Token}
      {pairs : List (Token × Token)} (hm : m.isWord .kwType = true) (hts : Item single both ts pair)
      (hsep : Parts sep rest) (h : Specifiers single both rest pairs) :
      Specifiers single both ((m :: (ts ++ sep)).map asType ++ rest) pairs
  | item {ts sep rest : List Token} {pair : Token × Token} {pairs : List (Token × Token)}
      (hts : Item single both ts pair) (hsep : Parts sep rest)
      (h : Specifiers single both rest pairs) :
      Specifiers single both (ts ++ (sep ++ rest)) (pair :: pairs)

theorem Item.kinds {single : Token → Prop} {both : Token → Token → Prop} {ts : List Token}
    {pair : Token × Token} (h : Item single both ts pair) :
    ∀ a ∈ ts, a.kind = .name ∨ a.kind = .string := by
  cases h with
  | one ht => simpa using ht.kind
  | two ht ha hu =>
    have hkind := ha.1
    simp only [Token.isWord, Bool.and_eq_true, beq_iff_eq] at hkind
    simpa [hkind.1] using ⟨ht.kind, hu.kind⟩

/-! ## Imports -/

/-- An item of an import: the name that is bound is noted as such. -/
abbrev ImportItems : List Token → List (Token × Token) → Prop :=
  Specifiers (·.role = some .importDeclaration)
    fun t u => t.role = some .importAccess ∧ u.role = some .importDeclaration

/-- A name that an import binds outside of braces. -/
structure Binds (t : Token) : Prop where
  kind : t.kind = .name
  value : t.isType = false
  role : t.role = some .importDeclaration

/-- `* as a` or names in braces, or nothing; with the names. -/
inductive Gathered : List Token → Option Token → List (Token × Token) → Prop where
  | nothing : Gathered [] none []
  | whole {s a t : Token} (hs : s.kind = .star ∧ s.role = none)
      (ha : a.isWord .kwAs = true ∧ a.role = none) (ht : t.Binds) : Gathered [s, a, t] (some t) []
  | braced {o c : Token} {ts : List Token} {pairs : List (Token × Token)}
      (ho : o.kind = .braceL ∧ o.role = none) (h : ImportItems ts pairs)
      (hc : c.kind = .braceR ∧ c.role = none) : Gathered (o :: (ts ++ [c])) none pairs

/-- What an import binds: a default name, a name for the whole module, and names in braces. -/
inductive Bound : List Token → Option Token → Option Token → List (Token × Token) → Prop where
  | default {t : Token} (ht : t.Binds) : Bound [t] (some t) none []
  | more {t c : Token} {ts : List Token} {star : Option Token} {pairs : List (Token × Token)}
      (ht : t.Binds) (hc : c.kind = .comma ∧ c.role = none) (h : Gathered ts star pairs) :
      Bound (t :: c :: ts) (some t) star pairs
  | gathered {t : Token} {ts : List Token} {star : Option Token} {pairs : List (Token × Token)}
      (ht : t.kind ≠ .name) (h : Gathered (t :: ts) star pairs) : Bound (t :: ts) none star pairs

/-- `from 'x'` and what follows. -/
def Sourced (ts : List Token) : Prop :=
  ∃ word path rest, ts = word :: path :: rest ∧ word.isWord .kwFrom = true ∧ path.kind = .string

/-- The tokens of an import after its word. -/
inductive Imports : List Token → Option Token → Option Token → List (Token × Token) → Prop where
  | bare {t : Token} {ts : List Token} (ht : t.kind = .string) : Imports (t :: ts) none none []
  | bound {ts source : List Token} {first star : Option Token} {pairs : List (Token × Token)}
      (h : Bound ts first star pairs) (hsource : Sourced source) :
      Imports (ts ++ source) first star pairs

end Token

namespace Grammar

open State Token

variable {α : Type} {ctx : Context} {k : Knot} {s t u : State} {ts us : List Token}

/-! ## Tokens that are taken -/

/-- From `s` to `t` the tokens `ts` were taken, on one side of the types and without error. -/
structure Took (s t : State) (ts : List Token) : Prop where
  clean : s.Clean
  inType : t.cursor.inType = s.cursor.inType
  tokens : t.tokens.toList = s.tokens.toList ++ ts

namespace Took

theorem refl (h : s.Clean) : Took s s [] := ⟨h, rfl, by simp⟩

theorem trans (h : Took s t ts) (h' : Took t u us) : Took s u (ts ++ us) :=
  ⟨h.clean, h'.inType.trans h.inType, by rw [h'.tokens, h.tokens, List.append_assoc]⟩

theorem next (hclean : (s.took ctx .code).Clean) :
    Took s (s.took ctx .code) [s.cursor.token] :=
  ⟨Cursor.error_of_advance hclean, (Cursor.advance_moved hclean).inType, by simp [State.took]⟩

theorem noting {a : Token} (h : Took s t (a :: ts)) (f : Token → Token) :
    Took s (t.noting s.tokens.size f) (f a :: ts) := by
  refine ⟨h.clean, h.inType, ?_⟩
  show (t.tokens.modify s.tokens.size f).toList = _
  rw [Array.toList_modify, h.tokens]
  simp [List.modify_eq_take_drop]

theorem marking (h : Took s t ts) :
    Took s (t.marking s.tokens.size) (ts.map asType) := by
  refine ⟨h.clean, h.inType, ?_⟩
  apply List.ext_getElem?
  intro i
  have htoken : t.tokens[i]? = (s.tokens.toList ++ ts)[i]? := by
    rw [← h.tokens, Array.getElem?_toList]
  show (t.tokens.mapIdx _).toList[i]? = _
  rw [Array.getElem?_toList, Array.getElem?_mapIdx, htoken]
  rcases Nat.lt_or_ge i s.tokens.size with hlt | hge
  · rw [List.getElem?_append_left (by simpa using hlt), List.getElem?_append_left
      (by simpa using hlt)]
    simp [Nat.not_le.mpr hlt]
  · rw [List.getElem?_append_right (by simpa using hge), List.getElem?_append_right
      (by simpa using hge)]
    simp only [hge, ↓reduceIte, Array.length_toList, List.getElem?_map]
    rfl

end Took

theorem tokens_of_keeps {p : Parser α} {a : α} [Keeps ctx s.tokens.size s.tokens.size p]
    (hrun : p ctx s = .ok (a, t)) : ∃ ts, t.tokens.toList = s.tokens.toList ++ ts := by
  have habove := (keepsAt_here s).above a t hrun
  refine ⟨t.tokens.toList.drop s.tokens.size, ?_⟩
  apply List.ext_getElem?
  intro i
  rcases Nat.lt_or_ge i s.tokens.size with hlt | hge
  · rw [List.getElem?_append_left (by simpa using hlt), Array.getElem?_toList,
      Array.getElem?_toList,
      habove.tokens i hlt]
  · rw [List.getElem?_append_right (by simpa using hge), List.getElem?_drop, Array.length_toList,
      Nat.add_sub_cancel' hge]

/-- Whenever the parser `p` ends without error, it has taken tokens that `Q` holds of. -/
def Brings (ctx : Context) (p : Parser α) (Q : State → α → State → List Token → Prop) : Prop :=
  ∀ s a t, p ctx s = .ok (a, t) → t.Clean → ∃ ts, Took s t ts ∧ Q s a t ts

/-! ## Single tokens -/

theorem eatWord_ok {word : Contextual} {b : Bool} (hrun : eatWord word ctx s = .ok (b, t)) :
    b = true ∧ s.cursor.isWord word = true ∧ t = s.took ctx .code ∨ b = false ∧ t = s := by
  obtain ⟨_, _, ⟨⟩, hrun⟩ := bind_ok hrun
  split at hrun
  · rename_i hword
    cases hrun
    exact .inl ⟨rfl, hword, rfl⟩
  · cases hrun
    exact .inr ⟨rfl, rfl⟩

theorem expect_brings (k : Kind) : Brings ctx (expect k) fun s _ _ ts =>
    ts = [s.cursor.token] ∧ s.cursor.kind = k := by
  intro s _ t hrun hclean
  obtain ⟨eaten, u, heat, hrest⟩ := bind_ok hrun
  rcases eat_ok heat with ⟨rfl, hkind, rfl⟩ | ⟨rfl, -, rfl⟩
  · cases hrest
    exact ⟨_, .next hclean, rfl, hkind⟩
  · exact absurd hclean (expecting_stops _ _ hrest)

theorem expectWord_brings (word : Contextual) (label : String) :
    Brings ctx (expectWord word label) fun s _ _ ts =>
      ts = [s.cursor.token] ∧ s.cursor.isWord word = true := by
  intro s _ t hrun hclean
  obtain ⟨eaten, u, heat, hrest⟩ := bind_ok hrun
  rcases eatWord_ok heat with ⟨rfl, hword, rfl⟩ | ⟨rfl, rfl⟩
  · cases hrest
    exact ⟨_, .next hclean, rfl, hword⟩
  · exact absurd hclean (expecting_stops _ _ hrest)

theorem identifier_brings (role : Role) : Brings ctx (identifier (some role)) fun s _ _ ts =>
    ts = [{ s.cursor.token with role := some role }] ∧ s.cursor.kind = .name := by
  intro s _ t hrun hclean
  obtain ⟨_, _, ⟨⟩, hrun⟩ := bind_ok hrun
  split at hrun
  · rename_i hkind
    cases hrun
    have htook : Took s (s.took ctx .code) [s.cursor.token] := .next hclean
    exact ⟨_, htook.noting _, rfl, beq_iff_eq.mp hkind⟩
  · exact absurd hclean (expecting_stops _ _ hrun)

/-- The token of a name: a string, or an identifier as which even a reserved word is taken. -/
structure Fresh (s : State) (a : Token) : Prop where
  kind : a.kind = .name ∨ a.kind = .string
  isType : a.isType = s.cursor.inType
  role : a.role = none

theorem moduleName_brings : Brings ctx moduleName fun s _ _ ts => ∃ a, ts = [a] ∧ Fresh s a := by
  intro s _ t hrun hclean
  obtain ⟨_, _, ⟨⟩, hrun⟩ := bind_ok hrun
  split at hrun
  · rename_i hkind
    cases hrun
    exact ⟨_, .next hclean, _, rfl, .inr (beq_iff_eq.mp hkind), rfl, rfl⟩
  · obtain ⟨_, _, ⟨⟩, hrun⟩ := bind_ok hrun
    split at hrun
    · cases hrun
      have htook : Took { s with cursor := { s.cursor with kind := .name } } _ _ := .next hclean
      exact ⟨_, ⟨htook.clean, htook.inType, htook.tokens⟩, _, rfl, .inl rfl, rfl, rfl⟩
    · exact absurd hclean (expecting_stops _ _ hrun)

/-! ## Items -/

/-- The name of an import is noted as declared here, or as one of the module. -/
theorem importName_brings : Brings ctx importName fun s _ _ ts => s.cursor.inType = false →
    ∃ pair, Item (·.role = some .importDeclaration)
      (fun t u => t.role = some .importAccess ∧ u.role = some .importDeclaration) ts pair := by
  intro s _ t hrun hclean
  obtain ⟨_, _, ⟨⟩, hrun⟩ := bind_ok hrun
  obtain ⟨_, u, hname, hrun⟩ := bind_ok hrun
  obtain ⟨role, _, hrole, hrun⟩ := bind_ok hrun
  cases hrole
  obtain ⟨renamed, v, heat, hrun⟩ := bind_ok hrun
  rcases eatWord_ok heat with ⟨rfl, hword, rfl⟩ | ⟨rfl, rfl⟩
  · obtain ⟨_, w, hnote, hrun⟩ := bind_ok hrun
    cases hnote
    obtain ⟨us, hus, rfl, hkind⟩ := identifier_brings _ _ _ _ hrun hclean
    have hnext : Took u (u.took ctx .code) [u.cursor.token] := .next hus.clean
    obtain ⟨ts, hts, a, rfl, ha⟩ := moduleName_brings _ _ _ hname hnext.clean
    have htook :=
      ((hts.trans hnext).noting fun t => { t with role := some .importAccess }).trans hus
    refine ⟨_, htook, fun hvalue => ⟨_, .two ⟨ha.kind, ha.isType.trans hvalue⟩ ⟨hword, rfl⟩
      ⟨.inl hkind, ?_⟩ ⟨rfl, rfl⟩⟩⟩
    exact (hnext.inType.trans hts.inType).trans hvalue
  · cases hrun
    obtain ⟨ts, hts, a, rfl, ha⟩ := moduleName_brings _ _ _ hname hclean
    exact ⟨_, hts.noting _, fun hvalue => ⟨_, .one ⟨ha.kind, ha.isType.trans hvalue⟩ rfl⟩⟩

/-! ## Specifiers that are read -/

/-- The comma that ends an item, or nothing before the closing brace. -/
def Parted (t : State) (sep : List Token) : Prop :=
  (∃ c, sep = [c] ∧ c.kind = .comma ∧ c.role = none) ∨ sep = [] ∧ t.cursor.kind = .braceR

theorem separator_ok {g : Unit → Parser Unit}
    (hrun :
      (seeing .braceR >>= fun b => if !b then expect .comma >>= g else g ()) ctx s = .ok ((), t))
    (hclean : ∀ u, g () ctx u = .ok ((), t) → u.Clean) :
    ∃ u sep, Took s u sep ∧ Parted u sep ∧ g () ctx u = .ok ((), t) := by
  obtain ⟨_, _, ⟨⟩, hrest⟩ := bind_ok hrun
  split at hrest
  · obtain ⟨_, u, hcomma, hrest⟩ := bind_ok hrest
    obtain ⟨sep, hsep, rfl, hkind⟩ := expect_brings _ _ _ _ hcomma (hclean u hrest)
    exact ⟨u, _, hsep, .inl ⟨_, rfl, hkind, rfl⟩, hrest⟩
  · rename_i hbrace
    exact ⟨s, [], .refl (hclean s hrest), .inr ⟨rfl, by simpa using hbrace⟩, hrest⟩

theorem endSpecifier_ok {isType : Bool} {start : Nat}
    (hrun : endSpecifier isType start ctx s = .ok ((), t)) (hclean : t.Clean) :
    ∃ u sep, Took s u sep ∧ Parted u sep ∧ t = if isType then u.marking start else u := by
  cases isType with
  | true =>
    obtain ⟨u, sep, hsep, hparted, hmark⟩ := separator_ok hrun
      fun u hu => by cases hu; exact hclean
    cases hmark
    exact ⟨u, sep, hsep, hparted, rfl⟩
  | false =>
    obtain ⟨u, sep, hsep, hparted, hdone⟩ := separator_ok (g := fun _ => Pure.pure ()) hrun
      fun u hu => by cases hu; exact hclean
    cases hdone
    exact ⟨t, sep, hsep, hparted, rfl⟩

/-- The modifier of a type is the word `type`. -/
theorem isTypeSpecifier_word (hrun : isTypeSpecifier ctx s = .ok (true, t)) :
    s.cursor.isWord .kwType = true := by
  obtain ⟨_, _, ⟨⟩, hrest⟩ := bind_ok hrun
  obtain ⟨_, _, ⟨⟩, hrest⟩ := bind_ok hrest
  split at hrest
  · cases hrest
  · rename_i hword
    simp only [Bool.not_eq_true', Bool.not_eq_false, Bool.and_eq_true] at hword
    exact hword.2

theorem typeModifier_brings : Brings ctx typeModifier fun s isType _ ts =>
    isType = false ∧ ts = [] ∨
      isType = true ∧ ts = [s.cursor.token] ∧ s.cursor.isWord .kwType = true := by
  intro s _ t hrun hclean
  obtain ⟨isType, u, hlook, hrest⟩ := bind_ok hrun
  obtain ⟨rfl, -⟩ := isTypeSpecifier_ok hlook
  cases isType with
  | false =>
    cases hrest
    exact ⟨[], .refl hclean, .inl ⟨rfl, rfl⟩⟩
  | true =>
    cases hrest
    exact ⟨_, .next hclean, .inr ⟨rfl, rfl, isTypeSpecifier_word hlook⟩⟩

variable {single : Token → Prop} {both : Token → Token → Prop}

/-- An item with what ends it, as a value or as part of a type. -/
inductive Specified (single : Token → Prop) (both : Token → Token → Prop) (t : State) :
    List Token → Prop where
  | item {ts sep : List Token} {pair : Token × Token} (hts : Item single both ts pair)
      (hsep : Parted t sep) : Specified single both t (ts ++ sep)
  | typed {m : Token} {ts sep : List Token} {pair : Token × Token}
      (hm : m.isWord .kwType = true) (hts : Item single both ts pair) (hsep : Parted t sep) :
      Specified single both t ((m :: (ts ++ sep)).map asType)

theorem specifier_brings {p : Parser α} (hp : Brings ctx p fun s _ _ ts =>
      s.cursor.inType = false → ∃ pair, Item single both ts pair) :
    Brings ctx (specifier p) fun s _ t ts =>
      s.cursor.inType = false → Specified single both t ts := by
  intro s _ t hrun hclean
  obtain ⟨_, _, ⟨⟩, hrest⟩ := bind_ok hrun
  obtain ⟨isType, u, hmodifier, hrest⟩ := bind_ok hrest
  obtain ⟨_, v, hitem, hrest⟩ := bind_ok hrest
  obtain ⟨_, w, hend, hrest⟩ := bind_ok hrest
  cases hrest
  obtain ⟨v', sep, hsep, hparted, ht⟩ := endSpecifier_ok hend hclean
  obtain ⟨item, htook, hq⟩ := hp _ _ _ hitem hsep.clean
  obtain ⟨first, hfirst, hmodified⟩ := typeModifier_brings _ _ _ hmodifier htook.clean
  have hall := hfirst.trans (htook.trans hsep)
  rcases hmodified with ⟨rfl, rfl⟩ | ⟨rfl, rfl, hword⟩
  · obtain rfl : t = v' := by simpa using ht
    refine ⟨item ++ sep, hall, fun hvalue => ?_⟩
    obtain ⟨pair, hpair⟩ := hq (hfirst.inType.trans hvalue)
    exact .item hpair hparted
  · obtain rfl : t = v'.marking s.tokens.size := by simpa using ht
    refine ⟨(s.cursor.token :: (item ++ sep)).map asType, hall.marking, fun hvalue => ?_⟩
    obtain ⟨pair, hpair⟩ := hq (hfirst.inType.trans hvalue)
    exact .typed hword hpair hparted

/-- One specifier before others, up to the closing brace. -/
theorem Specified.cons {rest : List Token} {pairs : List (Token × Token)}
    (h : Specified single both t ts) (hstop : t.cursor.kind = .braceR → rest = [])
    (hrest : Specifiers single both rest pairs) :
    ∃ pairs', Specifiers single both (ts ++ rest) pairs' := by
  have hparts : ∀ {sep}, Parted t sep → Parts sep rest := by
    rintro sep (⟨c, rfl, hkind, hrole⟩ | ⟨rfl, hkind⟩)
    · exact .comma hkind hrole
    · rw [hstop hkind]
      exact .last
  cases h with
  | typed hm hts hsep => exact ⟨pairs, .typed hm hts (hparts hsep) hrest⟩
  | item hts hsep =>
    rw [List.append_assoc]
    exact ⟨_, .item hts (hparts hsep) hrest⟩

theorem specifiers_ok {p : Parser Unit} (hp : Brings ctx p fun s _ _ ts =>
      s.cursor.inType = false → ∃ pair, Item single both ts pair) {n : Nat}
    (hrun : repeatUpTo (closeRound .braceR (specifier p)) n ctx s = .ok ((), t))
    (hclean : t.Clean) : ∃ ts, Took s t ts ∧ (s.cursor.kind = .braceR → ts = []) ∧
      (s.cursor.inType = false → ∃ pairs, Specifiers single both ts pairs) := by
  induction n generalizing s with
  | zero => cases hrun
  | succ n ih =>
    obtain ⟨again, u, hround, hrest⟩ := bind_ok hrun
    obtain ⟨isOpen, v, htest, hround⟩ := bind_ok hround
    obtain ⟨_, _, ⟨⟩, ⟨⟩⟩ := bind_ok htest
    split at hround
    · rename_i hopen
      obtain ⟨_, w, hbody, hround⟩ := bind_ok hround
      cases hround
      have hthere : s.cursor.kind ≠ .braceR := by
        intro hkind
        simp [hkind] at hopen
      obtain ⟨us, hus, hstop, hmore⟩ := ih hrest
      obtain ⟨ts, hts, hfirst⟩ := specifier_brings hp _ _ _ hbody hus.clean
      refine ⟨ts ++ us, hts.trans hus, fun hkind => absurd hkind hthere, fun hvalue => ?_⟩
      obtain ⟨pairs, hpairs⟩ := hmore (hts.inType.trans hvalue)
      exact (hfirst hvalue).cons hstop hpairs
    · cases hround
      cases hrest
      exact ⟨[], .refl hclean, fun _ => rfl, fun _ => ⟨[], .nil⟩⟩

theorem braced_brings {p : Parser Unit} (hp : Brings ctx p fun s _ _ ts =>
      s.cursor.inType = false → ∃ pair, Item single both ts pair) :
    Brings ctx (do next; untilClose .braceR (specifier p)) fun s _ _ ts =>
      ∃ items c, ts = s.cursor.token :: (items ++ [c]) ∧ c.kind = .braceR ∧ c.role = none ∧
        (s.cursor.inType = false → ∃ pairs, Specifiers single both items pairs) := by
  intro s _ t hrun hclean
  obtain ⟨_, _, ⟨⟩, hrest⟩ := bind_ok hrun
  obtain ⟨_, u, hloop, hclose⟩ := bind_ok hrest
  obtain ⟨cs, hcs, rfl, hkind⟩ := expect_brings _ _ _ _ hclose hclean
  obtain ⟨_, _, ⟨⟩, hloop⟩ := bind_ok hloop
  obtain ⟨items, hitems, -, hspecifiers⟩ := specifiers_ok hp hloop hcs.clean
  have hopen : Took s (s.took ctx .code) [s.cursor.token] := .next hitems.clean
  exact ⟨_, (hopen.trans hitems).trans hcs, items, u.cursor.token, by simp, hkind, rfl,
    fun hvalue => hspecifiers (hopen.inType.trans hvalue)⟩

/-- What was read of a statement is what is there in the end. -/
theorem Stated.toList_take {p : Parser StatementKind} (h : Stated ctx p tokens c found s t) :
    tokens.toList.take c.stop = t.tokens.toList := by
  apply List.ext_getElem?
  intro i
  rw [List.getElem?_take, Array.getElem?_toList, Array.getElem?_toList]
  split
  · rename_i hi
    exact h.tokens i hi
  · rename_i hi
    exact (Array.getElem?_eq_none (by rw [← h.stop]; omega)).symm

/-! ## Clauses of imports -/

section

variable (hk : k.Sure ctx)
include hk

theorem importSource_ok (hrun : importSource k ctx s = .ok ((), t)) (hclean : t.Clean) :
    s.Clean ∧ s.cursor.kind = .name ∧
      ∃ ts, t.tokens.toList = s.tokens.toList ++ ts ∧ Sourced ts := by
  have := hk.keeping
  obtain ⟨_, u, hword, hrest⟩ := bind_ok hrun
  obtain ⟨_, v, hstring, hrest⟩ := bind_ok hrest
  have hsteady : Steady ctx (do importAttributes k; semicolon) :=
    (importAttributes_steady hk).bind fun _ => semicolon_steady
  have hv := (hsteady v True _ t hrest hclean).1
  obtain ⟨path, hpath, rfl, hkind⟩ := expect_brings _ _ _ _ hstring hv
  obtain ⟨word, hword, rfl, hfrom⟩ := expectWord_brings _ _ _ _ _ hword hpath.clean
  obtain ⟨rest, hrest⟩ := tokens_of_keeps hrest
  refine ⟨hword.clean, ?_, _, ?_, s.cursor.token, u.cursor.token, rest, rfl, hfrom, hkind⟩
  · simp only [Cursor.isWord, Bool.and_eq_true, beq_iff_eq] at hfrom
    exact hfrom.1
  · rw [hrest, (hword.trans hpath).tokens, List.append_assoc]
    rfl

/-- What an import binds besides its default name, and the module. -/
theorem gathered_ok
    (hrun : (eat .star >>= fun b => if b then
        expectWord .kwAs "as" >>= fun _ => identifier (some .importDeclaration) >>= fun _ =>
          importSource k
      else seeing .braceL >>= fun b => if b then importSpecifiers >>= fun _ => importSource k
        else importSource k) ctx s = .ok ((), t)) (hclean : t.Clean) :
    s.Clean ∧ ∃ gs source, t.tokens.toList = s.tokens.toList ++ (gs ++ source) ∧ Sourced source ∧
      (gs = [] → s.cursor.kind = .name) ∧ (∀ a rest, gs = a :: rest → a.kind = s.cursor.kind) ∧
      (s.cursor.inType = false → ∃ star pairs, Gathered gs star pairs) := by
  obtain ⟨eaten, u, heat, hrest⟩ := bind_ok hrun
  rcases eat_ok heat with ⟨rfl, hstar, rfl⟩ | ⟨rfl, -, rfl⟩
  · obtain ⟨_, v, hword, hrest⟩ := bind_ok hrest
    obtain ⟨_, w, hname, hrest⟩ := bind_ok hrest
    obtain ⟨hw, -, source, hsource, hsourced⟩ := importSource_ok hk hrest hclean
    obtain ⟨ns, hns, rfl, hkind⟩ := identifier_brings _ _ _ _ hname hw
    obtain ⟨as, has, rfl, hisWord⟩ := expectWord_brings _ _ _ _ _ hword hns.clean
    have hfirst : Took s (s.took ctx .code) [s.cursor.token] := .next has.clean
    have hall := (hfirst.trans has).trans hns
    have hgathered : s.cursor.inType = false → Gathered
        [s.cursor.token, (s.took ctx .code).cursor.token,
          { v.cursor.token with role := some .importDeclaration }]
        (some { v.cursor.token with role := some .importDeclaration }) [] := fun hvalue =>
      .whole ⟨hstar, rfl⟩ ⟨hisWord, rfl⟩
        ⟨hkind, has.inType.trans (hfirst.inType.trans hvalue), rfl⟩
    refine ⟨hall.clean, _, source, ?_, hsourced, by simp, ?_, fun hvalue =>
      ⟨_, _, hgathered hvalue⟩⟩
    · rw [hsource, hall.tokens, List.append_assoc]
      rfl
    · rintro a rest ⟨⟩
      rfl
  · obtain ⟨_, _, ⟨⟩, hrest⟩ := bind_ok hrest
    split at hrest
    · rename_i hbrace
      obtain ⟨_, v, hbraces, hrest⟩ := bind_ok hrest
      obtain ⟨hv, -, source, hsource, hsourced⟩ := importSource_ok hk hrest hclean
      obtain ⟨ts, hts, items, c, rfl, hc, hrole, hitems⟩ :=
        braced_brings importName_brings _ _ _ hbraces hv
      refine ⟨hts.clean, u.cursor.token :: (items ++ [c]), source, ?_, hsourced, by simp, ?_,
        fun hvalue => ?_⟩
      · rw [hsource, hts.tokens, List.append_assoc]
      · rintro a rest ⟨⟩
        rfl
      · obtain ⟨pairs, hpairs⟩ := hitems hvalue
        exact ⟨none, pairs, .braced ⟨beq_iff_eq.mp hbrace, rfl⟩ hpairs ⟨hc, hrole⟩⟩
    · obtain ⟨hs, hname, source, hsource, hsourced⟩ := importSource_ok hk hrest hclean
      exact ⟨hs, [], source, hsource, hsourced, fun _ => hname, by simp,
        fun _ => ⟨none, [], .nothing⟩⟩

theorem importClause_ok (hrun : importClause k ctx s = .ok ((), t)) (hclean : t.Clean) :
    s.Clean ∧ ∃ ts, t.tokens.toList = s.tokens.toList ++ ts ∧
      (s.cursor.inType = false → ∃ first star pairs, Imports ts first star pairs) := by
  have := hk.keeping
  refine ⟨(importClause_steady hk s True _ t hrun hclean).1, ?_⟩
  obtain ⟨_, _, ⟨⟩, hrest⟩ := bind_ok hrun
  split at hrest
  · rename_i hstring
    obtain ⟨_, _, ⟨⟩, hrest⟩ := bind_ok hrest
    obtain ⟨ts, hts⟩ := tokens_of_keeps hrest
    refine ⟨s.cursor.token :: ts, ?_, fun _ => ⟨none, none, [], .bare (beq_iff_eq.mp hstring)⟩⟩
    rw [hts]
    simp
  · obtain ⟨role, s', hrole, hrest⟩ := bind_ok hrest
    obtain ⟨rfl, rfl⟩ : role = .importDeclaration ∧ s = s' := by
      cases hrole
      exact ⟨rfl, rfl⟩
    obtain ⟨_, _, ⟨⟩, hrest⟩ := bind_ok hrest
    dsimp only at hrest
    split at hrest
    · obtain ⟨_, u, hname, hrest⟩ := bind_ok hrest
      obtain ⟨eaten, v, heat, hafter⟩ := bind_ok hrest
      rcases eat_ok heat with ⟨rfl, hcomma, rfl⟩ | ⟨rfl, -, rfl⟩
      · -- more is bound after the comma
        obtain ⟨hu, gs, source, htokens, hsourced, -, -, hgathered⟩ := gathered_ok hk hafter hclean
        have hnext : Took u (u.took ctx .code) [u.cursor.token] := .next hu
        obtain ⟨ns, hns, rfl, hkind⟩ := identifier_brings _ _ _ _ hname hnext.clean
        have hall := hns.trans hnext
        refine ⟨({ s.cursor.token with role := some .importDeclaration } :: u.cursor.token :: gs) ++
          source, ?_, fun hvalue => ?_⟩
        · rw [htokens, hall.tokens, List.append_assoc]
          rfl
        · obtain ⟨star, pairs, hgathered⟩ := hgathered (hall.inType.trans hvalue)
          exact ⟨_, star, pairs, .bound (.more ⟨hkind, hvalue, rfl⟩ ⟨hcomma, rfl⟩ hgathered)
            hsourced⟩
      · rw [Bool.not_false, if_pos rfl] at hafter
        obtain ⟨_, w, hsource, hdone⟩ := bind_ok hafter
        cases hdone
        obtain ⟨hv, -, source, htokens, hsourced⟩ := importSource_ok hk hsource hclean
        obtain ⟨ns, hns, rfl, hkind⟩ := identifier_brings _ _ _ _ hname hv
        refine ⟨_, (by rw [htokens, hns.tokens, List.append_assoc]), fun hvalue => ?_⟩
        exact ⟨_, none, [], .bound (.default ⟨hkind, hvalue, rfl⟩) hsourced⟩
    · rename_i hname
      obtain ⟨-, gs, source, htokens, hsourced, hnone, hfirst, hgathered⟩ :=
        gathered_ok hk hrest hclean
      refine ⟨_, htokens, fun hvalue => ?_⟩
      obtain ⟨star, pairs, hgathered⟩ := hgathered hvalue
      cases gs with
      | nil => exact absurd (hnone rfl) (by simpa using hname)
      | cons a rest =>
        refine ⟨none, star, pairs, .bound (.gathered ?_ hgathered) hsourced⟩
        rw [hfirst a rest rfl]
        simpa using hname

/-- What follows the word `import`, unless all of the statement belongs to types. -/
theorem importStatement_ok (hrun : importStatement k ctx s = .ok ((), t)) (hclean : t.Clean)
    (hvalue : s.cursor.inType = false)
    (hall : (t.tokens.toList.drop s.tokens.size).all (·.isType) = false) :
    ∃ ts first star pairs, t.tokens.toList = s.tokens.toList ++ s.cursor.token :: ts ∧
      Imports ts first star pairs := by
  obtain ⟨_, _, ⟨⟩, hrest⟩ := bind_ok hrun
  obtain ⟨_, _, ⟨⟩, hrest⟩ := bind_ok hrest
  obtain ⟨_, _, ⟨⟩, hrest⟩ := bind_ok hrest
  obtain ⟨isType, u, hlook, hrest⟩ := bind_ok hrest
  obtain rfl := Looks.still _ _ _ hlook
  split at hrest
  · obtain ⟨_, u, -, hrest⟩ := bind_ok hrest
    cases hrest
    exact Bool.noConfusion ((all_marking s.tokens.size u).symm.trans hall)
  · obtain ⟨_, _, ⟨⟩, hrest⟩ := bind_ok hrest
    obtain ⟨required, v, hlook', hrest⟩ := bind_ok hrest
    obtain rfl := Looks.still _ _ _ hlook'
    split at hrest
    · cases hrest
      exact absurd hclean Cursor.not_failed
    · obtain ⟨hclean', ts, htokens, himports⟩ := importClause_ok hk hrest hclean
      have hfirst : Took s (s.took ctx .code) [s.cursor.token] := .next hclean'
      obtain ⟨first, star, pairs, h⟩ := himports (hfirst.inType.trans hvalue)
      refine ⟨ts, first, star, pairs, ?_, h⟩
      rw [htokens]
      simp

/-- The tokens of an import that is not decorated. -/
theorem Stated.imports (h : Stated ctx (statement k) tokens c found s t) (hlt : c.start < c.stop)
    (hkind : c.kind = .importStatement) : At tokens c.start .atSign ∨
      ∃ word ts first star pairs, (tokens.toList.take c.stop).drop c.start = word :: ts ∧
        word.kind = .kwImport ∧ word.role = none ∧ Imports ts first star pairs := by
  have hmodule : c.kind.OfModule := by rw [hkind]; decide
  obtain ⟨-, hall⟩ := h.kind_of_module hmodule
  rcases h.word hk hlt hmodule with hat | ⟨-, hrun⟩ | ⟨himport, -, hrun⟩
  · exact .inl hat
  · have := hk.keeping
    exact absurd hkind (exportStatement_answers _ _ t hrun)
  · rw [h.start] at hall
    obtain ⟨ts, first, star, pairs, htokens, himports⟩ :=
      importStatement_ok hk hrun h.clean h.value hall
    refine .inr ⟨s.cursor.token, ts, first, star, pairs, ?_, himport, rfl, himports⟩
    rw [h.toList_take, htokens, h.start]
    simp

end

end Grammar

/-- The tokens of each import of a snippet that is not decorated. -/
theorem parse_imports {text : List Char} {dialect : Dialect} {stream : TokenStream}
    (h : parse text dialect = .ok (.ok stream)) (hc : c ∈ stream.statements.toList)
    (hkind : c.kind = .importStatement) (hplain : ¬ Token.At stream.tokens c.start .atSign) :
    ∃ word ts first star pairs, (stream.tokens.toList.take c.stop).drop c.start = word :: ts ∧
      word.kind = .kwImport ∧ word.role = none ∧ Token.Imports ts first star pairs := by
  obtain ⟨n, found, s, t, hstated⟩ := parse_stated h c hc
  exact (hstated.imports (Grammar.grammar_sure _ n) ((parse_outlines h).bounds.2 c hc).2.1
    hkind).resolve_left hplain

end Downlevel
