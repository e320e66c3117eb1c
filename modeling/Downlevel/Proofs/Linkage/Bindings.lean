import Mathlib.Data.List.Chain
import Downlevel.Proofs.Grammar.Clauses
import Downlevel.Proofs.Linkage.Survey

/-!
# Names that imports bind

The parser notes which names an import declares, and a survey finds them again by going over the
tokens. What a name is bound to can be told from the two tokens before it (`bindings`), and a survey
binds just these names, in their order (`imports_bind_declared`). One default name it does not find:
`from`, which it takes for the word before the module (`default_from_unbound`).
-/

namespace Downlevel.Survey

open Sheet (spelling)
open Token (Item Parts Specifiers ImportItems Gathered Bound Sourced)

variable {k : Kind}

/-! ## What is bound -/

/-- What a name is bound to by an import. -/
inductive Binding where
  | default (name : String)
  /-- the module as a whole -/
  | whole (name : String)
  | named (n : NamedImport)
deriving DecidableEq, Repr

namespace Binding

def default? : Binding → Option String
  | default name => some name
  | _ => none

def whole? : Binding → Option String
  | whole name => some name
  | _ => none

def named? : Binding → Option NamedImport
  | named n => some n
  | _ => none

end Binding

/-- What the name `t` is bound to after the tokens `a` and `b`. -/
def bindingOf (text : List Char) (a b : Option Token) (t : Token) : Binding :=
  if b.any (·.kind == .kwImport) then .default (spelling text t)
  else if b.any (·.isWord .kwAs) then
    if a.any (·.kind == .star) then .whole (spelling text t)
    else .named ⟨spelling text t, spelling text (a.getD t)⟩
  else .named ⟨spelling text t, spelling text t⟩

/-- Whether the token is a name that an import declares, and not for types alone. -/
def declares (t : Token) : Bool := t.role == some .importDeclaration && !t.isType

/-- What the names among some tokens are bound to, after the tokens `a` and `b`. -/
def bindingsAfter (text : List Char) (a b : Option Token) : List Token → List Binding
  | [] => []
  | t :: rest =>
    if declares t then bindingOf text a b t :: bindingsAfter text b (some t) rest
    else bindingsAfter text b (some t) rest

/-- The tokens of an import before the word `from` and the module, or none if it has no such word.
-/
def beforeSource : List Token → List Token
  | a :: b :: rest =>
    if b.kind == .string && (a.isWord .kwFrom || a.kind == .kwImport) then []
    else a :: beforeSource (b :: rest)
  | tokens => tokens

/-- What an import binds, from its tokens. -/
def bindings (text : List Char) (tokens : List Token) : List Binding :=
  bindingsAfter text none none (beforeSource tokens)

/-! ## The module -/

/-- After `a`, a string names a module. -/
def Leads (a : Token) : Prop := a.isWord .kwFrom = true ∨ a.kind = .kwImport

/-- The token `b` is no module that `a` leads to. -/
def Apart (a b : Token) : Prop := b.kind = .string → ¬ Leads a

variable {text : List Char} {a b c w p t : Token} {ts l rest source : List Token}

theorem not_leads_of_kind (hkind : t.kind = k) (h : k ≠ .name ∧ k ≠ .kwImport) : ¬ Leads t := by
  rintro (hword | himport)
  · simp only [Token.isWord, Bool.and_eq_true, beq_iff_eq] at hword
    exact h.1 (hkind.symm.trans hword.1)
  · exact h.2 (hkind.symm.trans himport)

theorem not_leads_of_word {word : Contextual} (h : t.isWord word = true) (hne : word ≠ .kwFrom) :
    ¬ Leads t := by
  simp only [Token.isWord, Bool.and_eq_true, beq_iff_eq] at h
  rintro (hword | hkind)
  · simp only [Token.isWord, Bool.and_eq_true, beq_iff_eq] at hword
    rw [h.2] at hword
    exact hne (Option.some.inj hword.2)
  · rw [h.1] at hkind
    cases hkind

theorem kind_of_word {word : Contextual} (h : t.isWord word = true) : t.kind = .name := by
  simp only [Token.isWord, Bool.and_eq_true, beq_iff_eq] at h
  exact h.1

/-- Where nothing leads to a module but the last of some tokens, what comes after that is one. -/
theorem source_of_chain (hchain : (l ++ [w]).IsChain Apart) (hw : w.isWord .kwFrom = true)
    (hp : p.kind = .string) : path? text (l ++ w :: p :: rest) = some (spelling text p) ∧
      beforeSource (l ++ w :: p :: rest) = l := by
  induction l with
  | nil => simp [path?, beforeSource, hw, hp]
  | cons a l ih =>
    obtain ⟨b, tail, htail⟩ : ∃ b tail, l ++ w :: p :: rest = b :: tail ∧ Apart a b ∧
        (l ++ [w]).IsChain Apart := by
      cases l with
      | nil =>
        rw [List.cons_append, List.nil_append, List.isChain_cons_cons] at hchain
        exact ⟨w, p :: rest, rfl, hchain.1, hchain.2⟩
      | cons b l =>
        rw [List.cons_append, List.cons_append, List.isChain_cons_cons] at hchain
        exact ⟨b, l ++ w :: p :: rest, rfl, hchain.1, hchain.2⟩
    obtain ⟨htail, hapart, hrest⟩ := htail
    have hno : ¬ (b.kind == .string && (a.isWord .kwFrom || a.kind == .kwImport)) = true := by
      simpa [Apart, Leads] using hapart
    obtain ⟨hpath, hbefore⟩ := ih hrest
    rw [List.cons_append, htail, path?, beforeSource, if_neg hno, if_neg hno, ← htail]
    exact ⟨hpath, by rw [hbefore]⟩

theorem apart_of_kind (hkind : b.kind = k) (h : k ≠ .string) : Apart a b :=
  fun hstring => absurd (hkind.symm.trans hstring) h

/-- Types or not, a token leads to the same. -/
theorem isChain_asType : (l.map Token.asType).IsChain Apart ↔ l.IsChain Apart := by
  rw [List.isChain_map]
  exact Iff.rfl

variable {single : Token → Prop} {both : Token → Token → Prop} {pair : Token × Token}
  {pairs : List (Token × Token)} {sep : List Token}

/-- A comma or the closing brace comes after an item. -/
theorem parts_chain (hsep : Parts sep rest) (hc : c.kind ≠ .string)
    (hrest : ∀ b, ¬ Leads b → (b :: (rest ++ [c])).IsChain Apart) :
    (t :: (sep ++ (rest ++ [c]))).IsChain Apart := by
  cases hsep with
  | comma hkind =>
    exact .cons_cons (apart_of_kind hkind (by decide))
      (hrest _ (not_leads_of_kind hkind (by decide)))
  | last => simpa [Apart] using fun hstring => absurd hstring hc

theorem item_chain (h : Item single both ts pair) (ha : ¬ Leads a)
    (hnext : ∀ t, (t :: l).IsChain Apart) : (a :: (ts ++ l)).IsChain Apart := by
  cases h with
  | one => exact .cons_cons (fun _ => ha) (hnext _)
  | two _ hd =>
    have hleads := not_leads_of_word hd.1 (by decide)
    exact .cons_cons (fun _ => ha) <| .cons_cons (apart_of_kind (kind_of_word hd.1) (by decide)) <|
      .cons_cons (fun _ => hleads) (hnext _)

/-- Between braces, nothing leads to a module. -/
theorem specifiers_chain (h : Specifiers single both ts pairs) (hc : c.kind ≠ .string) :
    ∀ a, ¬ Leads a → (a :: (ts ++ [c])).IsChain Apart := by
  induction h with
  | nil =>
    intro a ha
    exact .cons_cons (fun _ => ha) (.singleton c)
  | @typed m ts sep rest pair pairs hm hts hsep h ih =>
    intro a ha
    have hleads := not_leads_of_word hm (by decide)
    have hapart : Apart a m := fun _ => ha
    have hchain := List.IsChain.cons_cons hapart
      (item_chain hts hleads fun t => parts_chain hsep hc ih)
    have htwice : Token.asType ∘ Token.asType = Token.asType := rfl
    rw [← isChain_asType] at hchain ⊢
    simpa [htwice, Token.asType_asType] using hchain
  | item hts hsep h ih =>
    intro a ha
    simpa using item_chain hts ha fun t => parts_chain hsep hc ih

variable {first star : Option Token}

theorem gathered_chain (h : Gathered ts star pairs) (hw : w.kind = .name) (a : Token) :
    (a :: (ts ++ [w])).IsChain Apart := by
  have hlast : ∀ t, Apart t w := fun t => apart_of_kind hw (by decide)
  cases h with
  | nothing => simpa using hlast a
  | whole hs hd ht =>
    exact .cons_cons (apart_of_kind hs.1 (by decide)) <|
      .cons_cons (apart_of_kind (kind_of_word hd.1) (by decide)) <|
      .cons_cons (apart_of_kind ht.kind (by decide)) <| .cons_cons (hlast _) (.singleton w)
  | @braced o c items pairs ho hitems hc =>
    have hitems :=
      specifiers_chain hitems (by rw [hc.1]; decide) o (not_leads_of_kind ho.1 (by decide))
    have hall : ((o :: (items ++ [c])) ++ [w]).IsChain Apart := by
      rw [List.isChain_append]
      exact ⟨hitems, by simp, fun x _ y hy => by simp at hy; exact hy ▸ hlast x⟩
    exact .cons_cons (apart_of_kind ho.1 (by decide)) hall

/-- Nothing before the word `from` leads to a module. -/
theorem bound_chain (h : Bound ts first star pairs) (hw : w.kind = .name) (a : Token) :
    (a :: (ts ++ [w])).IsChain Apart := by
  cases h with
  | default ht =>
    exact .cons_cons (apart_of_kind ht.kind (by decide)) <|
      .cons_cons (apart_of_kind hw (by decide)) (.singleton w)
  | more ht hc h =>
    exact .cons_cons (apart_of_kind ht.kind (by decide)) <|
      .cons_cons (apart_of_kind hc.1 (by decide)) (gathered_chain h hw _)
  | gathered _ h => exact gathered_chain h hw a

/-! ## Names in braces -/

attribute [local simp] specifiers

theorem specifiers_pass (hkind : t.kind ≠ .braceR) (h : (t.isType || t.kind == .comma) = true) :
    specifiers text (t :: l) = specifiers text l := by
  rw [specifiers.eq_def]
  dsimp only
  rw [if_neg (by simpa using hkind), if_pos h]

theorem specifiers_skip (h : ∀ t ∈ ts, t.isType = true ∧ t.kind ≠ .braceR) :
    specifiers text (ts ++ l) = specifiers text l := by
  induction ts with
  | nil => rfl
  | cons t ts ih =>
    obtain ⟨htype, hkind⟩ := h t List.mem_cons_self
    rw [List.cons_append, specifiers_pass hkind (by simp [htype])]
    exact ih fun u hu => h u (List.mem_cons_of_mem t hu)

theorem specifiers_comma (hc : c.kind = .comma) :
    specifiers text (c :: l) = specifiers text l :=
  specifiers_pass (by rw [hc]; decide) (by simp [hc])

theorem specifiers_close (hc : c.kind = .braceR) : specifiers text (c :: l) = [] := by
  rw [specifiers.eq_def]
  exact if_pos (by rw [hc]; rfl)

theorem specifiers_one (ht : t.Names) (ha : a.kind = .comma ∧ l ≠ [] ∨ a.kind = .braceR) :
    specifiers text (t :: a :: l) =
      (spelling text t, spelling text t) :: specifiers text (a :: l) := by
  have hplain : ¬ a.isWord .kwAs = true := by
    intro hword
    rw [kind_of_word hword] at ha
    rcases ha with ⟨hkind, -⟩ | hkind <;> cases hkind
  have ht' : t.kind ≠ .braceR ∧ t.kind ≠ .comma := by
    rcases ht.kind with hkind | hkind <;> simp [hkind]
  cases l with
  | nil =>
    obtain ⟨-, hne⟩ | hkind := ha
    · exact absurd rfl hne
    · simp [ht', ht.value, hkind]
  | cons b l => simp [ht', ht.value, hplain]

theorem specifiers_two {u : Token} (ht : t.Names) (ha : a.isWord .kwAs = true) :
    specifiers text (t :: a :: u :: l) =
      (spelling text t, spelling text u) :: specifiers text l := by
  rcases ht.kind with hkind | hkind <;> simp [ht.value, hkind, ha]

/-- The pairs of names in braces are found again. -/
theorem specifiers_eq (h : Specifiers single both ts pairs) (hc : c.kind = .braceR) :
    specifiers text (ts ++ c :: l) =
      pairs.map fun p => (spelling text p.1, spelling text p.2) := by
  induction h with
  | nil => exact specifiers_close hc
  | @typed m ts sep rest pair pairs hm hts hsep h ih =>
    rw [List.append_assoc, specifiers_skip, ih]
    intro t ht
    obtain ⟨u, hu, rfl⟩ := List.mem_map.mp ht
    refine ⟨rfl, fun hkind : u.kind = .braceR => ?_⟩
    rcases List.mem_cons.mp hu with rfl | hu
    · rw [kind_of_word hm] at hkind
      cases hkind
    · rcases List.mem_append.mp hu with hu | hu
      · rcases hts.kinds u hu with hname | hname <;> rw [hname] at hkind <;> cases hkind
      · cases hsep with
        | comma hcomma =>
          rw [List.mem_singleton.mp hu, hcomma] at hkind
          cases hkind
        | last => cases hu
  | @item ts sep rest pair pairs hts hsep h ih =>
    have hafter : specifiers text (sep ++ (rest ++ c :: l)) = specifiers text (rest ++ c :: l) := by
      cases hsep with
      | comma hkind => exact specifiers_comma hkind
      | last => rfl
    rw [List.map_cons, ← ih, ← hafter, List.append_assoc, List.append_assoc]
    cases hts with
    | two ht ha => exact specifiers_two ht ha.1
    | one ht =>
      cases hsep with
      | comma hkind => exact specifiers_one ht (.inl ⟨hkind, by simp⟩)
      | last => exact specifiers_one ht (.inr hc)

/-! ## Names that are declared -/

/-- How a name in braces is bound. -/
def pairBinding (text : List Char) (p : Token × Token) : NamedImport :=
  ⟨spelling text p.2, spelling text p.1⟩

variable {x y : Option Token}

theorem bindingsAfter_cons (h : declares t = false) :
    bindingsAfter text x y (t :: l) = bindingsAfter text y (some t) l := by
  rw [bindingsAfter, h]
  rfl

theorem bindingsAfter_declares (h : declares t = true) :
    bindingsAfter text x y (t :: l) = bindingOf text x y t :: bindingsAfter text y (some t) l := by
  rw [bindingsAfter, h]
  rfl

theorem bindingsAfter_nothing (h : ∀ t ∈ l, declares t = false) :
    bindingsAfter text x y l = [] := by
  induction l generalizing x y with
  | nil => rfl
  | cons t l ih =>
    rw [bindingsAfter_cons (h t List.mem_cons_self)]
    exact ih fun u hu => h u (List.mem_cons_of_mem t hu)

theorem bindingsAfter_skip (h : ∀ t ∈ ts, declares t = false) (hc : declares c = false) :
    ∃ z, bindingsAfter text x y (ts ++ c :: l) = bindingsAfter text z (some c) l := by
  induction ts generalizing x y with
  | nil => exact ⟨y, bindingsAfter_cons hc⟩
  | cons t ts ih =>
    rw [List.cons_append, bindingsAfter_cons (h t List.mem_cons_self)]
    exact ih fun u hu => h u (List.mem_cons_of_mem t hu)

theorem declares_of_role (h : t.role = none) : declares t = false := by simp [declares, h]

theorem pairs_of_nil (h : Specifiers single both [] pairs) : pairs = [] := by
  generalize hnil : [] = ts at h
  cases h with
  | nil => rfl
  | typed => simp at hnil
  | item hts => cases hts <;> simp at hnil

/-- A name after these tokens is bound to one that the module gives. -/
def Inside (t : Token) : Prop := t.kind ≠ .kwImport ∧ t.isWord .kwAs = false

theorem inside_of_kind (hkind : t.kind = k) (h : k ≠ .kwImport ∧ k ≠ .name) : Inside t := by
  subst hkind
  exact ⟨h.1, by simp [Token.isWord, h.2]⟩

theorem bindingsAfter_parts (hsep : Parts sep rest) (hrest : ImportItems rest pairs)
    (hc : c.role = none) (ih : ∀ x b, Inside b →
      bindingsAfter text x (some b) (rest ++ [c]) = pairs.map (.named ∘ pairBinding text)) :
    bindingsAfter text x y (sep ++ (rest ++ [c])) = pairs.map (.named ∘ pairBinding text) := by
  cases hsep with
  | comma hkind hrole =>
    rw [List.cons_append, bindingsAfter_cons (declares_of_role hrole)]
    exact ih _ _ (inside_of_kind hkind (by decide))
  | last =>
    rw [pairs_of_nil hrest]
    exact bindingsAfter_nothing (by simpa using declares_of_role hc)

theorem bindingsAfter_items (h : ImportItems ts pairs) (hc : c.role = none) (x : Option Token)
    (b : Token) (hb : Inside b) : bindingsAfter text x (some b) (ts ++ [c]) =
      pairs.map (.named ∘ pairBinding text) := by
  induction h generalizing x b with
  | nil => exact bindingsAfter_nothing (by simpa using declares_of_role hc)
  | @typed m ts sep rest pair pairs hm hts hsep h ih =>
    have htypes : ∀ t ∈ (m :: (ts ++ sep)).map Token.asType, declares t = false := by
      intro t ht
      obtain ⟨u, -, rfl⟩ := List.mem_map.mp ht
      simp [declares, Token.asType]
    rw [List.append_assoc]
    cases hsep with
    | @comma d _ hkind hrole =>
      have hsplit : (m :: (ts ++ [d])).map Token.asType ++ (rest ++ [c]) =
          (m :: ts).map Token.asType ++ d.asType :: (rest ++ [c]) := by simp
      obtain ⟨z, hz⟩ : ∃ z, bindingsAfter text x (some b)
          ((m :: ts).map Token.asType ++ d.asType :: (rest ++ [c])) =
            bindingsAfter text z (some d.asType) (rest ++ [c]) := by
        refine bindingsAfter_skip (fun t ht => htypes t ?_) (htypes _ (by simp))
        obtain ⟨u, hu, rfl⟩ := List.mem_map.mp ht
        exact List.mem_map_of_mem (List.mem_append_left [d] hu)
      have hkind' : d.asType.kind = .comma := hkind
      rw [hsplit, hz]
      exact ih _ _ (inside_of_kind hkind' (by decide))
    | last =>
      rw [pairs_of_nil h]
      refine bindingsAfter_nothing fun t ht => ?_
      rcases List.mem_append.mp ht with ht | ht
      · exact htypes t ht
      · rw [List.nil_append, List.mem_singleton] at ht
        exact ht ▸ declares_of_role hc
  | @item ts sep rest pair pairs hts hsep h ih =>
    rw [List.map_cons, List.append_assoc, List.append_assoc]
    cases hts with
    | one ht hrole =>
      rw [List.singleton_append, bindingsAfter_declares (by simp [declares, hrole, ht.value]),
        bindingsAfter_parts hsep h hc fun x b hb => ih x b hb]
      simp [bindingOf, hb.1, hb.2, pairBinding]
    | two ht ha hu hroles =>
      rename_i t d u
      have haccess : declares t = false := by simp [declares, hroles.1]
      have hbound : declares u = true := by simp [declares, hroles.2, hu.value]
      have hconjunction : d.kind ≠ .kwImport := by rw [kind_of_word ha.1]; decide
      have hname : t.kind ≠ .star := by rcases ht.kind with hkind | hkind <;> rw [hkind] <;> decide
      rw [List.cons_append, List.cons_append, List.singleton_append, bindingsAfter_cons haccess,
        bindingsAfter_cons (declares_of_role ha.2), bindingsAfter_declares hbound,
        bindingsAfter_parts hsep h hc fun x b hb => ih x b hb]
      simp [bindingOf, hconjunction, ha.1, hname, pairBinding]

theorem declares_of_binds (h : t.Binds) : declares t = true := by simp [declares, h.role, h.value]

theorem bindingsAfter_gathered (h : Gathered ts star pairs) :
    bindingsAfter text x y ts = star.toList.map (.whole ∘ spelling text) ++
      pairs.map (.named ∘ pairBinding text) := by
  cases h with
  | nothing => rfl
  | @whole s d t hs hd ht =>
    have hd' : d.kind ≠ .kwImport := by rw [kind_of_word hd.1]; decide
    rw [bindingsAfter_cons (declares_of_role hs.2), bindingsAfter_cons (declares_of_role hd.2),
      bindingsAfter_declares (declares_of_binds ht)]
    simp [bindingOf, hd', hd.1, hs.1, bindingsAfter]
  | @braced o c items pairs ho hitems hc =>
    rw [bindingsAfter_cons (declares_of_role ho.2)]
    exact bindingsAfter_items hitems hc.2 _ _
      (inside_of_kind ho.1 (by decide))

/-- The names that an import declares. -/
theorem bindingsAfter_bound (h : Bound ts first star pairs) (hword : w.kind = .kwImport)
    (hrole : w.role = none) : bindingsAfter text none none (w :: ts) =
      first.toList.map (.default ∘ spelling text) ++
        (star.toList.map (.whole ∘ spelling text) ++
          pairs.map (.named ∘ pairBinding text)) := by
  rw [bindingsAfter_cons (declares_of_role hrole)]
  cases h with
  | default ht =>
    rw [bindingsAfter_declares (declares_of_binds ht)]
    simp [bindingOf, hword, bindingsAfter]
  | more ht hc h =>
    rw [bindingsAfter_declares (declares_of_binds ht), bindingsAfter_cons (declares_of_role hc.2),
      bindingsAfter_gathered h]
    simp [bindingOf, hword]
  | gathered _ h => rw [bindingsAfter_gathered h]; rfl

/-! ## Clauses -/

theorem bracedClause_else (h : t.kind ≠ .braceL) (found : Clause) :
    bracedClause text found (t :: l) = found := by
  rw [bracedClause, if_neg (by simpa using h)]

theorem clauseAfterDefault_else (h : t.kind ≠ .star) (found : Clause) :
    clauseAfterDefault text found (t :: l) = bracedClause text found (t :: l) := by
  rcases l with _ | ⟨b, _ | ⟨c, l⟩⟩
  · rfl
  · rfl
  · rw [clauseAfterDefault, if_neg (by simpa using h)]

theorem clauseAfterDefault_gathered (text : List Char) (h : Gathered ts star pairs)
    (hs : Sourced source) (found : Clause) (hfound : found.wildcard = none ∧ found.named = []) :
    ∃ binds, clauseAfterDefault text found (ts ++ source) =
      ⟨found.default, star.map (spelling text), pairs.map (pairBinding text), binds⟩ := by
  obtain ⟨default, wildcard, named, binds⟩ := found
  obtain ⟨rfl, rfl⟩ := hfound
  obtain ⟨w, p, rest, rfl, hw, hp⟩ := hs
  have hname : w.kind ≠ .braceL ∧ w.kind ≠ .star := by rw [kind_of_word hw]; decide
  cases h with
  | nothing =>
    rw [List.nil_append, clauseAfterDefault_else hname.2, bracedClause_else hname.1]
    exact ⟨binds, rfl⟩
  | @whole s d t hs hd ht =>
    rw [List.cons_append, List.cons_append, List.singleton_append, clauseAfterDefault,
      if_pos (by simp [hs.1]), bracedClause_else hname.1]
    exact ⟨true, rfl⟩
  | @braced o c items pairs ho hitems hc =>
    rw [List.cons_append, clauseAfterDefault_else (by rw [ho.1]; decide), bracedClause,
      if_pos (by simp [ho.1]), List.append_assoc, List.singleton_append, specifiers_eq hitems hc.1,
      List.map_map]
    exact ⟨_, rfl⟩

/-- What an import binds is found again, unless its default name is `from`. -/
theorem clause_bound (text : List Char) (h : Bound ts first star pairs) (hs : Sourced source)
    (hfrom : ∀ t, first = some t → t.isWord .kwFrom = false) :
    ∃ binds, clause text (ts ++ source) = ⟨first.map (spelling text),
      star.map (spelling text), pairs.map (pairBinding text), binds⟩ := by
  have hdefault : ∀ {t}, t.Binds → spelling text t = String.ofList (t.text text) := by
    intro t ht
    simp [spelling, ht.kind]
  have hname : ∀ {t}, t.Binds → first = some t →
      (t.kind == .name && !t.isWord .kwFrom) = true := by
    intro t ht hfirst
    simp [ht.kind, hfrom t hfirst]
  cases h with
  | @default t ht =>
    obtain ⟨w, p, rest, rfl, hw, hp⟩ := id hs
    obtain ⟨binds, hclause⟩ := clauseAfterDefault_gathered text .nothing hs
      { default := some (String.ofList (t.text text)), binds := true } ⟨rfl, rfl⟩
    refine ⟨binds, ?_⟩
    rw [List.singleton_append, clause, if_pos (hname ht rfl), Option.map_some, hdefault ht]
    dsimp only
    rw [if_neg (by simp [kind_of_word hw])]
    exact hclause
  | @more t c ts star pairs ht hc h =>
    obtain ⟨binds, hclause⟩ := clauseAfterDefault_gathered text h hs
      { default := some (String.ofList (t.text text)), binds := true } ⟨rfl, rfl⟩
    refine ⟨binds, ?_⟩
    rw [List.cons_append, clause, if_pos (hname ht rfl), Option.map_some, hdefault ht]
    dsimp only
    rw [if_pos (by simp [hc.1])]
    exact hclause
  | @gathered t ts star pairs ht h =>
    obtain ⟨binds, hclause⟩ := clauseAfterDefault_gathered text h hs {} ⟨rfl, rfl⟩
    refine ⟨binds, ?_⟩
    rw [List.cons_append, clause, if_neg (by simp [ht])]
    exact hclause

/-! ## Surveys -/

/-- The name that is bound. -/
def Binding.name : Binding → String
  | default name => name
  | whole name => name
  | named n => n.bound

/-- All that is known of a module. -/
def use (survey : Survey) (path : String) : ModuleUse := (survey.uses.get? path).getD {}

/-- The names that `v` binds are those of `u` and some more. -/
structure Adds (u v : ModuleUse) (bs : List Binding) : Prop where
  defaults : v.defaults = u.defaults ++ bs.filterMap Binding.default?
  wildcards : v.wildcards = u.wildcards ++ bs.filterMap Binding.whole?
  named : v.named = u.named ++ bs.filterMap Binding.named?

theorem Adds.refl (u : ModuleUse) : Adds u u [] := by constructor <;> simp

theorem Adds.trans {u v w : ModuleUse} {bs cs : List Binding} (h : Adds u v bs)
    (h' : Adds v w cs) : Adds u w (bs ++ cs) := by
  constructor
  · rw [h'.defaults, h.defaults, List.filterMap_append, List.append_assoc]
  · rw [h'.wildcards, h.wildcards, List.filterMap_append, List.append_assoc]
  · rw [h'.named, h.named, List.filterMap_append, List.append_assoc]

/-- What is kept of the names that an import binds. -/
theorem adds_of_lists {u v : ModuleUse} (keep : String → Bool) {ds ws : List String}
    {ns : List NamedImport} (hd : v.defaults = u.defaults ++ ds.filter keep)
    (hw : v.wildcards = u.wildcards ++ ws.filter keep)
    (hn : v.named = u.named ++ ns.filter fun n => keep n.bound) :
    Adds u v ((ds.map Binding.default ++ (ws.map Binding.whole ++ ns.map Binding.named)).filter
      fun b => keep b.name) := by
  constructor
  · rw [hd]
    simp [List.filter_map, List.filterMap_map, Function.comp_def, Binding.name, Binding.default?]
  · rw [hw]
    simp [List.filter_map, List.filterMap_map, Function.comp_def, Binding.name, Binding.whole?]
  · rw [hn]
    simp [List.filter_map, List.filterMap_map, Function.comp_def, Binding.name, Binding.named?]

variable {survey : Survey} {s : Sheet} {options : SurveyOptions} {references : List String}
  {st : Statement} {path q : String}

theorem use_onUse (f : ModuleUse → ModuleUse) :
    (survey.onUse q f).use path = if path = q then f (survey.use path) else survey.use path := by
  unfold use onUse
  rw [Dict.get?_put]
  split
  · rename_i heq
    subst heq
    rfl
  · rfl

@[simp] theorem use_plan (start : Nat) (plan : StatementPlan) :
    (survey.plan start plan).use path = survey.use path := rfl

theorem adds_onUse {survey' : Survey} (huses : survey'.uses = survey.uses)
    {f : ModuleUse → ModuleUse} (hf : ∀ u, Adds u (f u) []) :
    Adds (survey.use path) ((survey'.onUse q f).use path) [] := by
  have hsame : survey'.use path = survey.use path := by rw [use, huses, use]
  rw [use_onUse, hsame]
  split
  · exact hf _
  · exact .refl _

section Exports

theorem addStarExport_adds (text : List Char) (start : Nat) (tokens : List Token) :
    Adds (survey.use path) ((addStarExport text survey start tokens).use path) [] := by
  have hstar : ∀ q, Adds (survey.use path)
      ((survey.onUse q fun u => { u with star := true }).use path) [] :=
    fun q => adds_onUse rfl fun u => ⟨by simp, by simp, by simp⟩
  unfold addStarExport
  split
  · exact .refl _
  · rw [use_plan]
    split
    · split
      · refine adds_onUse (by rfl) fun u => ?_
        exact ⟨by simp, by simp, by simp⟩
      · exact hstar _
    · exact hstar _

theorem addBracedExport_adds (text : List Char) (start : Nat) (tokens : List Token) :
    Adds (survey.use path) ((addBracedExport text survey start tokens).use path) [] := by
  unfold addBracedExport
  dsimp only
  split
  · exact .refl _
  · rw [use_plan]
    refine adds_onUse (by rfl) fun u => ?_
    exact ⟨by simp, by simp, by simp⟩

theorem addExport_adds : Adds (survey.use path) ((addExport s survey st).use path) [] := by
  unfold addExport
  dsimp only
  split
  · split
    · exact .refl _
    · split
      · exact .refl _
      · split
        · show Adds (use { survey with hasExports := true } path) _ []
          exact addStarExport_adds ..
        · show Adds (use { survey with hasExports := true } path) _ []
          exact addBracedExport_adds ..
        · exact .refl _
  · exact .refl _

end Exports

/-- Whether a name is kept by a survey. -/
def keeps (options : SurveyOptions) (references : List String) (name : String) : Bool :=
  !options.elideUnused || references.contains name

/-- What an import adds to what is known of a module. -/
def added (s : Sheet) (options : SurveyOptions) (references : List String) (path : String)
    (st : Statement) : List Binding :=
  if st.kind = .importStatement ∧ path? s.text (tokensOf s st) = some path then
    (bindings s.text (tokensOf s st)).filter fun b => keeps options references b.name
  else []

theorem bound_head (h : Bound ts first star pairs) :
    ((ts ++ source).head?.any (·.kind == .string)) = false := by
  cases h with
  | default ht => simp [ht.kind]
  | more ht => simp [ht.kind]
  | gathered _ h =>
    cases h with
    | whole hs => simp [hs.1]
    | braced ho => simp [ho.1]

/-- The module of an import that binds names, and the names. -/
theorem bindings_bound (text : List Char) (h : Bound ts first star pairs) (hs : Sourced source)
    (hword : w.kind = .kwImport) (hrole : w.role = none) :
    (∃ q, path? text (w :: (ts ++ source)) = some q) ∧ bindings text (w :: (ts ++ source)) =
      (first.map (spelling text)).toList.map Binding.default ++
        ((star.map (spelling text)).toList.map Binding.whole ++
          (pairs.map (pairBinding text)).map Binding.named) := by
  obtain ⟨v, p, rest, rfl, hv, hp⟩ := hs
  obtain ⟨hpath, hbefore⟩ := source_of_chain (l := w :: ts)
    (bound_chain h (kind_of_word hv) w) hv hp
  refine ⟨⟨_, hpath⟩, ?_⟩
  rw [bindings, ← List.cons_append, hbefore, bindingsAfter_bound h hword hrole, List.map_map,
    Option.toList_map, Option.toList_map, List.map_map, List.map_map]

/-- An import binds the names that it declares. -/
theorem addImport_adds (hkind : st.kind = .importStatement) {word : Token}
    (htokens : tokensOf s st = word :: ts) (hword : word.kind = .kwImport)
    (hrole : word.role = none)
    (himports : Token.Imports ts first star pairs)
    (hfrom : ∀ t, first = some t → t.isWord .kwFrom = false) :
    Adds (survey.use path) ((addImport s options references survey st).use path)
      (added s options references path st) := by
  unfold addImport added
  dsimp only
  rw [htokens]
  cases himports with
  | @bare t ts ht =>
    have hpath : path? s.text (word :: t :: ts) = some (spelling s.text t) := by
      simp [path?, ht, hword]
    have hnone : bindings s.text (word :: t :: ts) = [] := by
      simp [bindings, beforeSource, bindingsAfter, ht, hword]
    rw [hpath, hnone]
    dsimp only
    rw [List.drop_one, List.tail_cons, if_pos (by simp [ht] : (t :: ts).head?.any _ = true),
      use_plan, List.filter_nil, ite_self]
    exact adds_onUse rfl fun u => ⟨by simp, by simp, by simp⟩
  | @bound ts source first star pairs h hsource =>
    obtain ⟨⟨q, hpath⟩, hbindings⟩ := bindings_bound s.text h hsource hword hrole
    obtain ⟨binds, hclause⟩ := clause_bound s.text h hsource hfrom
    rw [hpath, hbindings]
    dsimp only
    rw [List.drop_one, List.tail_cons, bound_head h, hclause, if_neg Bool.false_ne_true]
    split
    · rename_i helided
      simp only [Bool.and_eq_true, List.isEmpty_iff] at helided
      obtain ⟨⟨⟨⟨hd, hw⟩, hn⟩, -⟩, -⟩ := helided
      rw [use_plan]
      split
      · exact adds_of_lists (keeps options references) (by simpa [keeps] using hd)
          (by simpa [keeps] using hw) (by simpa [keeps] using hn)
      · exact .refl _
    · rw [use_plan, use_onUse]
      by_cases hq : path = q
      · rw [if_pos hq, if_pos ⟨hkind, congrArg some hq.symm⟩]
        exact adds_of_lists (keeps options references) rfl rfl rfl
      · rw [if_neg hq, if_neg fun h => hq (Option.some.inj h.2).symm]
        exact .refl _

/-- The statements add what their imports declare, one after the other. -/
theorem foldl_take_adds {statements : List Statement}
    (h : ∀ st ∈ statements, ∀ survey, Adds (use survey path)
      ((take s options references survey st).use path) (added s options references path st)) :
    Adds (survey.use path) ((statements.foldl (take s options references) survey).use path)
      (statements.flatMap (added s options references path)) := by
  induction statements generalizing survey with
  | nil => exact .refl _
  | cons st statements ih =>
    rw [List.foldl_cons, List.flatMap_cons]
    exact (h st List.mem_cons_self survey).trans
      (ih fun st' hst' => h st' (List.mem_cons_of_mem st hst'))

/-! ## Snippets -/

/-- A name is kept unless names go that are not used, and it is not. -/
def Kept (text : List Char) (tokens : Array Token) (options : SurveyOptions) (name : String) :
    Prop :=
  options.elideUnused = true →
    name ∈ options.implicitReferences ∨ ∃ t ∈ tokens.toList, Refers text t name

instance (text : List Char) (tokens : Array Token) (options : SurveyOptions) (name : String) :
    Decidable (Kept text tokens options name) := inferInstanceAs (Decidable (_ → _))

theorem keeps_iff {name : String} :
    keeps options (valueReferences s ++ options.implicitReferences) name = true ↔
      Kept s.text s.tokens options name := by
  unfold keeps Kept
  rw [← mem_valueReferences]
  cases options.elideUnused <;> simp [or_comm]

/-- What the imports of a module declare in a snippet, in order. -/
def declared (text : List Char) (stream : TokenStream) (options : SurveyOptions) (path : String) :
    List Binding :=
  (stream.statements.toList.filter fun st => st.kind = .importStatement ∧
      path? text (tokensOf ⟨text, stream.tokens⟩ st) = some path).flatMap fun st =>
    (bindings text (tokensOf ⟨text, stream.tokens⟩ st)).filter fun b =>
      Kept text stream.tokens options b.name

theorem flatMap_added (text : List Char) (stream : TokenStream) (options : SurveyOptions)
    (path : String) : stream.statements.toList.flatMap (added ⟨text, stream.tokens⟩ options
      (valueReferences ⟨text, stream.tokens⟩ ++ options.implicitReferences) path) =
        declared text stream options path := by
  have hkept : ∀ b : Binding, keeps options
      (valueReferences ⟨text, stream.tokens⟩ ++ options.implicitReferences) b.name =
        decide (Kept text stream.tokens options b.name) := by
    intro b
    rw [Bool.eq_iff_iff, keeps_iff, decide_eq_true_iff]
  unfold declared
  induction stream.statements.toList with
  | nil => rfl
  | cons st statements ih =>
    rw [List.flatMap_cons, List.filter_cons, ih, added]
    simp only [hkept]
    by_cases h : st.kind = .importStatement ∧
        path? text (tokensOf ⟨text, stream.tokens⟩ st) = some path
    · rw [if_pos h, if_pos (decide_eq_true h), List.flatMap_cons]
    · rw [if_neg h, if_neg (by simpa using h), List.nil_append]

theorem head_of_imports (h : Token.Imports ts (some t) star pairs) : ts.head? = some t := by
  cases h with
  | bound h => cases h <;> rfl

theorem addImport_other (h : path? s.text (tokensOf s st) ≠ some path) :
    Adds (survey.use path) ((addImport s options references survey st).use path) [] := by
  have hother : ∀ {q : String} {f : ModuleUse → ModuleUse},
      path? s.text (tokensOf s st) = some q → (survey.onUse q f).use path = survey.use path := by
    intro q f hq
    rw [use_onUse, if_neg]
    rintro rfl
    exact h hq
  unfold addImport
  dsimp only
  split
  · exact .refl _
  · rename_i q hq
    split
    · rw [use_plan, hother hq]
      exact .refl _
    · split
      · exact .refl _
      · rw [use_plan, hother hq]
        exact .refl _

/-- A survey binds the names that the imports of a module declare, each of them once and in order.
With `elideUnused`, these are the names that are used as values. No import of the module may be
decorated or have the default name `from`. -/
theorem imports_bind_declared {text : List Char} {dialect : Dialect} {stream : TokenStream}
    (hparse : parse text dialect = .ok (.ok stream)) (options : SurveyOptions) {path : String}
    (hplain : ∀ st ∈ stream.statements.toList, st.kind = .importStatement →
      path? text (tokensOf ⟨text, stream.tokens⟩ st) = some path →
      ¬ Token.At stream.tokens st.start .atSign ∧
        ((tokensOf ⟨text, stream.tokens⟩ st).drop 1).head?.any (·.isWord .kwFrom) = false) :
    ((ofStream text stream options).use path).defaults =
        (declared text stream options path).filterMap Binding.default? ∧
      ((ofStream text stream options).use path).wildcards =
        (declared text stream options path).filterMap Binding.whole? ∧
      ((ofStream text stream options).use path).named =
        (declared text stream options path).filterMap Binding.named? := by
  have hadds : Adds (use {} path) ((ofStream text stream options).use path)
      (declared text stream options path) := by
    rw [ofStream_eq, ← flatMap_added]
    refine foldl_take_adds fun st hst survey => ?_
    by_cases himport : st.kind = .importStatement
    · by_cases hpath : path? text (tokensOf ⟨text, stream.tokens⟩ st) = some path
      · obtain ⟨hmark, hfrom⟩ := hplain st hst himport hpath
        obtain ⟨word, ts, first, star, pairs, htokens, hword, hrole, himports⟩ :=
          parse_imports hparse hst himport hmark
        rw [take, himport]
        refine addImport_adds himport htokens hword hrole himports fun t ht => ?_
        subst ht
        have htokens' : tokensOf ⟨text, stream.tokens⟩ st = word :: ts := htokens
        simpa [htokens', head_of_imports himports] using hfrom
      · rw [take, himport, added, if_neg fun h => hpath h.2]
        exact addImport_other hpath
    · rw [added, if_neg fun h => himport h.1]
      unfold take
      split
      · contradiction
      · exact addExport_adds
      · exact addExport_adds
      · exact .refl _
  exact ⟨hadds.defaults, hadds.wildcards, hadds.named⟩

/-- Names that are words of the clause itself, of which one is not used. -/
theorem imports_bind_declared_words :
    let text := ("import as, \x7b from as b, type E \x7d from 'x';\n" ++
      "import * as from from 'x'; from(b);").toList
    let options : SurveyOptions := { elideUnused := true }
    ∃ stream, parse text { typescript := true } = .ok (.ok stream) ∧
      ((ofStream text stream options).use "x").defaults = [] ∧
      ((ofStream text stream options).use "x").wildcards = ["from"] ∧
      ((ofStream text stream options).use "x").named = [⟨"b", "from"⟩] := by
  intro text options
  obtain ⟨stream, hparse, hplain, hdeclared⟩ : ∃ stream,
      parse text { typescript := true } = .ok (.ok stream) ∧
      (∀ st ∈ stream.statements.toList, st.kind = .importStatement →
        path? text (tokensOf ⟨text, stream.tokens⟩ st) = some "x" →
        ¬ Token.At stream.tokens st.start .atSign ∧
          ((tokensOf ⟨text, stream.tokens⟩ st).drop 1).head?.any (·.isWord .kwFrom) = false) ∧
        declared text stream options "x" = [.named ⟨"b", "from"⟩, .whole "from"] :=
    exists_accepted (by decide +kernel)
  have hbind := imports_bind_declared hparse options hplain
  rw [hdeclared] at hbind
  exact ⟨stream, hparse, hbind⟩

/-- Not every name is bound: a default name `from` is taken for the word before the module. -/
theorem default_from_unbound : ¬ ∀ (text : List Char) (dialect : Dialect) (stream : TokenStream)
    (options : SurveyOptions) (path : String), parse text dialect = .ok (.ok stream) →
    ((ofStream text stream options).use path).defaults =
      (declared text stream options path).filterMap Binding.default? := by
  intro h
  let text := "import from from 'x';\nfrom;".toList
  obtain ⟨stream, hparse, hlost, hdeclared⟩ : ∃ stream, parse text {} = .ok (.ok stream) ∧
      ((ofStream text stream {}).use "x").defaults = [] ∧
        (declared text stream {} "x").filterMap Binding.default? = ["from"] :=
    exists_accepted (by decide +kernel)
  have hbind := h text {} stream {} "x" hparse
  rw [hlost, hdeclared] at hbind
  cases hbind

end Downlevel.Survey
