import Mathlib.Data.List.Nodup
import Mathlib.Tactic.Common
import Downlevel.Linkage.Survey

/-!
# What a survey finds

A survey takes in one statement after the other, and what it has found out about a module it never
gives up again (`Grown`). So all that a single statement adds is found in the survey of the whole
snippet (`grown_of_mem`), the names that it imports among it (`named_of_take`).
-/

namespace Downlevel

/-! ## Dictionaries -/

namespace Dict

variable {α : Type} {d : Dict α} {key : String} {value : α}

theorem get?_cons (k : String) (v : α) (d : Dict α) (key : String) :
    get? ((k, v) :: d) key = if key = k then some v else d.get? key := by
  by_cases h : key = k
  · simp [get?, h]
  · have hne : (key == k) = false := beq_eq_false_iff_ne.mpr h
    simp [get?, List.lookup_cons, h, hne]

theorem put_cons (k : String) (v : α) (d : Dict α) (key : String) (value : α) :
    put ((k, v) :: d) key value =
      if k = key then (key, value) :: d else (k, v) :: d.put key value := by
  by_cases h : k = key <;> simp [put, h]

theorem get?_put (d : Dict α) (key : String) (value : α) (other : String) :
    (d.put key value).get? other = if other = key then some value else d.get? other := by
  induction d with
  | nil => exact get?_cons key value [] other
  | cons entry d ih =>
    obtain ⟨k, v⟩ := entry
    rw [put_cons, get?_cons]
    by_cases hk : k = key
    · rw [if_pos hk, get?_cons, hk]
      by_cases h : other = key <;> simp [h]
    · rw [if_neg hk, get?_cons, ih]
      by_cases h : other = k
      · subst h
        simp [hk]
      · simp [h]

theorem mem_of_get? (h : d.get? key = some value) : (key, value) ∈ d := by
  obtain ⟨before, after, rfl, -⟩ := List.lookup_eq_some_iff.mp h
  simp

theorem mem_keys_put {other : String} (h : other ∈ (d.put key value).keys) :
    other = key ∨ other ∈ d.keys := by
  induction d with
  | nil => simpa [put, keys] using h
  | cons entry d ih =>
    obtain ⟨k, v⟩ := entry
    rw [put_cons] at h
    by_cases hk : k = key
    · simpa [keys, hk] using h
    · rw [if_neg hk] at h
      rcases List.mem_cons.mp h with rfl | h
      · exact .inr (List.mem_cons_self ..)
      · exact (ih h).imp_right (List.mem_cons_of_mem _)

theorem nodup_put (hd : d.keys.Nodup) : (d.put key value).keys.Nodup := by
  induction d with
  | nil => simp [put, keys]
  | cons entry d ih =>
    obtain ⟨k, v⟩ := entry
    obtain ⟨hfirst, hrest⟩ := List.nodup_cons.mp hd
    rw [put_cons]
    by_cases hk : k = key
    · rw [if_pos hk, ← hk]
      exact hd
    · rw [if_neg hk]
      apply List.nodup_cons.mpr
      refine ⟨fun hmem => ?_, ih hrest⟩
      rcases mem_keys_put hmem with heq | hmem
      · exact hk heq
      · exact hfirst hmem

end Dict

/-! ## Surveys that grow -/

/-- All that `u` takes by name from a module is in `v` too. -/
structure ModuleUse.Within (u v : ModuleUse) : Prop where
  named : u.named ⊆ v.named
  reexports : u.reexports ⊆ v.reexports
  starNames : u.starNames ⊆ v.starNames

theorem ModuleUse.Within.refl (u : ModuleUse) : u.Within u := by
  constructor <;> exact List.Subset.refl _

theorem ModuleUse.Within.trans {u v w : ModuleUse} (h : u.Within v) (h' : v.Within w) :
    u.Within w :=
  ⟨List.Subset.trans h.named h'.named, List.Subset.trans h.reexports h'.reexports,
    List.Subset.trans h.starNames h'.starNames⟩

namespace Survey

variable {a b c : Survey}

/-- The survey `b` has found out all that `a` has. -/
structure Grown (a b : Survey) : Prop where
  uses : ∀ {path u}, a.uses.get? path = some u → ∃ v, b.uses.get? path = some v ∧ u.Within v
  plans : a.plans <+: b.plans
  nodup : a.uses.keys.Nodup → b.uses.keys.Nodup

namespace Grown

theorem refl (a : Survey) : Grown a a := ⟨fun h => ⟨_, h, .refl _⟩, List.prefix_refl _, id⟩

theorem of_eq {a' : Survey} (h : Grown a' b) (huses : a'.uses = a.uses)
    (hplans : a'.plans = a.plans) : Grown a b := by
  refine ⟨fun hu => h.uses (huses ▸ hu), ?_, ?_⟩
  · rw [← hplans]
    exact h.plans
  · rw [← huses]
    exact h.nodup

theorem trans (h : Grown a b) (h' : Grown b c) : Grown a c := by
  refine ⟨fun hu => ?_, h.plans.trans h'.plans, fun hd => h'.nodup (h.nodup hd)⟩
  obtain ⟨v, hv, huv⟩ := h.uses hu
  obtain ⟨w, hw, hvw⟩ := h'.uses hv
  exact ⟨w, hw, huv.trans hvw⟩

end Grown

theorem get?_onUse (survey : Survey) (path : String) (f : ModuleUse → ModuleUse) :
    (survey.onUse path f).uses.get? path = some (f ((survey.uses.get? path).getD {})) := by
  simp [onUse, Dict.get?_put]

theorem onUse_grown (survey : Survey) (path : String) {f : ModuleUse → ModuleUse}
    (hf : ∀ u : ModuleUse, u.Within (f u)) : Grown survey (survey.onUse path f) := by
  refine ⟨fun {other u} hu => ?_, List.prefix_refl _, Dict.nodup_put⟩
  by_cases heq : other = path
  · subst heq
    rw [get?_onUse, hu]
    exact ⟨_, rfl, hf u⟩
  · refine ⟨u, ?_, .refl u⟩
    simpa [onUse, Dict.get?_put, heq] using hu

@[simp] theorem uses_plan (survey : Survey) (start : Nat) (p : StatementPlan) :
    (survey.plan start p).uses = survey.uses := rfl

theorem plan_grown (survey : Survey) (start : Nat) (p : StatementPlan) :
    Grown survey (survey.plan start p) :=
  ⟨fun h => ⟨_, h, .refl _⟩, List.prefix_append .., id⟩

section

variable (s : Sheet) (survey : Survey) (statement : Statement)

theorem addImport_grown (options : SurveyOptions) (references : List String) :
    Grown survey (addImport s options references survey statement) := by
  unfold addImport
  dsimp only
  split
  · exact .refl survey
  · split
    · exact (onUse_grown _ _ fun u => ⟨by simp, by simp, by simp⟩).trans (plan_grown ..)
    · split
      · exact plan_grown ..
      · exact (onUse_grown _ _ fun u => ⟨by simp, by simp, by simp⟩).trans (plan_grown ..)

theorem addStarExport_grown (text : List Char) (start : Nat) (tokens : List Token) :
    Grown survey (addStarExport text survey start tokens) := by
  have hstar : ∀ path, Grown survey (survey.onUse path fun u => { u with star := true }) :=
    fun path => onUse_grown _ _ fun u => ⟨by simp, by simp, by simp⟩
  unfold addStarExport
  split
  · exact .refl survey
  · refine Grown.trans ?_ (plan_grown ..)
    split
    · split
      · refine (onUse_grown _ _ fun u => ?_).of_eq rfl rfl
        exact ⟨by simp, by simp, by simp⟩
      · exact hstar _
    · exact hstar _

theorem addBracedExport_grown (text : List Char) (start : Nat) (tokens : List Token) :
    Grown survey (addBracedExport text survey start tokens) := by
  unfold addBracedExport
  dsimp only
  split
  · exact (Grown.refl _).of_eq rfl rfl
  · refine Grown.trans ?_ (plan_grown ..)
    refine (onUse_grown _ _ fun u => ?_).of_eq rfl rfl
    exact ⟨by simp, by simp, by simp⟩

theorem addExport_grown : Grown survey (addExport s survey statement) := by
  unfold addExport
  dsimp only
  split
  · split
    · exact .refl survey
    · split
      · exact (Grown.refl _).of_eq rfl rfl
      · split
        · exact (addStarExport_grown ..).of_eq rfl rfl
        · exact (addBracedExport_grown ..).of_eq rfl rfl
        · exact (Grown.refl _).of_eq rfl rfl
  · exact .refl survey

end

/-! ## Whole snippets -/

/-- The token uses a name as a value. -/
structure Refers (text : List Char) (t : Token) (name : String) : Prop where
  value : t.isType = false
  kind : t.kind = .name ∨ t.kind = .jsxName
  role : t.role = some .access ∨ t.role = some .exportAccess ∨ t.role = some .objectShorthand
  name : String.ofList (t.text text) = name

instance decidableRefers (text : List Char) (t : Token) (name : String) :
    Decidable (Refers text t name) :=
  decidable_of_iff (t.isType = false ∧ (t.kind = .name ∨ t.kind = .jsxName) ∧
      (t.role = some .access ∨ t.role = some .exportAccess ∨ t.role = some .objectShorthand) ∧
      String.ofList (t.text text) = name)
    ⟨fun h => ⟨h.1, h.2.1, h.2.2.1, h.2.2.2⟩, fun h => ⟨h.value, h.kind, h.role, h.name⟩⟩

theorem mem_valueReferences {s : Sheet} {name : String} :
    name ∈ valueReferences s ↔ ∃ t ∈ s.tokens.toList, Refers s.text t name := by
  unfold valueReferences
  rw [List.mem_map]
  constructor
  · rintro ⟨t, ht, rfl⟩
    rw [List.mem_filter] at ht
    simp only [Bool.and_eq_true, Bool.not_eq_true', Bool.or_eq_true, beq_iff_eq] at ht
    obtain ⟨hmem, ⟨hvalue, hkind⟩, hrole⟩ := ht
    exact ⟨t, hmem, hvalue, hkind, or_assoc.mp hrole, rfl⟩
  · rintro ⟨t, hmem, h⟩
    refine ⟨t, List.mem_filter.mpr ⟨hmem, ?_⟩, h.name⟩
    simp only [Bool.and_eq_true, Bool.not_eq_true', Bool.or_eq_true, beq_iff_eq]
    exact ⟨⟨h.value, h.kind⟩, or_assoc.mpr h.role⟩

/-- Takes in a statement. -/
def take (s : Sheet) (options : SurveyOptions) (references : List String) (survey : Survey)
    (statement : Statement) : Survey :=
  match statement.kind with
  | .importStatement => addImport s options references survey statement
  | .exportStatement | .exportDefault => addExport s survey statement
  | _ => survey

theorem ofStream_eq (text : List Char) (stream : TokenStream) (options : SurveyOptions) :
    ofStream text stream options = stream.statements.toList.foldl
      (take ⟨text, stream.tokens⟩ options
        (valueReferences ⟨text, stream.tokens⟩ ++ options.implicitReferences)) {} := by
  rw [Array.foldl_toList]
  rfl

section

variable {s : Sheet} {options : SurveyOptions} {references : List String} {st : Statement}
  {path : String}

theorem take_grown (survey : Survey) (st : Statement) :
    Grown survey (take s options references survey st) := by
  unfold take
  split
  · exact addImport_grown ..
  · exact addExport_grown ..
  · exact addExport_grown ..
  · exact .refl survey

theorem foldl_take_grown (statements : List Statement) (survey : Survey) :
    Grown survey (statements.foldl (take s options references) survey) := by
  induction statements generalizing survey with
  | nil => exact .refl survey
  | cons st statements ih => exact (take_grown survey st).trans (ih _)

/-- What is found out at one statement is known in the end. -/
theorem grown_of_mem {statements : List Statement} (h : st ∈ statements) (survey : Survey) :
    ∃ before, Grown (take s options references before st)
      (statements.foldl (take s options references) survey) := by
  obtain ⟨first, rest, rfl⟩ := List.mem_iff_append.mp h
  refine ⟨first.foldl (take s options references) survey, ?_⟩
  rw [List.foldl_append, List.foldl_cons]
  exact foldl_take_grown rest _

/-- The statement imports a name out of a module by name. -/
structure Imports (s : Sheet) (st : Statement) (path : String) (n : NamedImport) : Prop where
  kind : st.kind = .importStatement
  module : path? s.text (tokensOf s st) = some path
  /-- it does not stand for its effects alone -/
  binds : ((tokensOf s st).drop 1).head?.any (·.kind == .string) = false
  named : n ∈ (clause s.text ((tokensOf s st).drop 1)).named

instance (s : Sheet) (st : Statement) (path : String) (n : NamedImport) :
    Decidable (Imports s st path n) :=
  decidable_of_iff (st.kind = .importStatement ∧ path? s.text (tokensOf s st) = some path ∧
      ((tokensOf s st).drop 1).head?.any (·.kind == .string) = false ∧
      n ∈ (clause s.text ((tokensOf s st).drop 1)).named)
    ⟨fun h => ⟨h.1, h.2.1, h.2.2.1, h.2.2.2⟩, fun h => ⟨h.kind, h.module, h.binds, h.named⟩⟩

/-- A name that a statement imports is known, unless it is never used and goes for that reason. -/
theorem named_of_take {n : NamedImport} (survey : Survey) (h : Imports s st path n)
    (hused : n.bound ∈ references) :
    ∃ use, (take s options references survey st).uses.get? path = some use ∧ n ∈ use.named := by
  have hnamed : n ∈ (clause s.text ((tokensOf s st).drop 1)).named.filter fun n =>
      !options.elideUnused || references.contains n.bound :=
    List.mem_filter.mpr ⟨h.named, by simp [hused]⟩
  have hsome := List.isEmpty_eq_false_iff.mpr (List.ne_nil_of_mem hnamed)
  simp only [take, h.kind, addImport, h.module, h.binds, hsome, Bool.and_false, Bool.false_and,
    Bool.false_eq_true, if_false, uses_plan, get?_onUse]
  exact ⟨_, rfl, List.mem_append_right _ hnamed⟩

end

end Survey

end Downlevel
