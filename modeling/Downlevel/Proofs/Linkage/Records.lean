import Downlevel.Linkage.Scaffold
import Downlevel.Proofs.Linkage.Survey
import Downlevel.Proofs.Name.Supply

/-!
# The records of modules

Every module of a survey gets a record, in the order of the survey. Its code exports what is
exported again out of the module (`Reexports`), and each helper that it calls has a name. All names
that are given on the way are free (`Built`).
-/

namespace Downlevel.Linkage

variable {b b' b'' : Linkage × NameSupply}

/-! ## Helpers -/

/-- Nothing but helpers has been added to a linkage, each with a free name. -/
structure Grown (b b' : Linkage × NameSupply) : Prop where
  survey : b'.1.survey = b.1.survey
  boundPaths : b'.1.boundPaths = b.1.boundPaths
  records : b'.1.records = b.1.records
  replacements : b'.1.replacements = b.1.replacements
  helpers : ∃ more, b'.1.helpers = b.1.helpers ++ more ∧ b.2.Gave (more.map (·.2)) b'.2

namespace Grown

theorem refl (b : Linkage × NameSupply) : Grown b b :=
  ⟨rfl, rfl, rfl, rfl, [], by simp, .refl _⟩

theorem trans (h : Grown b b') (h' : Grown b' b'') : Grown b b'' := by
  obtain ⟨more, hmore, hgave⟩ := h.helpers
  obtain ⟨more', hmore', hgave'⟩ := h'.helpers
  refine ⟨h'.survey.trans h.survey, h'.boundPaths.trans h.boundPaths, h'.records.trans h.records,
    h'.replacements.trans h.replacements, more ++ more', ?_, ?_⟩
  · rw [hmore', hmore, List.append_assoc]
  · rw [List.map_append]
    exact hgave.trans hgave'

theorem mem_helpers {entry : Helper × String} (h : Grown b b') (hmem : entry ∈ b.1.helpers) :
    entry ∈ b'.1.helpers := by
  obtain ⟨more, hmore, -⟩ := h.helpers
  rw [hmore]
  exact List.mem_append_left _ hmem

end Grown

/-- From `b` on, a step of building adds nothing but helpers, and the promise `Q` holds of its
answer and of the linkage after it. -/
def Makes {α : Type} (b : Linkage × NameSupply) (p : Build α)
    (Q : α → Linkage × NameSupply → Prop) : Prop :=
  Grown b (p.run b).2 ∧ Q (p.run b).1 (p.run b).2

namespace Makes

variable {α β : Type} {p : Build α} {g : α → Build β} {R : α → Linkage × NameSupply → Prop}
  {Q : β → Linkage × NameSupply → Prop}

theorem pure {a : α} (h : R a b) : Makes b (Pure.pure a) R := ⟨.refl b, h⟩

theorem bind (hp : Makes b p R) (hg : ∀ a b', Grown b b' → R a b' → Makes b' (g a) Q) :
    Makes b (p >>= g) Q := by
  obtain ⟨hgrown, hR⟩ := hp
  obtain ⟨hgrown', hQ⟩ := hg _ _ hgrown hR
  exact ⟨hgrown.trans hgrown', hQ⟩

theorem mapM {f : α → Build β} {T : α → β → Linkage × NameSupply → Prop} (items : List α)
    (hf : ∀ item ∈ items, ∀ b, Makes b (f item) (T item))
    (hT : ∀ {item made b b'}, Grown b b' → T item made b → T item made b')
    (b : Linkage × NameSupply) :
    Makes b (items.mapM f) fun made b' => ∀ item ∈ items, ∃ one ∈ made, T item one b' := by
  induction items generalizing b with
  | nil => exact .pure nofun
  | cons item items ih =>
    rw [List.mapM_cons]
    obtain ⟨hitem, hitems⟩ := List.forall_mem_cons.mp hf
    refine (hitem b).bind fun one b₁ _ hone => (ih hitems b₁).bind fun made b₂ hgrown hmade => ?_
    refine .pure (List.forall_mem_cons.mpr ⟨⟨one, List.mem_cons_self .., hT hgrown hone⟩, ?_⟩)
    intro other hother
    obtain ⟨one', hone', hT'⟩ := hmade other hother
    exact ⟨one', List.mem_cons_of_mem _ hone', hT'⟩

end Makes

/-- The name of a helper is the one it has from now on. -/
theorem helperName_makes (h : Helper) (b : Linkage × NameSupply) :
    Makes b (helperName h) fun name b' => (h, name) ∈ b'.1.helpers := by
  unfold helperName Makes
  simp only [StateT.run_bind, StateT.run_get, pure_bind]
  cases hfound : b.1.helpers.lookup h with
  | some name =>
    refine ⟨.refl b, ?_⟩
    obtain ⟨before, after, heq, -⟩ := List.lookup_eq_some_iff.mp hfound
    show (h, name) ∈ b.1.helpers
    rw [heq]
    exact List.mem_append_right _ (List.mem_cons_self ..)
  | none =>
    refine ⟨⟨rfl, rfl, rfl, rfl, [(h, (b.2.fresh h.baseName).1)], rfl, ?_⟩, ?_⟩
    · exact NameSupply.Gave.fresh (.refl b.2) h.baseName
    · exact List.mem_append_right _ (List.mem_singleton.mpr rfl)

theorem mapM_helper_makes {α : Type} (h : Helper) (line : String → α → String) (items : List α)
    (b : Linkage × NameSupply) :
    Makes b (items.mapM fun item => return line (← helperName h) item) fun lines b' =>
      ∀ item ∈ items, ∃ name, (h, name) ∈ b'.1.helpers ∧ line name item ∈ lines := by
  have hlines := Makes.mapM items
    (f := fun item => return line (← helperName h) item)
    (T := fun item one b => ∃ name, (h, name) ∈ b.1.helpers ∧ one = line name item)
    (fun item _ b => (helperName_makes h b).bind fun name _ _ hname => .pure ⟨name, hname, rfl⟩)
    (fun hgrown hone => by
      obtain ⟨name, hname, heq⟩ := hone
      exact ⟨name, hgrown.mem_helpers hname, heq⟩) b
  refine ⟨hlines.1, fun item hitem => ?_⟩
  obtain ⟨one, hone, name, hname, rfl⟩ := hlines.2 item hitem
  exact ⟨name, hname, hone⟩

/-! ## Exports of a module -/

/-- The line that exports a name of a module again. -/
def reexportLine (base : String) (helper : String) (e : NamedExport) : String :=
  helper ++ "(exports, " ++ Text.quoted e.exported ++ ", " ++ base ++ ", " ++
    Text.quoted e.imported ++ ");"

/-- The line that exports the whole module under a name. -/
def wholeLine (base : String) (helper : String) (name : String) : String :=
  member "exports" name ++ " = " ++ helper ++ "(" ++ base ++ ");"

/-- The lines export all that is exported by name out of a module, with helpers that there are. -/
structure Reexports (use : ModuleUse) (base : String) (helpers : List (Helper × String))
    (lines : List String) : Prop where
  names : ∀ e ∈ use.reexports, ∃ helper, (Helper.reexport, helper) ∈ helpers ∧
    reexportLine base helper e ∈ lines
  wholes : ∀ name ∈ use.starNames, ∃ helper, (Helper.interopRequireWildcard, helper) ∈ helpers ∧
    wholeLine base helper name ∈ lines

theorem exportLines_makes (use : ModuleUse) (base : String) (b : Linkage × NameSupply) :
    Makes b (exportLines use base) fun lines b' => Reexports use base b'.1.helpers lines := by
  refine (mapM_helper_makes .reexport (reexportLine base) use.reexports b).bind
    fun again b₁ _ hagain => ?_
  refine (mapM_helper_makes .interopRequireWildcard (wholeLine base) use.starNames b₁).bind
    fun named b₂ hgrown hnamed => ?_
  have hdone : ∀ star b₃, Grown b₂ b₃ → Makes b₃ (Pure.pure (again ++ named ++ star))
      fun lines b' => Reexports use base b'.1.helpers lines := by
    refine fun star b₃ hgrown' => .pure ⟨fun e he => ?_, fun name hname => ?_⟩
    · obtain ⟨helper, hhelper, hline⟩ := hagain e he
      exact ⟨helper, hgrown'.mem_helpers (hgrown.mem_helpers hhelper), by simp [hline]⟩
    · obtain ⟨helper, hhelper, hline⟩ := hnamed name hname
      exact ⟨helper, hgrown'.mem_helpers hhelper, by simp [hline]⟩
  -- the line for a star has a helper too, but gives no names of its own
  dsimp only
  split
  · exact (helperName_makes .exportStar b₂).bind fun helper b₃ hgrown' _ => hdone _ b₃ hgrown'
  · exact hdone [] b₂ (.refl b₂)

/-! ## Records -/

/-- What stands for the names that a module gives. -/
def withReplacements (base : String) (named : List NamedImport) (d : Dict String) : Dict String :=
  named.foldl (fun d n => d.put n.bound (member base n.imported)) d

theorem get?_withReplacements (base : String) (named : List NamedImport) (d : Dict String)
    (name : String) :
    (∀ n ∈ named, n.bound ≠ name) ∧ (withReplacements base named d).get? name = d.get? name ∨
      ∃ n ∈ named, n.bound = name ∧
        (withReplacements base named d).get? name = some (member base n.imported) := by
  induction named generalizing d with
  | nil => exact .inl ⟨by simp, rfl⟩
  | cons first named ih =>
    rcases ih (d.put first.bound (member base first.imported)) with ⟨hnone, hget⟩ | ⟨n, hn, hget⟩
    · by_cases hfirst : first.bound = name
      · refine .inr ⟨first, List.mem_cons_self .., hfirst, hget.trans ?_⟩
        simp [Dict.get?_put, hfirst]
      · refine .inl ⟨List.forall_mem_cons.mpr ⟨hfirst, hnone⟩, hget.trans ?_⟩
        simp [Dict.get?_put, Ne.symm hfirst]
    · exact .inr ⟨n, List.mem_cons_of_mem _ hn, hget⟩

/-- The code of a record requires its module, and exports what is exported out of it. -/
def Loads (path : String) (use : ModuleUse) (helpers : List (Helper × String))
    (record : ImportRecord) : Prop :=
  ∃ lines, record.code = "\n".intercalate lines ∧
    (∃ line ∈ lines, ("require(" ++ Text.quoted path ++ ");").toList <:+ line.toList) ∧
    Reexports use record.base helpers lines

/-- The record of a module has been added, with a free name. -/
structure Added (path : String) (use : ModuleUse) (record : ImportRecord)
    (b b' : Linkage × NameSupply) : Prop where
  survey : b'.1.survey = b.1.survey
  boundPaths : b'.1.boundPaths = b.1.boundPaths
  records : b'.1.records = b.1.records ++ [(path, record)]
  replacements : b'.1.replacements = withReplacements record.base use.named b.1.replacements
  helpers : ∃ more, b'.1.helpers = b.1.helpers ++ more ∧
    b.2.Gave (record.base :: more.map (·.2)) b'.2
  code : Loads path use b'.1.helpers record

theorem run_replacements (base : String) (named : List NamedImport) (b : Linkage × NameSupply) :
    (forIn named PUnit.unit fun n _ => do
      modify fun b : Linkage × NameSupply =>
        ({ b.1 with replacements := b.1.replacements.put n.bound (member base n.imported) }, b.2)
      pure (ForInStep.yield PUnit.unit) : Build PUnit).run b =
      (⟨⟩, { b.1 with replacements := withReplacements base named b.1.replacements }, b.2) := by
  induction named generalizing b with
  | nil => rfl
  | cons n named ih =>
    rw [List.forIn_cons]
    exact ih _

/-- From `b` on, the promise `Q` holds of what a step answers and of the linkage after it. -/
def Leads {α : Type} (b : Linkage × NameSupply) (p : Build α)
    (Q : α → Linkage × NameSupply → Prop) : Prop := Q (p.run b).1 (p.run b).2

theorem Leads.bind {α β : Type} {p : Build α} {g : α → Build β}
    {R : α → Linkage × NameSupply → Prop} {Q : β → Linkage × NameSupply → Prop}
    (hp : Leads b p R) (hg : ∀ a b', R a b' → Leads b' (g a) Q) : Leads b (p >>= g) Q :=
  hg _ _ hp

theorem Makes.leads {α : Type} {p : Build α} {Q : α → Linkage × NameSupply → Prop}
    (h : Makes b p Q) : Leads b p fun a b' => Grown b b' ∧ Q a b' := h

theorem freshName_leads (base : String) (b : Linkage × NameSupply) :
    Leads b (freshName base) fun name b' => b'.1 = b.1 ∧ b.2.Gave [name] b'.2 :=
  ⟨rfl, NameSupply.Gave.fresh (.refl b.2) base⟩

theorem addRecord_leads (path : String) (use : ModuleUse) (b : Linkage × NameSupply) :
    Leads b (addRecord path use) fun _ b' => ∃ record, Added path use record b b' := by
  refine (freshName_leads (Name.ofPath path) b).bind fun base b₁ hfresh => ?_
  refine Leads.bind (R := fun _ b' => b' = b₁) rfl ?_
  rintro read _ rfl
  refine (mapM_helper_makes .interopRequireWildcard (fun helper name =>
    "var " ++ name ++ " = " ++ helper ++ "(" ++ base ++ ");") use.wildcards _).leads.bind ?_
  rintro wildcards b₂ ⟨hgrown, -⟩
  refine Leads.bind (R := fun _ b' =>
      b' = ({ b₂.1 with replacements := withReplacements base use.named b₂.1.replacements }, b₂.2))
    (congrArg Prod.snd (run_replacements base use.named b₂)) ?_
  rintro ⟨⟩ b₃ hreplaced
  refine (exportLines_makes use base b₃).leads.bind ?_
  rintro exports b₄ ⟨hgrown', hexports⟩
  obtain ⟨more, hmore, hgave⟩ := hgrown.helpers
  obtain ⟨more', hmore', hgave'⟩ := hgrown'.helpers
  obtain ⟨hlinkage, hgiven⟩ := hfresh
  rw [hreplaced] at hmore' hgave' hgrown'
  refine ⟨_, ⟨?_, ?_, congrArg (· ++ _) ?_, ?_, ⟨more ++ more', ?_, ?_⟩, ?_⟩⟩
  · exact hgrown'.survey.trans (hgrown.survey.trans (by rw [hlinkage]))
  · exact hgrown'.boundPaths.trans (hgrown.boundPaths.trans (by rw [hlinkage]))
  · exact hgrown'.records.trans (hgrown.records.trans (by rw [hlinkage]))
  · refine hgrown'.replacements.trans ?_
    rw [hgrown.replacements, hlinkage]
  · show b₄.1.helpers = _
    rw [hmore', hmore, hlinkage, List.append_assoc]
  · rw [List.map_append]
    exact hgiven.trans (hgave.trans hgave')
  · dsimp only
    refine ⟨_, rfl, ⟨_, List.mem_cons_self, ?_⟩, fun e he => ?_, fun name hname => ?_⟩
    · split
      · exact ⟨("var " ++ base ++ " = ").toList, String.toList_append.symm⟩
      · exact List.suffix_refl _
    · obtain ⟨helper, hhelper, hline⟩ := hexports.names e he
      exact ⟨helper, hhelper, by simp [hline]⟩
    · obtain ⟨helper, hhelper, hline⟩ := hexports.wholes name hname
      exact ⟨helper, hhelper, by simp [hline]⟩

/-- The records of modules have been added, one after the other. -/
inductive Built : Dict ModuleUse → Linkage × NameSupply → Linkage × NameSupply → Prop where
  | nil (b : Linkage × NameSupply) : Built [] b b
  | cons {path : String} {use : ModuleUse} {record : ImportRecord} {uses : Dict ModuleUse}
      {b b₁ b₂ : Linkage × NameSupply} (first : Added path use record b b₁)
      (rest : Built uses b₁ b₂) : Built ((path, use) :: uses) b b₂

theorem forM_built (uses : Dict ModuleUse) (b : Linkage × NameSupply) :
    Built uses b ((uses.forM fun entry => addRecord entry.1 entry.2 : Build PUnit).run b).2 := by
  induction uses generalizing b with
  | nil => exact .nil b
  | cons entry uses ih =>
    obtain ⟨record, hadded⟩ := addRecord_leads entry.1 entry.2 b
    exact .cons hadded (ih _)

theorem generate_built (survey : Survey) (boundPaths : List String) (names : NameSupply) :
    Built survey.uses ({ survey, boundPaths }, names) (generate survey boundPaths names) :=
  forM_built survey.uses _

namespace Built

variable {uses : Dict ModuleUse}

/-- The names of the records and of the helpers are all new. -/
theorem gave (h : Built uses b b') : ∃ records helpers, b'.1.records = b.1.records ++ records ∧
    b'.1.helpers = b.1.helpers ++ helpers ∧
    b.2.Gave (records.map (·.2.base) ++ helpers.map (·.2)) b'.2 := by
  induction h with
  | nil b => exact ⟨[], [], by simp, by simp, .refl _⟩
  | @cons path use record uses b b₁ b₂ first _ ih =>
    obtain ⟨records, helpers, hrecords, hhelpers, hgave⟩ := ih
    obtain ⟨more, hmore, hgiven⟩ := first.helpers
    refine ⟨(path, record) :: records, more ++ helpers, ?_, ?_, (hgiven.trans hgave).perm ?_⟩
    · rw [hrecords, first.records, List.append_assoc, List.singleton_append]
    · rw [hhelpers, hmore, List.append_assoc]
    · simp only [List.map_cons, List.map_append, List.cons_append, List.perm_cons]
      rw [← List.append_assoc, ← List.append_assoc]
      exact List.perm_append_comm.append_right _

theorem mem_records {entry : String × ImportRecord} (h : Built uses b b')
    (hentry : entry ∈ b.1.records) : entry ∈ b'.1.records := by
  obtain ⟨records, _, hrecords, -⟩ := h.gave
  rw [hrecords]
  exact List.mem_append_left _ hentry

/-- Each module has a record whose code loads it. -/
theorem loads (h : Built uses b b') {path : String} {use : ModuleUse} (huse : (path, use) ∈ uses) :
    ∃ record, (path, record) ∈ b'.1.records ∧ Loads path use b'.1.helpers record := by
  induction h with
  | nil => cases huse
  | @cons _ _ record uses b b₁ b₂ first rest ih =>
    rcases List.mem_cons.mp huse with heq | huse
    · cases heq
      obtain ⟨lines, hcode, hrequire, hnames, hwholes⟩ := first.code
      obtain ⟨-, helpers, -, hhelpers, -⟩ := rest.gave
      rw [hhelpers]
      refine ⟨record, rest.mem_records ?_, lines, hcode, hrequire, fun e he => ?_,
        fun name hname => ?_⟩
      · rw [first.records]
        exact List.mem_append_right _ (List.mem_singleton_self _)
      · obtain ⟨helper, hhelper, hline⟩ := hnames e he
        exact ⟨helper, List.mem_append_left _ hhelper, hline⟩
      · obtain ⟨helper, hhelper, hline⟩ := hwholes name hname
        exact ⟨helper, List.mem_append_left _ hhelper, hline⟩
    · exact ih huse

end Built

/-- The code is the member that a module has for the name. -/
def Gives (uses : Dict ModuleUse) (records : Dict ImportRecord) (name code : String) : Prop :=
  ∃ path use n record, (path, use) ∈ uses ∧ n ∈ use.named ∧ n.bound = name ∧
    (path, record) ∈ records ∧ code = member record.base n.imported

/-- What stands for a name that is imported by name is a member of a module that gives it. -/
theorem Built.gives {uses : Dict ModuleUse} (h : Built uses b b') (name : String) :
    (∀ entry ∈ uses, ∀ n ∈ entry.2.named, n.bound ≠ name) ∧
        b'.1.replacements.get? name = b.1.replacements.get? name ∨
      ∃ code, b'.1.replacements.get? name = some code ∧ Gives uses b'.1.records name code := by
  induction h with
  | nil => exact .inl ⟨by simp, rfl⟩
  | @cons path use record uses b b₁ b₂ first rest ih =>
    rcases ih with ⟨hnone, hget⟩ | ⟨code, hget, path', use', n, record', huse, hrest⟩
    · rw [hget, first.replacements]
      rcases get?_withReplacements record.base use.named b.1.replacements name with
        ⟨hfirst, hget'⟩ | ⟨n, hn, hbound, hget'⟩
      · exact .inl ⟨List.forall_mem_cons.mpr ⟨hfirst, hnone⟩, hget'⟩
      · refine .inr ⟨_, hget', path, use, n, record, List.mem_cons_self .., hn, hbound, ?_, rfl⟩
        apply rest.mem_records
        rw [first.records]
        exact List.mem_append_right _ (List.mem_singleton_self _)
    · exact .inr ⟨code, hget, path', use', n, record', List.mem_cons_of_mem _ huse, hrest⟩

end Downlevel.Linkage
