import Downlevel.Proofs.Lowering.Rounds

/-!
# What becomes of imports and exports

An import or export is replaced as a whole, by the code for its module or by assignments, or its
first word goes and assignments follow the rest (`Rewritten`). Which notes that leaves is said for
the lowering of one statement (`moduleStatement_rewritten`) and for the round that begins at one
(`round_rewritten`).
-/

namespace Downlevel.Lowering

open Token (At Sided)

/-- The notes of tokens that become all the same. -/
def noted (action : Action) (trim : Bool) (lo hi : Nat) : List Edit :=
  (List.range' lo (hi - lo)).map fun i => .token i action "" [] trim

/-- The notes of a walk from one index up to another. Nothing waits for the first token, but the gap
before it may be trimmed. -/
def Walked (c : Scene) (k : Knot) (trim : Bool) (i j : Nat) (notes : List Edit) : Prop :=
  ∃ d d' : Draft, d.editor.index = i ∧ d.editor.lead = "" ∧ d.editor.marks = [] ∧
    d.editor.trimNext = trim ∧ upTo j k.token c d = .ok ((), d') ∧
    d'.editor.log.toList = d.editor.log.toList ++ notes

/-- The module that is to be loaded by a plan. -/
def plannedPath? : Option StatementPlan → Option String
  | some (.load path) => some path
  | _ => none

/-- The module that a statement loads, among those of the snippet. -/
def Scene.loads? (c : Scene) (st : Statement) : Option (Linkage × String) :=
  if c.options.removeImports then none
  else c.linkage.bind fun linkage =>
    (plannedPath? (linkage.survey.planAt? st.start)).map fun path => (linkage, path)

/-- The code for the module of a statement, and the modules whose code is written after it. -/
def Scene.required (c : Scene) (loaded : List String) (st : Statement) : String × List String :=
  match c.loads? st with
  | some (linkage, path) => linkage.load loaded path
  | none => ("", loaded)

/-- The statement is replaced by the code for its module. -/
def Scene.Requires (c : Scene) (st : Statement) : Prop :=
  st.kind = .importStatement ∨ st.kind = .exportStatement ∧
    (c.sheet.kindAt (st.start + 1) = .star ∨ c.sheet.kindAt (st.start + 1) = .braceL ∧
      ((Survey.tokensOf c.sheet st).drop 1).any (·.isWord .kwFrom) = true)

/-- The statement is a list of names in braces, without a module. -/
def Scene.Lists (c : Scene) (st : Statement) : Prop :=
  st.kind = .exportStatement ∧ c.sheet.kindAt (st.start + 1) = .braceL ∧
    ((Survey.tokensOf c.sheet st).drop 1).any (·.isWord .kwFrom) = false

/-- The statement exports a declaration. -/
def Scene.Declares (c : Scene) (st : Statement) : Prop :=
  st.kind = .exportStatement ∧ c.sheet.kindAt (st.start + 1) ≠ .star ∧
    c.sheet.kindAt (st.start + 1) ≠ .braceL

/-- The end of an exported declaration. -/
def Scene.declarationEnd (c : Scene) (st : Statement) : Nat :=
  ((c.sheet.token? st.start).bind (·.rhsEnd)).getD st.stop

/-- The names that an exported declaration declares. -/
def Scene.declared (c : Scene) (st : Statement) : List String :=
  Survey.declaredNames c.sheet.text
    ((c.sheet.tokens.toList.take (c.declarationEnd st)).drop (st.start + 1))

/-- The assignments that follow an exported declaration. -/
def Scene.assignments (c : Scene) (st : Statement) : String :=
  String.join ((c.declared st).map fun name => " " ++ member "exports" name ++ " = " ++ name ++ ";")

/-- What becomes of an import or export, when the modules in `loaded` are written before it. -/
inductive Rewritten (c : Scene) (k : Knot) (loaded : List String) (st : Statement) :
    List Edit → Prop where
  | required (lead : String) (marks : List Nat) (trim : Bool) (h : c.Requires st) :
      Rewritten c k loaded st
        (.token st.start (.replace (c.required loaded st).1) lead marks trim ::
          noted .remove true (st.start + 1) st.stop)
  | listed (lead : String) (marks : List Nat) (trim : Bool) (h : c.Lists st) :
      Rewritten c k loaded st (.token st.start (.replace (c.localExports st)) lead marks trim ::
        noted .remove true (st.start + 1) st.stop)
  /-- the word `export` goes, and assignments follow the declaration -/
  | declared {inner : List Edit} (lead : String) (marks : List Nat) (trim : Bool)
      (h : c.Declares st) (hinner : Walked c k true (st.start + 1) (c.declarationEnd st) inner) :
      Rewritten c k loaded st (.token st.start (.replace "") lead marks trim ::
        inner ++ inserted (c.assignments st))
  /-- the words `export default` go, and an assignment follows what has a name -/
  | named {name : String} {inner : List Edit} (lead : String) (marks : List Nat) (trim : Bool)
      (h : st.kind = .exportDefault) (hname : declaredName? c.sheet (st.start + 2) = some name)
      (hinner : Walked c k true (st.start + 2) st.stop inner) :
      Rewritten c k loaded st (.token st.start (.replace "") lead marks trim ::
        .token (st.start + 1) .remove "" [] true ::
        inner ++ [.insert (" exports.default = " ++ name ++ ";")])
  /-- an assignment takes the place of the words `export default` -/
  | default {inner : List Edit} (lead : String) (marks : List Nat) (trim : Bool)
      (h : st.kind = .exportDefault) (hname : declaredName? c.sheet (st.start + 2) = none)
      (hinner : Walked c k false (st.start + 2) st.stop inner) :
      Rewritten c k loaded st (.token st.start (.replace "exports.default =") lead marks trim ::
        .token (st.start + 1) .remove "" [] true :: inner)

variable {c : Scene} {k : Knot} {st : Statement} {d d' : Draft} {body : Array Token} {last : Token}
  {code : String} {action : Action} {trim : Bool} {lo hi : Nat} {stop : Nat}

/-! ## Notes -/

theorem noted_of_le (h : hi ≤ lo) : noted action trim lo hi = [] := by
  rw [noted, Nat.sub_eq_zero_of_le h]
  rfl

theorem noted_of_lt (h : lo < hi) :
    noted action trim lo hi = .token lo action "" [] trim :: noted action trim (lo + 1) hi := by
  rw [noted, noted, show hi - lo = hi - (lo + 1) + 1 by omega, List.range'_succ, List.map_cons]

theorem moduleCode_eq (c : Scene) (st : Statement) (d : Draft) :
    moduleCode st c d = .ok ((c.required d.loaded st).1,
      { d with loaded := (c.required d.loaded st).2 }) := by
  unfold moduleCode Scene.required Scene.loads?
  rw [run_look c rfl]
  split
  · rfl
  · cases hlinkage : c.linkage with
    | none => rfl
    | some linkage =>
      rw [Option.bind_some]
      dsimp only
      cases linkage.survey.planAt? st.start with
      | none => rfl
      | some plan => cases plan <;> rfl

section

variable (hwhole : c.sheet.Whole body last)
include hwhole

theorem removeUpTo_log {n : Nat} (hle : d.editor.index ≤ stop) (hstop : stop ≤ body.size)
    (hlead : d.editor.lead = "") (hmarks : d.editor.marks = []) (htrim : d.editor.trimNext = false)
    (h : whileBounded (return (← position) < stop && !(← atEnd)) remove n c d = .ok ((), d')) :
    d'.editor.log.toList = d.editor.log.toList ++ noted .remove true d.editor.index stop := by
  induction n generalizing d with
  | zero => cases h
  | succ n ih =>
    have hmore : (return (← position) < stop && !(← atEnd) : Lowering Bool) c d =
        .ok (decide (d.editor.index < stop), d) := by
      show Except.ok (decide (d.editor.index < stop) && !d.editor.atEnd c.sheet, d) = _
      rw [atEnd_eq hwhole (Nat.le_trans hle hstop)]
      congr 2
      simp only [Bool.and_eq_left_iff_imp, decide_eq_true_eq, Bool.not_eq_true',
        beq_eq_false_iff_ne]
      omega
    unfold whileBounded at h
    rw [run_look _ hmore] at h
    split at h
    · rename_i hlt
      rw [decide_eq_true_eq] at hlt
      obtain ⟨_, d₁, hremove, h⟩ := run_bind_ok h
      cases hremove
      dsimp only [Editor.remove] at h
      rw [Editor.edit_of_lt hwhole (by omega)] at h
      rw [ih (by exact hlt) rfl rfl (by simpa using htrim) h, noted_of_lt hlt]
      simp [hlead, hmarks]
    · rename_i hge
      cases h
      rw [noted_of_le (by simpa using hge), List.append_nil]

theorem edit_eq (hi : d.editor.index < body.size) (action : Action) (trim : Bool) :
    edit (fun s e => e.edit s action trim) c d = .ok ((), { d with editor :=
      { index := d.editor.index + 1
        log := d.editor.log.push
          (.token d.editor.index action d.editor.lead d.editor.marks (trim || d.editor.trimNext))
        trimNext := trim && d.editor.trimNext } }) := by
  rw [← Editor.edit_of_lt hwhole hi]
  rfl

omit hwhole in
theorem walked [k.Following c] (hlead : d.editor.lead = "") (hmarks : d.editor.marks = [])
    (h : upTo stop k.token c d = .ok ((), d')) :
    ∃ inner, Walked c k d.editor.trimNext d.editor.index stop inner ∧
      d'.editor.log.toList = d.editor.log.toList ++ inner := by
  have hlater := (inferInstance : Follows c (upTo stop k.token)).followsAt _ _ _ h
  obtain ⟨inner, hlog⟩ := hlater.editor.log
  exact ⟨inner, ⟨d, d', rfl, hlead, hmarks, rfl, h, hlog.symm⟩, hlog.symm⟩

omit hwhole in
/-- What is between the words of a statement and the assignments after it. -/
theorem inner_log [k.Following c] (hlead : d.editor.lead = "") (hmarks : d.editor.marks = [])
    (h : (upTo stop k.token >>= fun _ => append code) c d = .ok ((), d')) :
    ∃ inner, Walked c k d.editor.trimNext d.editor.index stop inner ∧
      d'.editor.log.toList = d.editor.log.toList ++ inner ++ inserted code := by
  obtain ⟨_, d₁, hrun, h⟩ := run_bind_ok h
  cases h
  obtain ⟨inner, hinner, hlog⟩ := walked hlead hmarks hrun
  exact ⟨inner, hinner, by rw [append_log, hlog]⟩

/-- A statement that is replaced leaves one note of code, and its other tokens go. -/
theorem replaceStatement_log (hlt : d.editor.index < st.stop) (hstop : st.stop ≤ body.size)
    (h : replaceStatement st code c d = .ok ((), d')) :
    d'.editor.log.toList = d.editor.log.toList ++
        .token d.editor.index (.replace code) d.editor.lead d.editor.marks d.editor.trimNext ::
          noted .remove true (d.editor.index + 1) st.stop := by
  obtain ⟨_, d₁, hreplace, h⟩ := run_bind_ok h
  cases hreplace
  dsimp only [Editor.replace] at h
  rw [Editor.edit_of_lt hwhole (by omega)] at h
  rw [removeUpTo_log hwhole hlt hstop rfl rfl rfl h]
  simp

end

/-! ## Statements -/

/-- What the step `p` adds to the notes is what becomes of a statement. -/
def Rewrites (c : Scene) (k : Knot) (st : Statement) (d : Draft) (p : Lowering Unit) : Prop :=
  ∀ d', p c d = .ok ((), d') → ∃ notes, d'.editor.log.toList = d.editor.log.toList ++ notes ∧
    Rewritten c k d.loaded st notes

theorem Rewrites.look {α : Type} {p : Lowering α} {g : α → Lowering Unit} (a : α)
    (hp : p c d = .ok (a, d)) (hg : Rewrites c k st d (g a)) : Rewrites c k st d (p >>= g) := by
  intro d' h
  rw [run_look a hp] at h
  exact hg d' h

section

variable (hwhole : c.sheet.Whole body last) (hstart : st.start = d.editor.index)
  (hlt : st.start < st.stop) (hstop : st.stop ≤ body.size)
include hwhole hstart hlt hstop

theorem requiredModule_rewrites (hrequires : c.Requires st) :
    Rewrites c k st d (moduleCode st >>= replaceStatement st) := by
  intro d' h
  rw [run_bind (moduleCode_eq c st d)] at h
  have hlog := replaceStatement_log hwhole (hstart ▸ hlt) hstop h
  rw [← hstart] at hlog
  exact ⟨_, hlog, .required _ _ _ hrequires⟩

theorem listedExports_rewrites (hlists : c.Lists st) :
    Rewrites c k st d (replaceStatement st (c.localExports st)) := by
  intro d' h
  have hlog := replaceStatement_log hwhole (hstart ▸ hlt) hstop h
  rw [← hstart] at hlog
  exact ⟨_, hlog, .listed _ _ _ hlists⟩

variable [k.Following c]

theorem exportedDeclaration_rewrites (hdeclares : c.Declares st) :
    Rewrites c k st d (exportedDeclaration k st) := by
  intro d' h
  have hi : d.editor.index < body.size := by omega
  have htoken := hwhole.token?_of_lt hi
  have hcurrent : (d.editor.current c.sheet).rhsEnd.getD st.stop = c.declarationEnd st := by
    rw [Editor.current_of htoken, Scene.declarationEnd, hstart, Sheet.token?, htoken]
    rfl
  unfold exportedDeclaration at h
  rw [run_look c.sheet rfl, run_look (d.editor.current c.sheet) rfl, hcurrent,
    run_bind (p := blank) (edit_eq hwhole hi (.replace "") false)] at h
  obtain ⟨_, d₁, htrim, h⟩ := run_bind_ok h
  cases htrim
  obtain ⟨inner, hinner, hlog⟩ := inner_log rfl rfl h
  refine ⟨_, ?_, .declared d.editor.lead d.editor.marks d.editor.trimNext hdeclares
    (hstart ▸ hinner)⟩
  rw [hlog, hstart]
  simp [Editor.trimNextGap, Scene.assignments, Scene.declared, hstart]

omit hlt hstop in
theorem exportedDefault_rewrites (hkind : st.kind = .exportDefault)
    (hnext : st.start + 1 < body.size) : Rewrites c k st d (exportedDefault k st) := by
  have hi : d.editor.index < body.size := by omega
  refine .look c.sheet rfl ?_
  split
  · rename_i name hname
    intro d' h
    rw [run_bind (p := blank) (edit_eq hwhole hi (.replace "") false),
      run_bind (p := remove) (edit_eq hwhole (by exact hstart ▸ hnext) .remove true)] at h
    obtain ⟨_, d₁, htrim, h⟩ := run_bind_ok h
    cases htrim
    obtain ⟨inner, hinner, hlog⟩ := inner_log rfl rfl h
    refine ⟨_, ?_, .named d.editor.lead d.editor.marks d.editor.trimNext hkind hname
      (hstart ▸ hinner)⟩
    rw [hlog, hstart]
    simp [Editor.trimNextGap, inserted]
  · rename_i hname
    intro d' h
    rw [run_bind (p := replace _) (edit_eq hwhole hi (.replace _) false),
      run_bind (p := remove) (edit_eq hwhole (by exact hstart ▸ hnext) .remove true)] at h
    obtain ⟨inner, hinner, hlog⟩ := walked rfl rfl h
    refine ⟨_, ?_, .default d.editor.lead d.editor.marks d.editor.trimNext hkind hname
      (hstart ▸ hinner)⟩
    rw [hlog, hstart]
    simp

theorem exported_rewrites (hkind : st.kind = .exportStatement) :
    Rewrites c k st d (exported k st) := by
  refine .look c rfl ?_
  split
  · rename_i hstar
    exact requiredModule_rewrites hwhole hstart hlt hstop (.inr ⟨hkind, .inl hstar⟩)
  · rename_i hbrace
    dsimp only
    split
    · rename_i hfrom
      exact requiredModule_rewrites hwhole hstart hlt hstop (.inr ⟨hkind, .inr ⟨hbrace, hfrom⟩⟩)
    · rename_i hfrom
      exact listedExports_rewrites hwhole hstart hlt hstop ⟨hkind, hbrace, by simpa using hfrom⟩
  · rename_i hstar hbrace
    exact exportedDeclaration_rewrites hwhole hstart hlt hstop ⟨hkind, hstar, hbrace⟩

/-- What becomes of an import or export. -/
theorem moduleStatement_rewrites (hmodule : st.kind.OfModule)
    (hnext : st.kind = .exportDefault → st.start + 1 < body.size) :
    Rewrites c k st d (moduleStatement k st) := by
  unfold moduleStatement
  split
  · rename_i hkind
    exact requiredModule_rewrites hwhole hstart hlt hstop (.inl hkind)
  · rename_i hkind
    exact exportedDefault_rewrites hwhole hstart hkind (hnext hkind)
  · rename_i hkind
    exact exported_rewrites hwhole hstart hlt hstop hkind
  · rename_i himport hdefault hexport
    simp only [StatementKind.OfModule, List.mem_cons, List.not_mem_nil, or_false] at hmodule
    exact (hmodule.elim himport (Or.elim · hexport hdefault)).elim

end

/-! ## Rounds -/

/-- A token that belongs to no type is lowered as such, unless a type may follow that goes. -/
theorem token_eq_valueToken {t : Token} (ht : c.sheet.tokens[d.editor.index]? = some t)
    (hvalue : t.isType = false) (hparen : t.kind ≠ .parenR) :
    token k c d = valueToken k t c d := by
  have harrow : arrowAfterType? c.sheet d.editor.index = none := by
    by_contra hsome
    obtain ⟨arrow, harrow⟩ := Option.ne_none_iff_exists'.mp hsome
    obtain ⟨⟨u, hu, hkind⟩, -⟩ := arrowAfterType?_eq_some harrow
    rw [← Option.some.inj (ht.symm.trans hu)] at hkind
    exact hparen hkind
  unfold token
  rw [run_look (d.editor.current c.sheet) rfl, Editor.current_of ht, if_neg (by simp [hvalue]),
    run_look c.sheet rfl, run_look d.editor.index rfl, harrow]

/-- At the word of an import or export, its statement is lowered. -/
theorem token_eq_moduleStatement {t : Token} (ht : c.sheet.tokens[d.editor.index]? = some t)
    (hvalue : t.isType = false) (hword : t.kind = .kwImport ∨ t.kind = .kwExport)
    (hfound : c.moduleStatementAt? d.editor.index = some st) :
    token k c d = moduleStatement k st c d := by
  rw [token_eq_valueToken ht hvalue (by rcases hword with hword | hword <;> simp [hword])]
  unfold valueToken
  rw [run_look c rfl, run_look d.editor.index rfl]
  rcases hword with hword | hword <;> rw [hword, hfound]

/-- The round that begins at the word of an import or export adds what becomes of the statement. -/
theorem round_rewritten (hwhole : c.sheet.Whole body last) (hmodule : st.kind.OfModule)
    (hlt : st.start < st.stop) (hstop : st.stop ≤ body.size)
    (hnext : st.kind = .exportDefault → st.start + 1 < body.size)
    (hfound : c.moduleStatementAt? st.start = some st) (hside : Sided c.sheet.tokens false st.start)
    (hword : At c.sheet.tokens st.start .kwImport ∨ At c.sheet.tokens st.start .kwExport)
    (hd : d.editor.index = st.start) (h : round c.knot c d = .ok ((), d')) :
    ∃ notes code, d'.editor.log.toList = d.editor.log.toList ++ notes ++ inserted code ∧
      Rewritten c (nested (2 * c.sheet.tokens.size + 1)) d.loaded st notes := by
  obtain ⟨d₁, htoken, rfl⟩ := round_ok h
  obtain ⟨t, ht, hvalue⟩ := hside
  have hkind : t.kind = .kwImport ∨ t.kind = .kwExport := by
    refine hword.imp ?_ ?_
    all_goals
      rintro ⟨u, hu, hkind⟩
      rwa [Option.some.inj (ht.symm.trans hu)]
  have hindex : d.opened.editor.index = st.start := (opened_index d).trans hd
  rw [show c.knot.token = token (nested (2 * c.sheet.tokens.size + 1)) from rfl,
    token_eq_moduleStatement (hindex ▸ ht) hvalue hkind (hindex ▸ hfound)] at htoken
  obtain ⟨notes, hlog, hrewritten⟩ :=
    moduleStatement_rewrites hwhole hindex.symm hlt hstop hmodule hnext d₁ htoken
  obtain ⟨code, hclosed⟩ := closed_log d₁
  rw [opened_log] at hlog
  rw [opened_loaded] at hrewritten
  exact ⟨notes, code, by rw [hclosed, hlog], hrewritten⟩

end Downlevel.Lowering
