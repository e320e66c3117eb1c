import Downlevel.Lowering.Walk
import Downlevel.Proofs.Lowering.Construct
import Downlevel.Proofs.Lowering.ElementEnd
import Downlevel.Proofs.Lowering.EnumerationEnd
import Downlevel.Proofs.Lowering.ErasureEnd

/-!
# Snippets are lowered up to their end

At the top level the walk passes tokens one by one; runs of types, elements and enumerations as a
whole; and imports and exports as statements. The fuel for what is nested is twice the number of
tokens that are left: an element is one round of the walk and one of its own (`nested_through`). So
the walk gets through the whole snippet (`snippet_passes`). It passes over no place at which
statements of the top level meet (`Scene.Firm`), so that it comes to each of them (`nested_lands`).
-/

namespace Downlevel.Lowering

open Token (At Sided)
open Phrase (Spans)

/-- No import or export starts from one index up to another. -/
def Scene.Quiet (c : Scene) (i j : Nat) : Prop :=
  ∀ x, i ≤ x → x < j → c.moduleStatementAt? x = none

/-- An enumeration is taken to start at the index. -/
def Scene.Enumerates (c : Scene) (i : Nat) : Prop :=
  (c.options.has .typescript && isEnumerationAt c.sheet i) = true

/-- The walk may stand at the index. Elements that are not lowered may be left inside. -/
def Scene.Open (c : Scene) (n i : Nat) : Prop :=
  i ≤ n ∧ (c.pragmas.isSome = true → ∃ cs, Trail c.sheet.tokens 0 cs i)

/-- The scene holds a snippet, the statements of which are in order. -/
structure Scene.Ordered (c : Scene) (n : Nat) : Prop where
  faithful : c.pragmas.isSome = true → Faithful c.sheet.tokens
  undecorated : ∀ i, c.Enumerates i → Undecorated c.sheet.tokens
  /-- what is taken for an enumeration is one -/
  listed : ∀ i, c.Enumerates i → Sided c.sheet.tokens false i →
    ∃ j, Enumeration c.sheet.tokens i j ∧ c.Quiet (i + 1) j
  site : Site c.sheet.tokens 0 n
  lt : ∀ st ∈ c.moduleStatements, st.start < st.stop
  le : ∀ st ∈ c.moduleStatements, st.stop ≤ n
  start : ∀ st ∈ c.moduleStatements, Spans c.sheet.tokens .code 0 st.start
  stop : ∀ st ∈ c.moduleStatements, Spans c.sheet.tokens .code 0 st.stop
  defaulted : ∀ st ∈ c.moduleStatements, st.kind = .exportDefault →
    (At c.sheet.tokens st.start .kwExport ∧ At c.sheet.tokens (st.start + 1) .kwDefault) ∨
      At c.sheet.tokens st.start .atSign

/-- No construct that begins before the index goes on after it, but types may. -/
structure Scene.Meets (c : Scene) (x : Nat) : Prop where
  code : c.pragmas.isSome = true → Spans c.sheet.tokens .code 0 x
  arrows : ∀ i < x, Sided c.sheet.tokens false i → ∀ arrow,
    arrowAfterType? c.sheet i = some arrow → arrow < x
  enumerations : ∀ i < x, c.Enumerates i → Sided c.sheet.tokens false i →
    ∃ j ≤ x, Enumeration c.sheet.tokens i j
  statements : ∀ st ∈ c.moduleStatements, st.start < x →
    st.stop ≤ x ∧
      (st.kind = .exportDefault → At c.sheet.tokens st.start .kwExport → st.start + 2 ≤ x) ∧
      ∀ t stop, c.sheet.tokens[st.start]? = some t → t.rhsEnd = some stop → stop ≤ x

/-- No construct that begins before the index goes on after it. -/
structure Scene.Firm (c : Scene) (x : Nat) : Prop extends c.Meets x where
  after : ∀ y, y + 1 = x → Sided c.sheet.tokens true y → ¬ Sided c.sheet.tokens true x

/-- The walk goes on from one index to another, over no firm place; and over one where statements
meet, if none of the module is begun, by a run of types alone. -/
structure Scene.Strides (c : Scene) (n i j : Nat) : Prop where
  lt : i < j
  opened : c.Open n j
  firm : ∀ x, c.Firm x → i < x → j ≤ x
  meets : ∀ x, c.Meets x → c.Quiet i x → i < x → j ≤ x ∨ TypeRun c.sheet.tokens i j

variable {c : Scene} {body : Array Token} {last : Token} {i j n : Nat}

theorem moduleStatementAt?_eq_some {statement : Statement}
    (h : c.moduleStatementAt? i = some statement) :
    statement ∈ c.moduleStatements ∧ statement.start = i := by
  unfold Scene.moduleStatementAt? at h
  exact ⟨List.mem_of_find?_eq_some h, by simpa using List.find?_some h⟩

/-! ## Statements in order -/

/-- Statements that follow one another are in order. -/
theorem ordered_of_outline (hfaithful : c.pragmas.isSome = true → Faithful c.sheet.tokens)
    (hplain : ∀ i, c.Enumerates i → Undecorated c.sheet.tokens) {cs : List Statement}
    (h : Outline c.sheet.tokens cs 0 n)
    (hlisted : ∀ i, c.Enumerates i → Sided c.sheet.tokens false i →
      ∃ j, Enumeration c.sheet.tokens i j ∧ ∀ st ∈ cs, i < st.start → j ≤ st.start)
    (hlast : Sided c.sheet.tokens false n) (heof : At c.sheet.tokens n .eof)
    (hmem : ∀ st ∈ c.moduleStatements, st ∈ cs) : c.Ordered n := by
  obtain ⟨hall, hcode⟩ := h.code (.nil 0)
  obtain ⟨-, hbounds⟩ := h.bounds
  refine ⟨hfaithful, hplain, fun i henum hside => ?_,
    ⟨hall, by omega, fun _ _ _ htype => ?_, _, heof, by decide⟩,
    fun st hst => (hbounds st (hmem st hst)).2.1, fun st hst => (hbounds st (hmem st hst)).2.2,
    fun st hst => (hcode st (hmem st hst)).1, fun st hst => (hcode st (hmem st hst)).2,
    fun st hst => h.defaulted st (hmem st hst)⟩
  · obtain ⟨j, hj, houter⟩ := hlisted i henum hside
    refine ⟨j, hj, fun x hle hlt => ?_⟩
    by_contra hstatement
    obtain ⟨st, hfound⟩ := Option.ne_none_iff_exists'.mp hstatement
    obtain ⟨hst, rfl⟩ := moduleStatementAt?_eq_some hfound
    have := houter st (hmem st hst) (by omega)
    omega
  · exact absurd (hlast.eq htype) (by decide)

/-! ## Firm places -/

theorem Scene.Strides.of_meets (hlt : i < j) (hopen : c.Open n j)
    (h : ∀ x, c.Meets x → i < x → j ≤ x ∨ TypeRun c.sheet.tokens i j) : c.Strides n i j :=
  ⟨hlt, hopen, fun x hx hlt => (h x hx.toMeets hlt).elim id fun hrun =>
    hrun.le_of_edge hx.after hlt,
    fun x hx _ hlt => h x hx hlt⟩

theorem Scene.Strides.of_statement {st : Statement} (hst : c.moduleStatementAt? i = some st)
    (hlt : i < j) (hopen : c.Open n j) (h : ∀ x, c.Firm x → i < x → j ≤ x) : c.Strides n i j := by
  refine ⟨hlt, hopen, h, fun x _ hquiet hlt => ?_⟩
  have hnone := hquiet i (Nat.le_refl i) hlt
  rw [hst] at hnone
  cases hnone

/-- Where no type goes on, and neither a `:` nor an arrow stands, no type that is returned ends. -/
theorem arrow_lt {x arrow : Nat}
    (hafter : ∀ y, y + 1 = x → Sided c.sheet.tokens true y → ¬ Sided c.sheet.tokens true x)
    (hnext : ¬ At c.sheet.tokens x .colon ∧ ¬ At c.sheet.tokens x .arrow)
    (harrow : arrowAfterType? c.sheet i = some arrow) (hlt : i < x) : arrow < x := by
  obtain ⟨-, hcolon, hrun, hat⟩ := arrowAfterType?_eq_some harrow
  have hne : x ≠ i + 1 := fun heq => hnext.1 (heq ▸ hcolon)
  have hne' : x ≠ arrow := fun heq => hnext.2 (heq ▸ hat)
  have hle := hrun.le_of_edge hafter (by omega)
  omega

namespace Scene.Meets

variable {x : Nat} (h : c.Meets x)
include h

theorem element_le {cs : List Kind} (hplain : Undecorated c.sheet.tokens)
    (hpragmas : c.pragmas.isSome = true) (htrail : Trail c.sheet.tokens 0 cs i)
    (helement : Spans c.sheet.tokens .element i j) (hlt : i < x) : j ≤ x := by
  obtain ⟨j', helement', hle⟩ := htrail.element hplain (h.code hpragmas) hlt
    helement.element_head.1.at
  obtain rfl := Option.some.inj
    ((elementEnd?_eq hplain helement).symm.trans (elementEnd?_eq hplain helement'))
  exact hle

theorem enumeration_le (hplain : Undecorated c.sheet.tokens) (henum : c.Enumerates i)
    (hside : Sided c.sheet.tokens false i) (hj : Enumeration c.sheet.tokens i j) (hlt : i < x) :
    j ≤ x := by
  obtain ⟨j', hle, hj'⟩ := h.enumerations i hlt henum hside
  exact hj.eq hplain hj' ▸ hle

end Scene.Meets

theorem Scene.Open.plain (h : c.Open n i) {k : Kind} (hk : At c.sheet.tokens i k)
    (hplain : k.Plain) (hlt : i < n) : c.Open n (i + 1) := by
  refine ⟨hlt, fun hpragmas => ?_⟩
  obtain ⟨cs, htrail⟩ := h.2 hpragmas
  exact ⟨cs, htrail.plain hk hplain⟩

theorem Scene.Ordered.open_stop (hc : c.Ordered n) {st : Statement}
    (hst : st ∈ c.moduleStatements) :
    c.Open n st.stop :=
  ⟨hc.le st hst, fun _ => ⟨[], .code (hc.stop st hst)⟩⟩

/-- In an element no import or export of the top level starts. -/
theorem Scene.Ordered.quiet_element (hc : c.Ordered n) (hpragmas : c.pragmas.isSome = true)
    (helement : Spans c.sheet.tokens .element i j) (hj : j ≤ n) : c.Quiet (i + 1) j := by
  intro x hle hlt
  by_contra hstatement
  obtain ⟨st, hfound⟩ := Option.ne_none_iff_exists'.mp hstatement
  obtain ⟨hst, rfl⟩ := moduleStatementAt?_eq_some hfound
  have hplain := (hc.faithful hpragmas).undecorated
  have hrest := (hc.start st hst).cut hplain (Nat.le_refl 0) (Nat.zero_le _) (by omega) hc.site.code
  exact helement.not_inside hplain (by omega) hlt hj hrest

section

variable (hwhole : c.sheet.Whole body last)
include hwhole

/-! ## Single tokens -/

section Single

variable {k : Knot} {t : Token} {Q : Unit → Nat → Prop}

/-- A token that belongs to no type is passed on its own, or begins a construct. -/
theorem valueToken_lands (hi : i < body.size)
    (helement : c.pragmas.isSome = true → t.kind = .jsxTagStart → Lands c i k.element Q)
    (hmodule : ∀ statement, c.moduleStatementAt? i = some statement →
      t.kind = .kwImport ∨ t.kind = .kwExport → Lands c i (moduleStatement k statement) Q)
    (henumeration : c.Enumerates i → Lands c i (enumeration k) Q)
    (hnext : (c.pragmas.isSome = true → t.kind ≠ .jsxTagStart) → Q () (i + 1)) :
    Lands c i (valueToken k t) Q := by
  have hcopy : (c.pragmas.isSome = true → t.kind ≠ .jsxTagStart) → Lands c i copy Q :=
    fun hkind => (copy_passes hwhole hi).mono fun _ _ hj => hj ▸ hnext hkind
  have hname : t.kind ≠ .jsxTagStart → Lands c i name Q :=
    fun hkind => (name_passes hwhole hi).mono fun _ _ hj => hj ▸ hnext fun _ => hkind
  refine .read (.position ?_)
  split
  · rename_i heq
    split
    · rename_i hpragmas
      exact helement hpragmas heq
    · rename_i hpragmas
      exact hcopy fun h => absurd h hpragmas
  iterate 2
    · rename_i heq
      split
      · rename_i statement hstatement
        exact hmodule statement hstatement (by simp [heq])
      · exact hcopy fun _ => by simp [heq]
  iterate 2
    · rename_i heq
      split
      · rename_i henum
        exact henumeration henum
      · split
        · exact hname (by simp [heq])
        · exact hcopy fun _ => by simp [heq]
  · rename_i heq
    exact hname (by simp [heq])
  · rename_i heq _ _ _ _ _
    exact hcopy fun _ => heq

/-- A token goes to the part of lowering that has a use for it. -/
theorem token_lands {l m : Nat} (ht : c.sheet.tokens[i]? = some t)
    (hsite : Site c.sheet.tokens l m) (hlt : i < m) (hm : m ≤ body.size)
    (hrun : ∀ j, t.isType = true → TypeRun c.sheet.tokens i j → Q () j)
    (hreturn : ∀ arrow, t.isType = false → arrowAfterType? c.sheet i = some arrow →
      Q () (arrow + 1))
    (hvalue : t.isType = false → Lands c i (valueToken k t) Q) : Lands c i (token k) Q := by
  refine .current ht ?_
  split
  · rename_i htype
    rcases afterTypes_run c.sheet i with ⟨-, hno⟩ | htypes
    · exact absurd ⟨t, ht, htype⟩ hno
    · have hle := Nat.le_trans (hsite.run_le htypes hlt) hm
      exact (eraseTypes_passes hwhole htypes hle).mono fun _ j hj => hj ▸ hrun _ htype htypes
  · rename_i htype
    rw [Bool.not_eq_true] at htype
    refine .sheet (.position ?_)
    split
    · rename_i arrow harrow
      exact (eraseReturnType_passes hwhole harrow).mono fun _ j hj =>
        hj ▸ hreturn arrow htype harrow
    · exact hvalue htype

end Single

/-! ## Loops -/

theorem upTo_lands {I : Nat → Prop} {stop : Nat} {p : Lowering Unit}
    (hp : ∀ i, I i → i < stop → i < body.size → Lands c i p fun _ j => i < j ∧ I j)
    (htop : ∀ i, I i → i ≤ body.size) (hi : I i) :
    Lands c i (upTo stop p) fun _ j => I j ∧ (stop ≤ j ∨ j = body.size) := by
  have hsize := hwhole.size_tokens
  refine (whileHolds_lands (b := fun i => decide (i < stop) && !(i == body.size))
    (fun d hd => ?_) (fun i hI hb => ?_) (fun i hI => ?_) hi).mono fun _ j h => ⟨h.1, ?_⟩
  · rw [← atEnd_eq hwhole (htop _ hd)]
    rfl
  · simp only [Bool.and_eq_true, decide_eq_true_eq, Bool.not_eq_true', beq_eq_false_iff_ne] at hb
    have := htop i hI
    exact hp i hI hb.1 (by omega)
  · have := htop i hI
    omega
  · have hb := h.2
    simp only [Bool.and_eq_false_iff, decide_eq_false_iff_not, Bool.not_eq_false', beq_iff_eq] at hb
    omega

theorem site_le {l m : Nat} (h : Site c.sheet.tokens l m) : m ≤ body.size := by
  obtain ⟨k, hk, -⟩ := h.next
  have := hk.lt_size
  have := hwhole.size_tokens
  omega

/-- A stretch of code is walked through up to its end. -/
theorem upTo_passes {k : Knot} {lo hi l m : Nat} (hk : k.Through c lo hi)
    (hsite : Site c.sheet.tokens l m) (hlo : lo ≤ l) (hhi : m ≤ hi) :
    Passes c l (upTo m k.token) m := by
  have hm := site_le hwhole hsite
  refine (upTo_lands hwhole
    (I := fun i => l ≤ i ∧ i ≤ m ∧ (c.pragmas.isSome = true → ∃ cs, Trail c.sheet.tokens l cs i))
    (fun i hI hlt hi => ?_) (fun i hI => by omega)
    ⟨Nat.le_refl _, hsite.code.le, fun _ => ⟨[], .code (.nil l)⟩⟩).mono fun _ j h => by omega
  obtain ⟨hl, -, htrail⟩ := hI
  have ht := hwhole.token?_of_lt hi
  generalize body[i] = t at ht
  by_cases hpragmas : c.pragmas.isSome = true
  · obtain ⟨cs, htrail⟩ := htrail hpragmas
    refine (hk.token (by omega) hhi hsite hl hlt (fun _ => htrail) ht).mono fun _ j hj => ?_
    exact ⟨hj.1, by omega, hj.2.1, fun _ => ⟨_, hj.2.2 hpragmas⟩⟩
  · have hstep := @hk.token _ _ _ [] _ (by omega) hhi hsite hl hlt (fun h => absurd h hpragmas) ht
    exact hstep.mono fun _ j hj => ⟨hj.1, by omega, hj.2.1, fun h => absurd h hpragmas⟩

/-! ## What is nested -/

variable (hc : c.Ordered body.size)
include hc

/-- What is nested in a stretch of tokens is lowered up to its end. -/
theorem nested_through (size : Nat) {lo hi : Nat} (hn : 2 * size ≤ n) (hsize : hi ≤ lo + size)
    (hquiet : c.Quiet lo hi) : (nested n).Through c lo hi := by
  induction size generalizing n lo hi with
  | zero =>
    refine ⟨fun _ _ _ _ _ => by omega, fun _ _ _ h => ?_⟩
    have := h.element_lt
    omega
  | succ size ih =>
    obtain ⟨n, rfl⟩ : ∃ n', n = n' + 2 := ⟨n - 2, by omega⟩
    have helement : ∀ {n' i j : Nat}, n ≤ n' → lo ≤ i → j ≤ hi → c.pragmas.isSome = true →
        Spans c.sheet.tokens .element i j → Sided c.sheet.tokens false i →
        Passes c i (element (nested n')) j := by
      intro n' i j hn' hlo hhi hpragmas h hside
      have hthrough : (nested n').Through c (i + 1) j :=
        ih (by omega) (by omega) fun x hle hlt => hquiet x (by omega) (by omega)
      exact element_passes hwhole ⟨hc.faithful hpragmas, hpragmas⟩ hthrough h hside (Nat.le_refl _)
        (Nat.le_refl _)
    constructor
    · intro l m i cs t hlo hhi hsite hl hlt htrail ht
      have hm := site_le hwhole hsite
      have hnoted : c.pragmas.isSome = true → Faithful c.sheet.tokens ∧
          Trail c.sheet.tokens l cs i :=
        fun hpragmas => ⟨hc.faithful hpragmas, htrail hpragmas⟩
      refine token_lands hwhole ht hsite hlt hm (fun j htype hrun => ?_)
        (fun arrow htype harrow => ?_) fun htype => ?_
      · -- types go as a run
        refine ⟨hrun.lt, hsite.run_le hrun hlt, fun hpragmas => ?_⟩
        obtain ⟨hf, htrail⟩ := hnoted hpragmas
        obtain ⟨j', -, hrun', htrail'⟩ :=
          htrail.run hf.undecorated hf.covered hsite hlt ⟨t, ht, htype⟩
        rw [htype, if_pos rfl, hrun.eq hrun']
        exact htrail'
      · -- the type that a function returns
        obtain ⟨hparen, hcolon, hrun, hat⟩ := arrowAfterType?_eq_some harrow
        have hne : i + 1 ≠ m := fun heq => hsite.not_at (by decide) (heq ▸ hcolon)
        have hle := hsite.run_le hrun (by omega)
        have hne' : arrow ≠ m := fun heq => hsite.not_at (by decide) (heq ▸ hat)
        have hlt' := hrun.lt
        refine ⟨by omega, by omega, fun hpragmas => ?_⟩
        obtain ⟨hf, htrail⟩ := hnoted hpragmas
        have hkind : t.kind = .parenR := by
          obtain ⟨u, hu, hkind⟩ := hparen
          rwa [Option.some.inj (ht.symm.trans hu)]
        rw [htype, if_neg Bool.false_ne_true, hkind]
        exact htrail.returned hf.undecorated hf.covered hsite hlt hparen ⟨t, ht, htype⟩ hrun hat
          (by omega)
      · refine valueToken_lands hwhole (by omega) (fun hpragmas hkind => ?_)
          (by simp [hquiet i hlo (by omega)]) (fun henum => ?_) fun hkind => ?_
        · obtain ⟨hf, htrail⟩ := hnoted hpragmas
          obtain ⟨j, h, hle⟩ := htrail.element hf.undecorated hsite.code hlt ⟨t, ht, hkind⟩
          refine Lands.mono (helement (Nat.le_refl n) hlo (by omega) hpragmas h ⟨t, ht, htype⟩)
            fun _ j' hj => ?_
          subst hj
          refine ⟨h.element_lt, hle, fun _ => ?_⟩
          rw [htype, if_neg Bool.false_ne_true, hkind]
          exact htrail.append (.nested h (.nil _))
        · obtain ⟨j, h, -⟩ := hc.listed i henum ⟨t, ht, htype⟩
          have hle := h.le_of_site (hc.undecorated i henum) hsite hl hlt
          have hthrough : (nested (n + 1)).Through c (i + 1) j :=
            ih (by omega) (by omega) fun x hle hlt => hquiet x (by omega) (by omega)
          refine Lands.mono (enumeration_passes hwhole h fun p r hp hr hsite' =>
            upTo_passes hwhole hthrough hsite' hp (Nat.le_of_lt hr)) fun _ j' hj => ?_
          subst hj
          refine ⟨h.lt, hle, fun hpragmas => ?_⟩
          have hturned : turned t.kind cs = cs := by
            rcases h.head with ⟨u, hu, hkind⟩ | ⟨u, hu, hkind⟩
            all_goals
              rw [Option.some.inj (ht.symm.trans hu), hkind]
              rfl
          rw [htype, if_neg Bool.false_ne_true, hturned]
          exact (hnoted hpragmas).2.append h.code
        · refine ⟨Nat.lt_succ_self i, hlt, fun hpragmas => ?_⟩
          obtain ⟨hf, htrail⟩ := hnoted hpragmas
          rw [htype, if_neg Bool.false_ne_true]
          exact htrail.next hf.undecorated hsite.code hlt ⟨t, ht, rfl⟩ ⟨t, ht, htype⟩
            (hkind hpragmas)
    · intro i j hpragmas hlo hhi h hside
      exact helement (Nat.le_succ n) hlo hhi hpragmas h hside

/-! ## Imports and exports -/

omit hwhole hc in
theorem moduleCode_passes (statement : Statement) : Passes c i (moduleCode statement) i := by
  refine .read ?_
  split
  · exact .pure rfl
  · split
    · exact .pure rfl
    · split
      · refine .get fun d => ?_
        exact Passes.bind (modify_passes (by intro d; rfl)) fun _ => .pure rfl
      · exact .pure rfl

omit hc in
/-- A statement that goes as a whole is left where it stops. -/
theorem replaceStatement_passes {statement : Statement} (hlt : i < statement.stop)
    (hstop : statement.stop ≤ body.size) (code : String) :
    Passes c i (replaceStatement statement code) statement.stop := by
  refine (replace_passes hwhole (by omega) code).bind fun _ => ?_
  refine (upTo_lands hwhole (I := (· ≤ statement.stop)) (fun i _ hlt hi => ?_)
    (fun i hi => Nat.le_trans hi hstop) hlt).mono fun _ j h => ?_
  · exact (remove_passes hwhole hi).mono fun _ j hj => by omega
  · have hle : j ≤ statement.stop := h.1
    omega

section Statements

variable {k : Knot} {statement : Statement}
  (hk : ∀ j, i < j → j < body.size → c.Open body.size j →
    Lands c j k.token fun _ j' => c.Strides body.size j j')

omit hc in
include hk in
/-- The walk goes on inside a statement. -/
theorem upTo_token_lands (hlt : i < j) (hopen : c.Open body.size j) (stop : Nat) :
    Lands c j (upTo stop k.token) fun _ j' => i < j' ∧ c.Open body.size j' ∧
      ∀ x, c.Firm x → j ≤ x → stop ≤ x → j' ≤ x := by
  refine (upTo_lands hwhole
    (I := fun p => i < p ∧ c.Open body.size p ∧ ∀ x, c.Firm x → j ≤ x → stop ≤ x → p ≤ x)
    (fun p hp hstop hlt => ?_) (fun p hp => hp.2.1.1) ⟨hlt, hopen, fun _ _ h _ => h⟩).mono
    fun _ j' h => h.1
  refine (hk p hp.1 hlt hp.2.1).mono fun _ j' h => ?_
  refine ⟨h.lt, Nat.lt_trans hp.1 h.lt, h.opened, fun x hx _ hle => ?_⟩
  exact h.firm x hx (Nat.lt_of_lt_of_le hstop hle)

include hk

/-- After an import or export the walk is open again. -/
theorem moduleStatement_lands (hfound : c.moduleStatementAt? i = some statement) {t : Token}
    (ht : c.sheet.tokens[i]? = some t) (hkind : t.kind = .kwImport ∨ t.kind = .kwExport)
    (hi : i < body.size) (hopen : c.Open body.size i) :
    Lands c i (moduleStatement k statement) fun _ j => c.Strides body.size i j := by
  obtain ⟨hmem, hstart⟩ := moduleStatementAt?_eq_some hfound
  have hstop := hc.open_stop hmem
  have hlt := hc.lt statement hmem
  have hfirm : ∀ x, c.Firm x → i < x → statement.stop ≤ x ∧
      (statement.kind = .exportDefault → At c.sheet.tokens i .kwExport → i + 2 ≤ x) ∧
      ∀ stop, t.rhsEnd = some stop → stop ≤ x := by
    intro x hx hlt
    obtain ⟨hle, hdefault, hrhs⟩ := hx.statements statement hmem (hstart ▸ hlt)
    exact ⟨hle, hstart ▸ hdefault, fun stop => hrhs t stop (hstart ▸ ht)⟩
  have hnext : c.Open body.size (i + 1) :=
    hopen.plain ⟨t, ht, rfl⟩ (by rcases hkind with hkind | hkind <;> rw [hkind] <;> decide) hi
  have hreplace : ∀ code, Lands c i (replaceStatement statement code) fun _ j =>
      c.Strides body.size i j := by
    intro code
    refine (replaceStatement_passes hwhole (by omega) hstop.1 code).mono fun _ j hj => ?_
    subst hj
    exact .of_statement hfound (by omega) hstop fun x hx hlt => (hfirm x hx hlt).1
  unfold moduleStatement
  split
  · exact (moduleCode_passes statement).bind hreplace
  · -- `export default` is passed, and then the walk goes on
    rename_i hdefault
    obtain ⟨hexport, hat⟩ : At c.sheet.tokens i .kwExport ∧
        At c.sheet.tokens (i + 1) .kwDefault := by
      rcases hc.defaulted statement hmem hdefault with hat | hat
      · exact hstart ▸ hat
      · obtain ⟨u, hu, hsign⟩ := hstart ▸ hat
        obtain rfl := Option.some.inj (ht.symm.trans hu)
        simp [hsign] at hkind
    have hi' := hwhole.lt_of_at hat (by decide)
    have hopen' : c.Open body.size (i + 2) := hnext.plain hat (by decide) hi'
    have hrest : Lands c (i + 2) (upTo statement.stop k.token) fun _ j =>
        c.Strides body.size i j := by
      refine (upTo_token_lands hwhole hk (by omega) hopen' _).mono fun _ j hj => ?_
      refine .of_statement hfound hj.1 hj.2.1 fun x hx hlt => ?_
      obtain ⟨hle, hpast, -⟩ := hfirm x hx hlt
      exact hj.2.2 x hx (hpast hdefault hexport) hle
    refine .sheet ?_
    split
    · refine (blank_passes hwhole hi).bind fun _ => (remove_passes hwhole hi').bind fun _ => ?_
      refine trimNextGap_passes.bind fun _ => hrest.bind fun _ j hj => ?_
      exact (append_passes _).mono fun _ j' h => h ▸ hj
    · exact (replace_passes hwhole hi _).bind fun _ =>
        (remove_passes hwhole hi').bind fun _ => hrest
  · refine .read ?_
    split
    · exact (moduleCode_passes statement).bind hreplace
    · dsimp only
      split
      · exact (moduleCode_passes statement).bind hreplace
      · exact hreplace _
    · refine .sheet (.current ht ?_)
      refine (blank_passes hwhole hi).bind fun _ => trimNextGap_passes.bind fun _ => ?_
      refine (upTo_token_lands hwhole hk (by omega) hnext _).bind fun _ j hj => ?_
      refine (append_passes _).mono fun _ j' h => ?_
      subst h
      refine .of_statement hfound hj.1 hj.2.1 fun x hx hlt => hj.2.2 x hx hlt ?_
      obtain ⟨hle, -, hrhs⟩ := hfirm x hx hlt
      cases hend : t.rhsEnd with
      | none => exact hle
      | some stop => exact hrhs stop hend
  · refine (copy_passes hwhole hi).mono fun _ j hj => ?_
    subst hj
    exact .of_meets (by omega) hnext fun x _ hlt => .inl hlt

end Statements

/-! ## The walk -/

/-- The walk passes the token that it stands on, or the construct that it starts. -/
theorem nested_lands (hn : 2 * (body.size - i) ≤ n) (hi : i < body.size)
    (hopen : c.Open body.size i) :
    Lands c i (nested n).token fun _ j => c.Strides body.size i j := by
  induction n generalizing i with
  | zero => omega
  | succ n ih =>
    have ht := hwhole.token?_of_lt hi
    generalize body[i] = t at ht
    have hnoted : c.pragmas.isSome = true → Faithful c.sheet.tokens ∧
        ∃ cs, Trail c.sheet.tokens 0 cs i :=
      fun hpragmas => ⟨hc.faithful hpragmas, hopen.2 hpragmas⟩
    refine token_lands hwhole ht hc.site hi (Nat.le_refl _) (fun j htype hrun => ?_)
      (fun arrow htype harrow => ?_) fun htype => ?_
    · refine .of_meets hrun.lt ⟨hc.site.run_le hrun hi, fun hpragmas => ?_⟩ fun _ _ _ => .inr hrun
      obtain ⟨hf, cs, htrail⟩ := hnoted hpragmas
      obtain ⟨j', -, hrun', htrail'⟩ :=
        htrail.run hf.undecorated hf.covered hc.site hi ⟨t, ht, htype⟩
      exact ⟨cs, hrun.eq hrun' ▸ htrail'⟩
    · obtain ⟨hparen, hcolon, hrun, hat⟩ := arrowAfterType?_eq_some harrow
      have hlt := hrun.lt
      have hlt' := hwhole.lt_of_at hat (by decide)
      refine .of_meets (by omega) ⟨hlt', fun hpragmas => ?_⟩ fun x hx hlt =>
        .inl (hx.arrows i hlt ⟨t, ht, htype⟩ arrow harrow)
      obtain ⟨hf, cs, htrail⟩ := hnoted hpragmas
      exact ⟨cs.tail, htrail.returned hf.undecorated hf.covered hc.site hi hparen ⟨t, ht, htype⟩
        hrun hat hlt'⟩
    · refine valueToken_lands hwhole hi (fun hpragmas hkind => ?_) (fun statement hfound hword =>
        ?_)
        (fun henum => ?_) fun hkind => ?_
      · obtain ⟨hf, cs, htrail⟩ := hnoted hpragmas
        obtain ⟨j, h, hle⟩ := htrail.element hf.undecorated hc.site.code hi ⟨t, ht, hkind⟩
        have hlt := h.element_lt
        obtain _ | n := n
        · omega
        have hthrough : (nested n).Through c (i + 1) j :=
          nested_through hwhole hc (j - (i + 1)) (by omega) (by omega)
            (hc.quiet_element hpragmas h hle)
        refine Lands.mono (element_passes hwhole ⟨hf, hpragmas⟩ hthrough h ⟨t, ht, htype⟩
          (Nat.le_refl _) (Nat.le_refl _)) fun _ j' hj => ?_
        subst hj
        exact .of_meets hlt ⟨hle, fun _ => ⟨cs, htrail.append (.nested h (.nil _))⟩⟩ fun x hx hlt =>
          .inl (hx.element_le hf.undecorated hpragmas htrail h hlt)
      · exact moduleStatement_lands hwhole hc (fun j hlt hj hopen => ih (by omega) hj hopen) hfound
          ht hword hi hopen
      · obtain ⟨j, h, hquiet⟩ := hc.listed i henum ⟨t, ht, htype⟩
        have hlt := h.lt
        have hle := h.le_of_site (hc.undecorated i henum) hc.site (Nat.zero_le i) hi
        have hthrough : (nested n).Through c (i + 1) j :=
          nested_through hwhole hc (j - (i + 1)) (by omega) (by omega) hquiet
        refine Lands.mono (enumeration_passes hwhole h fun p r hp hr hsite =>
          upTo_passes hwhole hthrough hsite hp (Nat.le_of_lt hr)) fun _ j' hj => ?_
        subst hj
        refine .of_meets hlt ⟨hle, fun hpragmas => ?_⟩ fun x hx hlt =>
          .inl (hx.enumeration_le (hc.undecorated i henum) henum ⟨t, ht, htype⟩ h hlt)
        obtain ⟨-, cs, htrail⟩ := hnoted hpragmas
        exact ⟨cs, htrail.append h.code⟩
      · refine .of_meets (Nat.lt_succ_self i) ⟨hi, fun hpragmas => ?_⟩ fun _ _ hlt => .inl hlt
        obtain ⟨hf, cs, htrail⟩ := hnoted hpragmas
        exact ⟨_, htrail.next hf.undecorated hc.site.code hi ⟨t, ht, rfl⟩ ⟨t, ht, htype⟩
          (hkind hpragmas)⟩

omit hwhole hc in
theorem openWrap_passes : Passes c i openWrap i := by
  refine .get fun d => ?_
  split
  · refine .position ?_
    split
    · refine (prepend_passes _).bind fun _ => (prependMapped_passes _).bind fun _ => ?_
      exact modify_passes (by intro d; rfl)
    · exact .pure rfl
  · exact .pure rfl

omit hwhole hc in
theorem closeWrap_passes : Passes c i closeWrap i := by
  refine .get fun d => ?_
  split
  · refine .position ?_
    split
    · exact (append_passes _).bind fun _ => modify_passes (by intro d; rfl)
    · exact .pure rfl
  · exact .pure rfl

omit hwhole hc in
theorem open_start : c.Open body.size 0 :=
  ⟨Nat.zero_le _, fun _ => ⟨[], .code (.nil 0)⟩⟩

/-- The walk gets through the whole snippet. -/
theorem snippet_passes : Passes c 0 snippet body.size := by
  have hsize := hwhole.size_tokens
  refine .budget ?_
  refine (whileHolds_lands (I := c.Open body.size) (b := fun i => !(i == body.size))
    (fun d hd => ?_) (fun i hopen hb => ?_) (fun i hopen => ?_) open_start).mono fun _ j h => ?_
  · rw [← atEnd_eq hwhole hd.1]
    rfl
  · have hne : i ≠ body.size := by simpa using hb
    have hi : i < body.size := Nat.lt_of_le_of_ne hopen.1 hne
    refine openWrap_passes.bind fun _ => ?_
    refine (nested_lands hwhole hc (by omega) hi hopen).bind fun _ j hj => ?_
    exact closeWrap_passes.mono fun _ j' h => h ▸ ⟨hj.lt, hj.opened⟩
  · have := hopen.1
    omega
  · simpa using h.2

end

end Downlevel.Lowering
