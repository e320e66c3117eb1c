import Downlevel.Proofs.Lowering.Law
import Downlevel.Proofs.Lowering.Walk
import Downlevel.Proofs.Name.Supply

/-!
# What lowering leaves alone

A step of lowering changes little beside its editor. It names a module that elements need only by a
free name, and it never forgets one (`Later`). All of this holds of every step, whether or not it
ends where one would expect. What is done to a token or a construct also notes only tokens that it
passes, and leaves no code waiting (`Within`), so that only the rounds of the walk do.
-/

namespace Downlevel

variable {e : Editor}

/-- A value under a new key comes last. -/
theorem Dict.put_of_get?_eq_none {α : Type} {d : Dict α} {key : String} (h : d.get? key = none)
    (value : α) : d.put key value = d ++ [(key, value)] := by
  induction d with
  | nil => rfl
  | cons entry d ih =>
    obtain ⟨k, v⟩ := entry
    by_cases hkey : key = k
    · simp [Dict.get?, hkey] at h
    · rw [Dict.get?, List.lookup_cons, beq_eq_false_iff_ne.mpr hkey] at h
      rw [Dict.put, if_neg (by simpa using Ne.symm hkey), ih h, List.cons_append]

namespace Lowering

variable {α β : Type} {c : Scene} {d d' d'' : Draft}

/-- Some element calls for a module. -/
structure Scene.Calls (c : Scene) (source : String) : Prop where
  lowered : c.pragmas.isSome = true
  automatic : c.options.jsxRuntime = .automatic
  shape : ∃ t ∈ c.sheet.tokens, ∃ shape, t.shape = some shape ∧ source =
    if shape = .keyAfterSpread then c.options.jsxImportSource else c.options.runtimeModule

/-- What is entered for a module that elements call for. The snippet has no variable for it. -/
structure Scene.Enters (c : Scene) (entry : String × ImportRecord) : Prop where
  calls : c.Calls entry.1
  source : entry.2.source = entry.1
  unbound : c.options.removeImports = false → c.linkage.bind (·.binding? entry.1) = none

/-- The draft `d'` comes after `d`. -/
structure Later (c : Scene) (d d' : Draft) : Prop where
  editor : d.editor.Reaches d'.editor
  /-- modules for elements are added with free names -/
  runtime : ∃ more, d'.runtime = d.runtime ++ more ∧
    d.names.Gave (more.map (·.2.base)) d'.names ∧ ∀ entry ∈ more, c.Enters entry
  /-- each module for elements is added once -/
  distinct : d.runtime.keys.Nodup → d'.runtime.keys.Nodup

/-- The draft `d'` comes after `d`, and in between only tokens that are passed are noted. -/
structure Within (c : Scene) (d d' : Draft) : Prop extends Later c d d' where
  adds : d.editor.Adds d'.editor

theorem Later.of_editor {w : Wrapping} (h : d.editor.Reaches e) :
    Later c d { d with editor := e, wrapping := w } :=
  ⟨h, ⟨[], by simp, .refl _, nofun⟩, id⟩

theorem Later.refl (d : Draft) : Later c d d := .of_editor (.refl d.editor)

theorem Later.index (h : Later c d d') : d.editor.index ≤ d'.editor.index := h.editor.index

theorem Later.trans (h : Later c d d') (h' : Later c d' d'') : Later c d d'' := by
  obtain ⟨more, hmore, hgave, henters⟩ := h.runtime
  obtain ⟨more', hmore', hgave', henters'⟩ := h'.runtime
  refine ⟨h.editor.trans h'.editor, ⟨more ++ more', ?_, ?_, ?_⟩, h'.distinct ∘ h.distinct⟩
  · rw [hmore', hmore, List.append_assoc]
  · rw [List.map_append]
    exact hgave.trans hgave'
  · exact List.forall_mem_append.mpr ⟨henters, henters'⟩

namespace Within

theorem of_editor (h : d.editor.Adds e) : Within c d { d with editor := e } :=
  ⟨.of_editor h.toReaches, h⟩

theorem refl (d : Draft) : Within c d d := of_editor (.refl d.editor)

theorem trans (h : Within c d d') (h' : Within c d' d'') : Within c d d'' :=
  ⟨h.toLater.trans h'.toLater, h.adds.trans h'.adds⟩

end Within

/-- If the step `p` gets through from `d`, the draft after it comes after `d`. -/
def FollowsAt (c : Scene) (d : Draft) (p : Lowering α) : Prop :=
  ∀ a d', p c d = .ok (a, d') → Within c d d'

/-- If the step `p` gets through, the draft after it comes after the one before. -/
class Follows (c : Scene) (p : Lowering α) : Prop where
  followsAt : ∀ d, FollowsAt c d p

open Follows (followsAt)

/-- Elements are lowered. -/
class Scene.Lowers (c : Scene) : Prop where
  pragmas : c.pragmas.isSome = true

/-- What is nested in a construct only follows. -/
class Knot.Following (c : Scene) (k : Knot) : Prop where
  token : Follows c k.token
  element [c.Lowers] : Follows c k.element

attribute [instance] Knot.Following.token Knot.Following.element

section Closure

variable {p : Lowering α} {g : α → Lowering β}

theorem FollowsAt.look (a : α) (hp : p c d = .ok (a, d)) (hg : FollowsAt c d (g a)) :
    FollowsAt c d (p >>= g) := by
  intro b d' h
  rw [run_look a hp] at h
  exact hg b d' h

/-- Only the draft counts, not how a step stops. -/
def Law.within (c : Scene) : Law c where
  leads := Within c
  stops _ _ := True
  refl := .refl
  trans := .trans
  stops_of_leads _ _ := trivial
  stops_blamed _ := trivial

instance : (Law.within c).Lenient := ⟨fun _ _ => trivial⟩

instance [hp : Obeys c (.within c) p] : Follows c p := ⟨fun _ _ _ h => hp.leads h⟩

theorem Follows.obeys (hp : Follows c p) : Obeys c (.within c) p :=
  ⟨fun h => hp.followsAt _ _ _ h, fun _ => trivial⟩

instance (priority := low) [hp : Follows c p] : Obeys c (.within c) p := hp.obeys

end Closure

theorem edit_within {f : Sheet → Editor → Editor} (hf : ∀ s (e : Editor), e.Adds (f s e)) :
    Obeys c (.within c) (edit f) := .of_edit fun d => Within.of_editor (hf c.sheet d.editor)

instance : Obeys c (.within c) copy := edit_within fun s e => e.adds_edit s _ _

instance : (Law.within c).Edits where
  edit _ _ := edit_within fun s e => e.adds_edit s _ _
  append _ := edit_within fun _ e => e.adds_append _
  trimNextGap := edit_within fun _ e => { Editor.Adds.refl e with }
  copyExpected _ := inferInstance

/-! ## Types, modules and enumerations -/

section Constructs

set_option synthInstance.maxSize 1000

variable {k : Knot}

/-- The code for a module is written: nothing but the list of these changes. -/
theorem moduleCode_ok {statement : Statement} {code : String}
    (h : moduleCode statement c d = .ok (code, d')) : ∃ loaded, d' = { d with loaded } := by
  have hstill : ∀ {code' : String}, (pure code' : Lowering String) c d = .ok (code, d') →
      ∃ loaded, d' = { d with loaded } := by
    rintro _ ⟨⟩
    exact ⟨d.loaded, rfl⟩
  unfold moduleCode at h
  rw [run_look c rfl] at h
  split at h
  · exact hstill h
  · cases hlinkage : c.linkage with
    | none =>
      rw [hlinkage] at h
      exact hstill h
    | some linkage =>
      rw [hlinkage] at h
      dsimp only at h
      cases hplan : linkage.survey.planAt? statement.start with
      | none =>
        rw [hplan] at h
        exact hstill h
      | some plan =>
        rw [hplan] at h
        cases plan with
        | elide => exact hstill h
        | load path =>
          cases h
          exact ⟨_, rfl⟩

instance (statement : Statement) : Follows c (moduleCode statement) := by
  refine ⟨fun d code d' h => ?_⟩
  obtain ⟨loaded, rfl⟩ := moduleCode_ok h
  exact ⟨⟨.refl _, ⟨[], by simp, .refl _, nofun⟩, id⟩, .refl _⟩

section Statements

variable [k.Following c] (statement : Statement)

instance : Obeys c (.within c) (exportedDeclaration k statement) := by
  unfold exportedDeclaration
  infer_instance

instance : Obeys c (.within c) (exportedDefault k statement) := by
  unfold exportedDefault
  refine .bind inferInstance fun s => ?_
  split <;> infer_instance

instance : Obeys c (.within c) (exported k statement) := by
  unfold exported
  refine .bind inferInstance fun scene => ?_
  split
  · infer_instance
  · dsimp only
    split <;> infer_instance
  · infer_instance

instance : Obeys c (.within c) (moduleStatement k statement) := by
  unfold moduleStatement
  split <;> infer_instance

end Statements

end Constructs

/-! ## Tags and elements -/

section Elements

set_option synthInstance.maxSize 1000

instance : Obeys c (.within c) tagName := by
  unfold tagName
  infer_instance

theorem not_mem_keys_of_get?_eq_none {α : Type} {dict : Dict α} {key : String}
    (h : dict.get? key = none) : key ∉ dict.keys := by
  intro hmem
  obtain ⟨entry, hentry, rfl⟩ := List.mem_map.mp hmem
  simpa using List.lookup_eq_none_iff.mp h entry hentry

/-- A module that elements need is named once. -/
theorem runtimeImport_follows {source : String} (hcalls : c.Calls source) (base : String) :
    Follows c (runtimeImport source base) := by
  constructor
  intro d
  refine .look d rfl ?_
  split
  · exact followsAt d
  · rename_i hnone
    refine .look c rfl ?_
    dsimp only
    split
    · exact followsAt d
    · rename_i hshared
      rintro _ _ ⟨⟩
      refine ⟨⟨.refl _, ⟨[(source, _)], Dict.put_of_get?_eq_none hnone _,
        .fresh (.refl d.names) base, ?_⟩, fun hdistinct => ?_⟩, .refl _⟩
      · rw [List.forall_mem_singleton]
        exact ⟨hcalls, rfl, fun hkeep => by simpa [hkeep] using hshared⟩
      · dsimp only
        rw [Dict.put_of_get?_eq_none hnone, Dict.keys, List.map_append, List.map_singleton,
          List.nodup_append_comm]
        exact List.nodup_cons.mpr ⟨not_mem_keys_of_get?_eq_none hnone, hdistinct⟩

theorem current_mem_of_shape {s : Sheet} {shape : ElementShape}
    (h : (e.current s).shape = some shape) : e.current s ∈ s.tokens := by
  unfold Editor.current at h ⊢
  cases hfound : (s.token? e.index).or s.tokens.back? with
  | none =>
    rw [hfound] at h
    cases h
  | some t =>
    rw [Option.getD_some]
    rcases Option.or_eq_some_iff.mp hfound with hfound | ⟨-, hfound⟩
    · exact Array.mem_of_getElem? hfound
    · exact Array.mem_of_back? hfound

variable {k : Knot} [k.Following c] [c.Lowers]

omit [c.Lowers] in
instance : (Law.within c).Braces k := ⟨.bind inferInstance fun _ => inferInstance⟩

instance : Obeys c (.within c) (attributeValue k) := by
  unfold attributeValue
  refine .bind inferInstance fun t => ?_
  split
  · refine .bind inferInstance fun text => ?_
    split <;> infer_instance
  all_goals infer_instance

/-- What is taken out since a bookmark goes, and the notes before it stay. -/
theorem adds_extract? {s : Sheet} {e' found : Editor} {code : String} (h : e.Adds e')
    (hfound : e'.extract? s e.bookmark = some (code, found)) : e.Adds found := by
  unfold Editor.extract? at hfound
  rw [Option.ite_none_right_eq_some] at hfound
  obtain ⟨-, ⟨⟩⟩ := hfound
  have htake : (e'.log.take e.log.size).toList = e.log.toList := h.toReaches.take_log
  refine ⟨⟨htake ▸ List.prefix_refl _, h.index⟩, ⟨[], ?_, nofun⟩, h.lead⟩
  rw [List.append_nil]
  exact htake

instance (previous : Option String) : Obeys c (.within c) (keyAttribute k previous) := by
  unfold keyAttribute
  refine .bind inferInstance fun _ => .bind inferInstance fun _ => .bind inferInstance fun isSet =>
    ?_
  refine .ite (.bind inferInstance fun _ => Follows.obeys ⟨fun d => ?_⟩) inferInstance
  refine .look d.editor rfl ?_
  intro key d'' hrun
  obtain ⟨_, d', hvalue, hrun⟩ := run_bind_ok hrun
  have hlater := (inferInstance : Follows c (attributeValue k)).followsAt d _ _ hvalue
  rw [run_look d'.editor rfl, run_look c.sheet rfl] at hrun
  cases hfound : d'.editor.extract? c.sheet d.editor.bookmark with
  | none =>
    rw [hfound] at hrun
    cases hrun
  | some found =>
    rw [hfound] at hrun
    cases hrun
    have hadds := adds_extract? hlater.adds hfound
    exact ⟨⟨hadds.toReaches, hlater.runtime, hlater.distinct⟩, hadds⟩

theorem automaticElement_follows (hcalls : c.Calls c.options.runtimeModule) (shape : ElementShape) :
    Follows c (automaticElement k shape) := by
  have := runtimeImport_follows hcalls
  unfold automaticElement
  infer_instance

instance : Follows c (element k) := by
  refine ⟨fun d => .look c rfl (.look (d.editor.current c.sheet) rfl ?_)⟩
  split
  · exact followsAt d
  · rename_i shape hshape
    have hmem := current_mem_of_shape hshape
    split
    · exact followsAt d
    · rename_i hautomatic
      have hcalls : c.Calls
          (if shape = .keyAfterSpread then c.options.jsxImportSource
            else c.options.runtimeModule) :=
        ⟨Scene.Lowers.pragmas, by simpa using hautomatic, _, hmem, shape, hshape, rfl⟩
      split
      · rename_i hkey
        rw [if_pos (by simpa using hkey)] at hcalls
        have := runtimeImport_follows hcalls
        exact followsAt d
      · rename_i hkey
        rw [if_neg (by simpa using hkey)] at hcalls
        exact (automaticElement_follows hcalls shape).followsAt d

end Elements

/-! ## The walk -/

theorem valueToken_followsAt {k : Knot} [k.Following c] :
    FollowsAt c d (valueToken k (d.editor.current c.sheet)) := by
  refine .look c rfl (.look d.editor.index rfl ?_)
  split
  · split
    · rename_i hpragmas
      have : c.Lowers := ⟨hpragmas⟩
      exact followsAt d
    · exact followsAt d
  iterate 2
    · split <;> exact followsAt d
  all_goals exact followsAt d

instance {k : Knot} [k.Following c] : Follows c (token k) := by
  constructor
  intro d
  refine .look (d.editor.current c.sheet) rfl ?_
  split
  · exact followsAt d
  · refine .look c.sheet rfl (.look d.editor.index rfl ?_)
    split
    · exact followsAt d
    · exact valueToken_followsAt

instance (n : Nat) : (nested n).Following c := by
  induction n with
  | zero => exact ⟨inferInstanceAs (Follows c (throw _)), inferInstanceAs (Follows c (throw _))⟩
  | succ n ih =>
    exact ⟨inferInstanceAs (Follows c (token (nested n))),
      inferInstanceAs (Follows c (element (nested n)))⟩

end Lowering

end Downlevel
