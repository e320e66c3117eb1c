import Downlevel.Proofs.Edit.Log
import Downlevel.Proofs.Lowering.Law

/-!
# What lowering writes

A step of lowering only adds to the notes of its editor, and if it gets through, its answer and the
editor are as promised (`Writes`). Most steps promise one of two things: they leave the editor ready
(`Carries`) or calm (`Settles`), in the sense of the editor's notes. That what holds of the editor
holds of it again is a law (`Law.keeping`), and every edit but copying obeys the one about calm
editors.
-/

namespace Downlevel

/-- The token of the note, if it is of one, is from one index up to another. -/
def Edit.Between (lo hi : Nat) (e : Edit) : Prop := ∀ i, e.token? = some i → lo ≤ i ∧ i < hi

theorem Edit.Between.mono {lo lo' hi hi' : Nat} {e : Edit} (h : e.Between lo hi) (hlo : lo' ≤ lo)
    (hhi : hi ≤ hi') : e.Between lo' hi' :=
  fun i hi => ⟨Nat.le_trans hlo (h i hi).1, Nat.lt_of_lt_of_le (h i hi).2 hhi⟩

namespace Editor

variable (s : Sheet) (e : Editor)

/-! ## Going on -/

/-- The editor has gone on from one state to the other: it has only added notes. -/
structure Reaches (e e' : Editor) : Prop where
  log : e.log.toList <+: e'.log.toList
  index : e.index ≤ e'.index

theorem Reaches.refl : e.Reaches e := ⟨List.prefix_refl _, Nat.le_refl _⟩

theorem Reaches.trans {e₁ e₂ e₃ : Editor} (h : e₁.Reaches e₂) (h' : e₂.Reaches e₃) :
    e₁.Reaches e₃ :=
  ⟨h.log.trans h'.log, Nat.le_trans h.index h'.index⟩

/-- The notes from before are those that the editor had. -/
theorem Reaches.take_log {e e' : Editor} (h : e.Reaches e') :
    (e'.log.take e.log.size).toList = e.log.toList := by
  have heq := List.prefix_iff_eq_take.mp h.log
  simpa using heq.symm

theorem reaches_edit (action : Action) (trim : Bool) : e.Reaches (e.edit s action trim) := by
  unfold edit
  split
  · exact .refl e
  · exact ⟨by simp, Nat.le_succ _⟩

omit s in
theorem reaches_append (code : String) : e.Reaches (e.append code) := by
  unfold append
  split
  · exact .refl e
  · exact ⟨by simp, Nat.le_refl _⟩

omit s in
theorem reaches_prependMapped (code : String) : e.Reaches (e.prependMapped code) := by
  unfold prependMapped
  split
  · exact .refl e
  · exact ⟨List.prefix_refl _, Nat.le_refl _⟩

/-- The editor has gone on and noted tokens that it passed. No code is waiting but what was. -/
structure Adds (e e' : Editor) : Prop extends e.Reaches e' where
  notes : ∃ more, e'.log.toList = e.log.toList ++ more ∧ ∀ n ∈ more, n.Between e.index e'.index
  lead : e.lead = "" → e'.lead = ""

theorem Adds.refl : e.Adds e := ⟨.refl e, ⟨[], by simp, nofun⟩, id⟩

theorem Adds.trans {e₁ e₂ e₃ : Editor} (h : e₁.Adds e₂) (h' : e₂.Adds e₃) : e₁.Adds e₃ := by
  obtain ⟨more, hlog, hmore⟩ := h.notes
  obtain ⟨more', hlog', hmore'⟩ := h'.notes
  refine ⟨h.toReaches.trans h'.toReaches, ⟨more ++ more', by rw [hlog', hlog, List.append_assoc],
    List.forall_mem_append.mpr ⟨fun n hn => ?_, fun n hn => ?_⟩⟩, h'.lead ∘ h.lead⟩
  · exact (hmore n hn).mono (Nat.le_refl _) h'.index
  · exact (hmore' n hn).mono h.index (Nat.le_refl _)

theorem adds_edit (action : Action) (trim : Bool) : e.Adds (e.edit s action trim) := by
  have hreaches := e.reaches_edit s action trim
  unfold edit at hreaches ⊢
  split at hreaches
  · rename_i hend
    rw [if_pos hend]
    exact .refl e
  · rename_i hend
    rw [if_neg hend]
    refine ⟨hreaches, ⟨_, Array.toList_push, ?_⟩, fun _ => rfl⟩
    rw [List.forall_mem_singleton]
    rintro x ⟨⟩
    exact ⟨Nat.le_refl _, Nat.lt_succ_self _⟩

omit s in
theorem adds_append (code : String) : e.Adds (e.append code) := by
  unfold append
  split
  · exact .refl e
  · refine ⟨⟨by simp, Nat.le_refl _⟩, ⟨_, Array.toList_push, ?_⟩, id⟩
    rw [List.forall_mem_singleton]
    exact nofun

/-! ## Known kinds -/

variable {s e} {k k' : Kind} {ks : List Kind}

theorem token_of_sees (h : e.sees s (k :: ks) = true) :
    ∃ t, s.tokens[e.index]? = some t ∧ t.kind = k := by
  simp only [sees, Sheet.hasKinds, Bool.and_eq_true, Option.any_eq_true, beq_iff_eq] at h
  exact h.1

theorem kind_of_sees (h : e.sees s (k :: ks) = true) : (e.current s).kind = k := by
  obtain ⟨t, ht, hkind⟩ := token_of_sees h
  rw [current_of ht, hkind]

theorem sees_edit {body : Array Token} {last : Token} (hwhole : s.Whole body last)
    (h : e.sees s (k :: k' :: ks) = true) (action : Action) (trim : Bool) :
    (e.edit s action trim).sees s (k' :: ks) = true := by
  simp only [sees, Sheet.hasKinds, Bool.and_eq_true, Option.any_eq_true] at h ⊢
  obtain ⟨-, ⟨t, ht, hkind⟩, hks⟩ := h
  have hlt : e.index < body.size := by
    have hindex := (Array.getElem?_eq_some_iff.mp ht).1
    rw [hwhole.size_tokens] at hindex
    omega
  rw [edit_of_lt hwhole hlt]
  exact ⟨⟨t, ht, hkind⟩, hks⟩

theorem wide_of_kind (hkind : (e.current s).kind = k) (hk : k ≠ .template) :
    e.Wide s :=
  fun htemplate => absurd (hkind.symm.trans htemplate) hk

theorem Ready.calm_of_kind (h : e.Ready s) (hkind : (e.current s).kind = k)
    (hk : k ≠ .backQuote ∧ k ≠ .dollarBraceL) : e.Calm s :=
  h.calmer fun hcloses => by simp_all [Token.Closes]

end Editor

namespace Lowering

variable {α β : Type} {c : Scene} {d : Draft}

/-! ## Promises -/

/-- If `p` gets through, the editor has only gone on, and `Q` holds of the answer and the editor. -/
def Writes (c : Scene) (d : Draft) (p : Lowering α) (Q : α → Editor → Prop) : Prop :=
  ∀ a d', p c d = .ok (a, d') → d.editor.Reaches d'.editor ∧ Q a d'.editor

/-- If `p` gets through, the editor is ready. -/
def Carries (c : Scene) (d : Draft) (p : Lowering α) : Prop :=
  Writes c d p fun _ e => e.Ready c.sheet

/-- If `p` gets through, the editor is calm. -/
def Settles (c : Scene) (d : Draft) (p : Lowering α) : Prop :=
  Writes c d p fun _ e => e.Calm c.sheet

theorem run_look {p : Lowering α} {g : α → Lowering β} (a : α) (hp : p c d = .ok (a, d)) :
    (p >>= g) c d = g a c d := by
  show (p c d >>= fun q => g q.1 c q.2) = _
  rw [hp]
  rfl

namespace Writes

variable {p : Lowering α} {g : α → Lowering β} {Q : β → Editor → Prop} {R : α → Editor → Prop}

/-- What comes after `p` may undo notes, as long as those before `p` stay. -/
theorem bind_within (hp : Writes c d p R) (hg : ∀ a d', d.editor.Reaches d'.editor → R a d'.editor →
    ∀ b d'', g a c d' = .ok (b, d'') → d.editor.Reaches d''.editor ∧ Q b d''.editor) :
    Writes c d (p >>= g) Q := by
  intro b d'' h
  obtain ⟨a, d', hrun, h⟩ := run_bind_ok h
  obtain ⟨hreaches, hR⟩ := hp a d' hrun
  exact hg a d' hreaches hR b d'' h

theorem bind (hp : Writes c d p R) (hg : ∀ a d', R a d'.editor → Writes c d' (g a) Q) :
    Writes c d (p >>= g) Q :=
  hp.bind_within fun a d' hreaches hR b d'' h =>
    (hg a d' hR b d'' h).imp_left hreaches.trans

theorem pure {a : α} (h : R a d.editor) : Writes c d (Pure.pure a : Lowering α) R := by
  rintro _ _ ⟨⟩
  exact ⟨.refl _, h⟩

theorem look (a : α) (hp : p c d = .ok (a, d)) (hg : Writes c d (g a) Q) :
    Writes c d (p >>= g) Q := fun b d' h => hg b d' ((run_look a hp).symm.trans h)

theorem throw (e : Halt) : Writes c d (MonadExcept.throw e : Lowering α) R := by
  rintro _ _ ⟨⟩

theorem broken (invariant : Invariant) : Writes c d (Lowering.broken invariant : Lowering α) R :=
  look d.editor rfl (look c.sheet rfl (throw _))

theorem optional {P : Editor → Prop} {b : Prop} [Decidable b] {p : Lowering Unit}
    {g : Unit → Lowering β} (hp : b → Writes c d p fun _ e => P e) (h : ¬ b → P d.editor)
    (hg : ∀ d, P d.editor → Writes c d (g ()) Q) : Writes c d (if b then p >>= g else g ()) Q := by
  split
  · rename_i hb
    exact (hp hb).bind fun _ => hg
  · rename_i hb
    exact hg d (h hb)

theorem mono {R' : α → Editor → Prop} (hp : Writes c d p R) (h : ∀ a e, R a e → R' a e) :
    Writes c d p R' :=
  fun a d' hrun => (hp a d' hrun).imp_right (h a d'.editor)

theorem reaching (hp : Writes c d p R) : Writes c d p fun a e => d.editor.Reaches e ∧ R a e :=
  fun a d' hrun => ⟨(hp a d' hrun).1, hp a d' hrun⟩

end Writes

theorem Settles.carries {p : Lowering α} (h : Settles c d p) : Carries c d p :=
  h.mono fun _ _ he => he.ready

/-! ## Editing -/

theorem edit_writes {f : Sheet → Editor → Editor} {R : Unit → Editor → Prop}
    (hreaches : d.editor.Reaches (f c.sheet d.editor))
    (h : R () (f c.sheet d.editor)) : Writes c d (edit f) R := by
  rintro _ _ ⟨⟩
  exact ⟨hreaches, h⟩

theorem append_settles_of_ne (h : d.editor.Ready c.sheet) {code : String}
    (hcode : code.toList ≠ []) : Settles c d (append code) :=
  edit_writes (Editor.reaches_append ..) (h.append hcode)

/-! ## Laws -/

/-- What holds of the editor before a step holds of it after that. -/
def Law.keeping (I : Editor → Prop) : Law c where
  leads d d' := I d.editor → d.editor.Reaches d'.editor ∧ I d'.editor
  stops _ _ := True
  refl _ h := ⟨.refl _, h⟩
  trans h h' hd := ⟨(h hd).1.trans (h' (h hd).2).1, (h' (h hd).2).2⟩
  stops_of_leads _ _ := trivial
  stops_blamed _ := trivial

abbrev Law.calm (c : Scene) : Law c := .keeping (Editor.Calm c.sheet)

abbrev Law.ready (c : Scene) : Law c := .keeping (Editor.Ready c.sheet)

section Keeping

variable {I : Editor → Prop} {p : Lowering α} {g : α → Lowering β} {Q : β → Editor → Prop}

instance : (Law.keeping (c := c) I).Lenient := ⟨fun _ _ => trivial⟩

instance : (Law.keeping (c := c) I).Local := ⟨fun h hd => h.symm ▸ ⟨.refl _, hd⟩⟩

theorem Obeys.writes [hp : Obeys c (.keeping I) p] (h : I d.editor) :
    Writes c d p fun _ e => I e := fun _ _ hrun => hp.leads hrun h

theorem Obeys.carries [hp : Obeys c (.calm c) p] (h : d.editor.Calm c.sheet) : Carries c d p :=
  Settles.carries (hp.writes h)

theorem Writes.obeys (h : ∀ d : Draft, I d.editor → Writes c d p fun _ e => I e) :
    Obeys c (.keeping I) p := ⟨fun hrun hd => h _ hd _ _ hrun, fun _ => trivial⟩

theorem Writes.keeping [hp : Obeys c (.keeping I) p] (h : I d.editor)
    (hg : ∀ a d', I d'.editor → Writes c d' (g a) Q) : Writes c d (p >>= g) Q :=
  (hp.writes h).bind hg

end Keeping

instance (code : String) : Obeys c (.ready c) (append code) := by
  refine Writes.obeys fun d h => ?_
  by_cases hcode : code.toList = []
  · refine edit_writes (Editor.reaches_append ..) ?_
    rwa [Editor.append, if_pos (by simp_all)]
  · exact (append_settles_of_ne h hcode).carries

instance (code : String) : Obeys c (.ready c) (prepend code) :=
  .of_edit fun _ h =>
    ⟨⟨List.prefix_refl _, Nat.le_refl _⟩, h.of_kept rfl fun _ he => he.prepend code⟩

instance (code : String) : Obeys c (.ready c) (prependMapped code) := by
  refine .of_edit fun d h =>
    ⟨d.editor.reaches_prependMapped code, h.of_kept ?_ fun _ he => he.prependMapped code⟩
  unfold Editor.prependMapped
  split <;> rfl

/-- The last token of the scene, and no other, is the end of the input. -/
class Scene.Intact (c : Scene) : Prop where
  whole : ∃ body last, c.sheet.Whole body last

section Tokens

variable [c.Intact]

section

variable (h : d.editor.Ready c.sheet)
include h

theorem copy_settles (hwide : d.editor.Wide c.sheet) : Settles c d copy := by
  obtain ⟨body, last, hwhole⟩ := Scene.Intact.whole (c := c)
  exact edit_writes (Editor.reaches_edit ..) (h.edit hwhole false (.inl ⟨rfl, hwide⟩))

theorem copy_carries (htype : (d.editor.current c.sheet).kind = .template →
      (d.editor.current c.sheet).isType = false) : Carries c d copy := by
  obtain ⟨body, last, hwhole⟩ := Scene.Intact.whole (c := c)
  exact edit_writes (Editor.reaches_edit ..) (h.copy hwhole htype)

theorem copyExpected_settles {k : Kind} (hk : k ≠ .template) : Settles c d (copyExpected k) := by
  refine .look (d.editor.current c.sheet) rfl ?_
  split
  · rename_i hkind
    exact copy_settles h (Editor.wide_of_kind (beq_iff_eq.mp hkind) hk)
  · exact .broken _

instance : (Law.calm c).Edits where
  edit trim hcopy := by
    obtain ⟨body, last, hwhole⟩ := Scene.Intact.whole (c := c)
    exact .of_edit fun d h =>
      ⟨d.editor.reaches_edit .., h.edit hwhole trim fun heq => absurd heq hcopy⟩
  append code := .of_edit fun d h => ⟨d.editor.reaches_append code, h.append code⟩
  trimNextGap := .of_edit fun _ h => ⟨⟨List.prefix_refl _, Nat.le_refl _⟩, h.trimNextGap⟩
  copyExpected hk := Writes.obeys fun _ h => copyExpected_settles h.ready hk

theorem removeExpected_settles {k : Kind}
    (hk : k ≠ .backQuote ∧ k ≠ .dollarBraceL) : Settles c d (removeExpected k) := by
  refine .look (d.editor.sees c.sheet [k]) rfl ?_
  split
  · rename_i hsees
    exact Obeys.writes (h.calm_of_kind (Editor.kind_of_sees hsees) hk)
  · exact .broken _

end

end Tokens

/-- A loop keeps what its body keeps. Its condition only looks. -/
theorem whileHolds_writes {I : Editor → Prop} {condition : Lowering Bool} {body : Lowering Unit}
    (hlook : ∀ d, ∃ b, condition c d = .ok (b, d))
    (hbody : ∀ d, condition c d = .ok (true, d) → I d.editor → Writes c d body fun _ e => I e)
    (h : I d.editor) : Writes c d (whileHolds condition body) fun _ e => I e := by
  refine .look (c.sheet.tokens.size + 1) rfl ?_
  induction c.sheet.tokens.size + 1 generalizing d with
  | zero => exact .throw _
  | succ n ih =>
    obtain ⟨b, hb⟩ := hlook d
    refine .look b hb ?_
    cases b with
    | false => exact .pure h
    | true => exact (hbody d hb h).bind fun _ _ h => ih h

end Lowering

end Downlevel
