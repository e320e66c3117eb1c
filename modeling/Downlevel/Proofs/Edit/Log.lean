import Mathlib.Data.List.Induction
import Mathlib.Data.List.Pairwise
import Downlevel.Proofs.Edit.Copy

/-!
# The places that an editor records

The places of a rendering are recorded in order, and no two of them at one offset come from
different places of the text. What could break this is a token that renders to nothing and is
recorded all the same. Only a template piece can be such a token, and what is rendered after it is
the token that ends it, which starts where the empty piece does. An editor is *ready* when all that
it has noted is in order, and *calm* when it has not just copied an empty piece, so that a token may
be left out.

Each token is noted at most once and in its turn, so that what is recorded later comes from a later
place of the text (`renderAll_climbs`), whatever was inserted, replaced or left out before.
-/

namespace Downlevel

open Text (Place between size)

variable {action : Action} {t : Token} {index : Nat} {code : String} {p : Nat × Nat} {source : Nat}

/-! ## Renderings in order -/

namespace Rendering

variable {text : List Char}

/-- The places are recorded in order. Those at the end of the code come from `next`. -/
structure Neat (text : List Char) (next : Option Nat) (r : Rendering) : Prop where
  place : ∀ p ∈ r.places, Place r.code.toList p.1
  source : ∀ p ∈ r.places, Place text p.2 ∧ p.2 < size text
  ordered : r.places.toList.Pairwise fun p q => p.1 < q.1 ∨ p = q
  bounded : ∀ p ∈ r.places, p.1 < size r.code.toList ∨ p.1 = size r.code.toList ∧ next = some p.2

theorem mem_shifted {n : Nat} {places : Array (Nat × Nat)} :
    p ∈ shifted n places ↔ ∃ q ∈ places, p = (n + q.1, q.2) := by
  simp [shifted, eq_comm]

theorem neat_plain (code : String) (next : Option Nat) : (plain code).Neat text next :=
  ⟨by simp [plain], by simp [plain], by simp [plain], by simp [plain]⟩

theorem neat_mapped (code : String) (hsource : Place text source ∧ source < size text) :
    (mapped code source).Neat text (some source) := by
  refine ⟨?_, ?_, by simp [mapped], ?_⟩
  · simpa [mapped] using Place.zero _
  · simpa [mapped] using hsource
  · simp only [mapped, List.mem_toArray, List.mem_singleton, forall_eq]
    exact (Nat.eq_zero_or_pos _).symm.imp_right fun hzero => ⟨hzero.symm, trivial⟩

theorem neat_mapped_of_ne (hsource : Place text source ∧ source < size text)
    (hcode : code.toList ≠ []) :
    (mapped code source).Neat text none := by
  have h := neat_mapped code hsource
  refine ⟨h.place, h.source, h.ordered, ?_⟩
  have hpos := Text.size_pos hcode
  simp only [mapped, List.mem_toArray, List.mem_singleton, forall_eq]
  omega

namespace Neat

variable {a b : Rendering} {next next' : Option Nat}

/-- One rendering follows another. What it records at its start has to come from `next`, and only if
it renders something may `next` be forgotten. -/
theorem append (ha : a.Neat text next) (hb : b.Neat text next')
    (hjoin : ∀ o, next = some o → ∀ q ∈ b.places, q.1 = 0 → q.2 = o)
    (hnext : b.code.toList ≠ [] ∨ next = none) : (a ++ b).Neat text next' := by
  refine ⟨?_, ?_, ?_, ?_⟩
  · intro p hp
    rw [places_append, Array.mem_append, mem_shifted] at hp
    rw [code_append, String.toList_append]
    rcases hp with hp | ⟨q, hq, rfl⟩
    · exact (ha.place p hp).append _
    · exact (hb.place q hq).shift _
  · intro p hp
    rw [places_append, Array.mem_append, mem_shifted] at hp
    rcases hp with hp | ⟨q, hq, rfl⟩
    · exact ha.source p hp
    · exact hb.source q hq
  · rw [places_append, Array.toList_append, List.pairwise_append]
    refine ⟨ha.ordered, ?_, ?_⟩
    · simp only [shifted, Array.toList_map, List.pairwise_map]
      exact hb.ordered.imp fun {p q} h => h.imp (by omega) (by rintro rfl; rfl)
    · intro p hp q hq
      obtain ⟨q, hmem, rfl⟩ := mem_shifted.mp (Array.mem_toList_iff.mp hq)
      rcases ha.bounded p (Array.mem_toList_iff.mp hp) with hlt | ⟨heq, hnext⟩
      · exact .inl (by dsimp only; omega)
      · -- both lie where the two renderings meet, and there only one origin is recorded
        rcases Nat.eq_zero_or_pos q.1 with hzero | hpos
        · exact .inr (Prod.ext (by simp [heq, hzero]) (hjoin _ hnext q hmem hzero).symm)
        · exact .inl (by dsimp only; omega)
  · intro p hp
    rw [places_append, Array.mem_append, mem_shifted] at hp
    rw [code_append, String.toList_append, Text.size_append]
    rcases hp with hp | ⟨q, hq, rfl⟩
    · have hplace := ha.bounded p hp
      rcases hnext with hne | rfl
      · have hpos := Text.size_pos hne
        omega
      · simp only [reduceCtorEq, and_false, or_false] at hplace
        omega
    · refine (hb.bounded q hq).imp (fun hlt => ?_) (And.imp_left fun heq => ?_)
      all_goals
        dsimp only
        omega

theorem append_of_none (ha : a.Neat text none) (hb : b.Neat text next') :
    (a ++ b).Neat text next' :=
  ha.append hb (by simp) (.inr rfl)

/-- One offset of the code comes from one offset of the text. -/
theorem unambiguous (h : a.Neat text next) :
    ∀ p ∈ a.places.toList, ∀ q ∈ a.places.toList, p.1 = q.1 → p.2 = q.2 := by
  have : Std.Symm fun p q : Nat × Nat => p.1 = q.1 → p.2 = q.2 :=
    ⟨fun _ _ hpq heq => (hpq heq.symm).symm⟩
  have hpairwise : a.places.toList.Pairwise fun p q => p.1 = q.1 → p.2 = q.2 :=
    h.ordered.imp fun hpq heq => hpq.elim (fun hlt => absurd heq (Nat.ne_of_lt hlt)) (· ▸ rfl)
  exact fun p hp q hq => hpairwise.forall_of_forall (fun _ _ _ => rfl) hp hq

end Neat

end Rendering

open Rendering (mapped mem_shifted neat_plain plain)

/-! ## Notes -/

/-- The offsets fall into the code, in order, and code follows each of them. -/
structure Edit.Marked (lead : String) (marks : List Nat) : Prop where
  ordered : marks.Pairwise (· < ·)
  inside : ∀ m ∈ marks, ∃ before rest, lead.toList = before ++ rest ∧ rest ≠ [] ∧ size before = m

namespace Edit.Marked

variable {lead : String} {marks : List Nat}

theorem empty : Marked "" [] := ⟨.nil, by simp⟩

section

variable (h : Marked lead marks)
include h

theorem lt_size {m : Nat} (hm : m ∈ marks) : m < size lead.toList := by
  obtain ⟨before, rest, hlead, hrest, rfl⟩ := h.inside m hm
  have hpos := Text.size_pos hrest
  rw [hlead, Text.size_append]
  omega

theorem append (code : String) : Marked (lead ++ code) marks := by
  refine ⟨h.ordered, fun m hm => ?_⟩
  obtain ⟨before, rest, hlead, hrest, hsize⟩ := h.inside m hm
  exact ⟨before, rest ++ code.toList, by simp [hlead], by simp [hrest], hsize⟩

theorem append_mark (hcode : code.toList ≠ []) :
    Marked (lead ++ code) (marks ++ [size lead.toList]) := by
  refine ⟨List.pairwise_append.mpr ⟨h.ordered, List.pairwise_singleton .., ?_⟩, fun m hm => ?_⟩
  · intro m hm n hn
    rw [List.mem_singleton.mp hn]
    exact h.lt_size hm
  · rcases List.mem_append.mp hm with hm | hm
    · exact (h.append code).inside m hm
    · exact ⟨lead.toList, code.toList, by simp, hcode, (List.mem_singleton.mp hm).symm⟩

theorem neat {text : List Char} (hsource : Place text source ∧ source < size text) :
    Rendering.Neat text none
      { code := lead, places := (marks.map fun m => (m, source)).toArray } := by
  refine ⟨?_, ?_, ?_, ?_⟩
  · rintro p hp
    obtain ⟨m, hm, rfl⟩ := List.mem_map.mp (List.mem_toArray.mp hp)
    obtain ⟨before, rest, hlead, -, hsize⟩ := h.inside m hm
    exact ⟨before, rest, hlead, hsize⟩
  · rintro p hp
    obtain ⟨m, -, rfl⟩ := List.mem_map.mp (List.mem_toArray.mp hp)
    exact hsource
  · rw [List.pairwise_map]
    exact h.ordered.imp .inl
  · rintro p hp
    obtain ⟨m, hm, rfl⟩ := List.mem_map.mp (List.mem_toArray.mp hp)
    exact .inl (h.lt_size hm)

end

end Edit.Marked

/-- The token that the note is of, if it is of one. -/
def Edit.token? : Edit → Option Nat
  | .insert _ => none
  | .token index .. => some index

/-- The notes are of tokens in their order, each at most once, and of none from `next` on. -/
structure Edit.Ascending (next : Nat) (edits : List Edit) : Prop where
  ordered : edits.Pairwise fun a b => ∀ i ∈ a.token?, ∀ j ∈ b.token?, i < j
  below : ∀ a ∈ edits, ∀ i ∈ a.token?, i < next

namespace Edit.Ascending

variable {next : Nat} {edits : List Edit}

theorem empty : Ascending next [] := ⟨.nil, by simp⟩

section

variable (h : Ascending next edits)
include h

theorem mono {next' : Nat} (hle : next ≤ next') : Ascending next' edits :=
  ⟨h.ordered, fun a ha i hi => Nat.lt_of_lt_of_le (h.below a ha i hi) hle⟩

theorem concat {e : Edit} {next' : Nat} (hle : next ≤ next')
    (he : ∀ j ∈ e.token?, next ≤ j ∧ j < next') : Ascending next' (edits ++ [e]) := by
  refine ⟨List.pairwise_append.mpr ⟨h.ordered, List.pairwise_singleton .., ?_⟩, ?_⟩
  · intro a ha b hb i hi j hj
    rw [List.mem_singleton.mp hb] at hj
    exact Nat.lt_of_lt_of_le (h.below a ha i hi) (he j hj).1
  · intro a ha i hi
    rcases List.mem_append.mp ha with ha | ha
    · exact (h.mono hle).below a ha i hi
    · rw [List.mem_singleton.mp ha] at hi
      exact (he i hi).2

theorem eq_of_token? {a b : Edit} (ha : a ∈ edits) (hb : b ∈ edits)
    {i : Nat} (hi : a.token? = some i) (hj : b.token? = some i) : a = b := by
  have : Std.Symm fun a b : Edit => a.token? = some i → b.token? = some i → a = b :=
    ⟨fun _ _ hab hb ha => (hab ha hb).symm⟩
  have hpairwise : edits.Pairwise fun a b => a.token? = some i → b.token? = some i → a = b :=
    h.ordered.imp fun hab hi hj => absurd (hab i hi i hj) (Nat.lt_irrefl i)
  exact hpairwise.forall_of_forall (fun _ _ _ _ => rfl) ha hb hi hj

end

end Edit.Ascending

open Edit (Ascending Marked)

namespace Sheet.Whole

variable {s : Sheet} {body : Array Token} {last : Token} (h : s.Whole body last)
include h

section

variable (ht : body[index]? = some t)
include ht

/-- A token before the end of the input starts before the end of the text, even an empty piece,
since another token ends it. -/
theorem start_inside : Place s.text t.span.start ∧ t.span.start < size s.text := by
  have hwide : ∀ {u : Token} {i : Nat}, body[i]? = some u → u.kind ≠ .template →
      u.span.start < size s.text := fun hu hkind =>
    have hfits := h.tiled.fits hu
    Nat.lt_of_lt_of_le (hfits.wide ⟨hfits.notEnd, hkind⟩) hfits.stop.le_size
  have hfits := h.tiled.fits ht
  refine ⟨hfits.start, ?_⟩
  by_cases hkind : t.kind = .template
  · obtain ⟨u, hu, hends⟩ := h.tiled.pieces ht hkind
    have hlt := hwide hu fun heq => by simpa [heq] using hends.kind
    rw [hends.start] at hlt
    exact Nat.lt_of_le_of_lt hfits.le hlt
  · exact hwide ht hkind

theorem action_neat (action : Action) :
    (action.render t (t.text s.text)).Neat s.text (some t.span.start) := by
  have hplace := h.start_inside ht
  cases action with
  | copy => exact Rendering.neat_mapped _ hplace
  | replace code =>
    simp only [Action.render]
    split
    · exact neat_plain _ _
    · exact Rendering.neat_mapped _ hplace
  | remove => exact neat_plain _ _

theorem action_neat_none (hcopy : action = .copy → t.text s.text ≠ []) :
    (action.render t (t.text s.text)).Neat s.text none := by
  have hplace := h.start_inside ht
  cases action with
  | copy => exact Rendering.neat_mapped_of_ne hplace (by simpa using hcopy rfl)
  | replace code =>
    simp only [Action.render]
    split
    · exact neat_plain _ _
    · exact Rendering.neat_mapped_of_ne hplace (by simp_all)
  | remove => exact neat_plain _ _

theorem token_neat {lead : String} {marks : List Nat}
    (hmarked : Marked lead marks) {next : Option Nat}
    (haction : (action.render t (t.text s.text)).Neat s.text next) (trim : Bool) :
    ((Edit.token index action lead marks trim).render s).Neat s.text next := by
  simp only [Edit.render, Sheet.token?, h.token?_of_some ht]
  refine Rendering.Neat.append_of_none ?_ haction
  exact (neat_plain _ none).append_of_none (hmarked.neat (h.start_inside ht))

end

omit h in
theorem token_source (ht : s.tokens[index]? = some t) {lead : String} {marks : List Nat}
    {trim : Bool} (hp : p ∈ ((Edit.token index action lead marks trim).render s).places) :
    p.2 = t.span.start := by
  simp only [Edit.render, Sheet.token?, ht, Rendering.places_append, Array.mem_append,
    mem_shifted, plain, List.mem_toArray, List.mem_map] at hp
  rcases hp with (hp | ⟨_, ⟨m, -, rfl⟩, rfl⟩) | ⟨q, hq, rfl⟩
  · simp at hp
  · rfl
  · cases action with
    | copy =>
      simp only [Action.render, mapped, List.mem_toArray, List.mem_singleton] at hq
      rw [hq]
    | replace code =>
      simp only [Action.render] at hq
      split at hq
      · simp [plain] at hq
      · simp only [mapped, List.mem_toArray, List.mem_singleton] at hq
        rw [hq]
    | remove => simp [Action.render, plain] at hq

omit h in
/-- Whatever a note records comes from the start of its token. -/
theorem edit_source {e : Edit} (hp : p ∈ (e.render s).places) :
    ∃ i ∈ e.token?, ∃ t, s.tokens[i]? = some t ∧ p.2 = t.span.start := by
  cases e with
  | insert code => simp [Edit.render, plain] at hp
  | token index action lead marks trim =>
    cases ht : s.tokens[index]? with
    | none => simp [Edit.render, Sheet.token?, ht, plain] at hp
    | some t => exact ⟨index, rfl, t, ht, token_source ht hp⟩

omit h in
theorem renderAll_source {edits : List Edit} (hp : p ∈ (Edit.renderAll s edits).places) :
    ∃ e ∈ edits, ∃ i ∈ e.token?, ∃ t, s.tokens[i]? = some t ∧ p.2 = t.span.start := by
  induction edits using List.reverseRecOn with
  | nil => simp [Edit.renderAll] at hp
  | append_singleton edits e ih =>
    rw [Edit.renderAll_concat, Rendering.places_append, Array.mem_append,
      mem_shifted] at hp
    rcases hp with hp | ⟨q, hq, rfl⟩
    · obtain ⟨a, ha, hsource⟩ := ih hp
      exact ⟨a, by simp [ha], hsource⟩
    · obtain ⟨i, hi, t, ht, hqt⟩ := edit_source hq
      exact ⟨e, by simp, i, hi, t, ht, hqt⟩

theorem start_le {i j : Nat} {u : Token} (ht : s.tokens[i]? = some t)
    (hu : s.tokens[j]? = some u) (hij : i < j) : t.span.start ≤ u.span.start := by
  rcases h.token?_cases ht with ⟨ht, hi⟩ | ⟨hi, -⟩
  · rcases h.token?_cases hu with ⟨hu, -⟩ | ⟨-, rfl⟩
    · exact Nat.le_trans (h.tiled.fits ht).le (h.tiled.stop_le_start ht hu hij)
    · rw [h.span]
      exact (h.tiled.fits ht).start.le_size
  · rcases h.token?_cases hu with ⟨-, hj⟩ | ⟨hj, -⟩
    · omega
    · omega

/-- Notes of tokens in their order record origins in their order. -/
theorem renderAll_climbs {next : Nat} {edits : List Edit} (hedits : Ascending next edits) :
    (Edit.renderAll s edits).places.toList.Pairwise fun p q => p.2 ≤ q.2 := by
  induction edits using List.reverseRecOn generalizing next with
  | nil => exact List.Pairwise.nil
  | append_singleton edits e ih =>
    obtain ⟨hbefore, -, hlast⟩ := List.pairwise_append.mp hedits.ordered
    have hfirst : Ascending next edits :=
      ⟨hbefore, fun a ha => hedits.below a (List.mem_append_left _ ha)⟩
    rw [Edit.renderAll_concat, Rendering.places_append, Array.toList_append, List.pairwise_append]
    refine ⟨ih hfirst, ?_, ?_⟩
    · -- one note records one origin only
      refine List.pairwise_of_forall_mem_list fun p hp q hq => ?_
      obtain ⟨p, hpmem, rfl⟩ := Rendering.mem_shifted.mp (Array.mem_toList_iff.mp hp)
      obtain ⟨q, hqmem, rfl⟩ := Rendering.mem_shifted.mp (Array.mem_toList_iff.mp hq)
      obtain ⟨i, hi, t, ht, hpt⟩ := edit_source hpmem
      obtain ⟨j, hj, u, hu, hqu⟩ := edit_source hqmem
      obtain rfl := Option.some.inj (hi.symm.trans hj)
      obtain rfl := Option.some.inj (ht.symm.trans hu)
      exact Nat.le_of_eq (hpt.trans hqu.symm)
    · intro p hp q hq
      obtain ⟨q, hmem, rfl⟩ := Rendering.mem_shifted.mp (Array.mem_toList_iff.mp hq)
      obtain ⟨a, ha, i, hi, t, ht, hpt⟩ := renderAll_source (Array.mem_toList_iff.mp hp)
      obtain ⟨j, hj, u, hu, hqu⟩ := edit_source hmem
      have hle := h.start_le ht hu (hlast a ha e (List.mem_singleton_self e) i hi j hj)
      rw [hpt]
      exact Nat.le_trans hle (Nat.le_of_eq hqu.symm)

end Sheet.Whole

/-! ## Editors -/

/-- The token ends a template piece that is no type. -/
def Token.Closes (t : Token) : Prop :=
  (t.kind = .backQuote ∨ t.kind = .dollarBraceL) ∧ t.isType = false

namespace Editor

/-- The notes of the editor are in order, and `next` is the origin of what they record last. -/
structure Kept (s : Sheet) (next : Option Nat) (e : Editor) : Prop where
  neat : (Edit.renderAll s e.log.toList).Neat s.text next
  marked : Marked e.lead e.marks
  ascending : Ascending e.index e.log.toList

/-- The editor is in order, and any token may go. -/
def Calm (s : Sheet) (e : Editor) : Prop := e.Kept s none

/-- The editor is in order. If an empty piece was copied last, the token that ends it comes next. -/
inductive Ready (s : Sheet) (e : Editor) : Prop where
  | calm (h : e.Calm s)
  | pending {u : Token} (hu : s.tokens[e.index]? = some u) (hcloses : u.Closes)
      (h : e.Kept s (some u.span.start))

/-- Copying the current token renders something. -/
def Wide (s : Sheet) (e : Editor) : Prop := (e.current s).kind = .template → e.currentText s ≠ ""

variable {s : Sheet} {body : Array Token} {last : Token} {e : Editor}

theorem current_of (h : s.tokens[e.index]? = some t) : e.current s = t := by
  simp [current, Sheet.token?, h]

theorem Calm.ready (h : e.Calm s) : e.Ready s := .calm h

theorem Ready.calmer (h : e.Ready s) (hcurrent : ¬ (e.current s).Closes) : e.Calm s := by
  cases h with
  | calm h => exact h
  | pending hu hcloses _ =>
    rw [current_of hu] at hcurrent
    exact absurd hcloses hcurrent

theorem calm_empty : ({} : Editor).Calm s :=
  ⟨neat_plain "" none, .empty, .empty⟩

section Edit

variable (h : s.Whole body last)
include h

theorem edit_of_lt (hlt : e.index < body.size) (action : Action) (trim : Bool) :
    e.edit s action trim =
      { index := e.index + 1,
        log := e.log.push (.token e.index action e.lead e.marks (trim || e.trimNext)),
        trimNext := trim && e.trimNext } := by
  rw [Editor.edit, if_neg]
  rw [h.size_tokens]
  omega

theorem edit_of_le (hle : body.size ≤ e.index) (action : Action) (trim : Bool) :
    e.edit s action trim = e := by
  rw [Editor.edit, if_pos]
  rw [h.size_tokens]
  omega

/-- One note more. If something is pending, the note has to be of the token that comes next. -/
theorem Kept.edit {next next' : Option Nat} (he : e.Kept s next)
    (ht : body[e.index]? = some t) (trim : Bool) (hpending : next = none ∨
      next = some t.span.start ∧ (action.render t (t.text s.text)).code.toList ≠ [])
    (haction : (action.render t (t.text s.text)).Neat s.text next') :
    (e.edit s action trim).Kept s next' := by
  have htoken := h.token?_of_some ht
  rw [edit_of_lt h (Array.getElem?_eq_some_iff.mp ht).1]
  refine ⟨?_, .empty, ?_⟩
  · rw [Array.toList_push, Edit.renderAll_concat]
    refine he.neat.append (h.token_neat ht he.marked haction _) ?_ ?_
    · intro o ho q hq _
      rw [Sheet.Whole.token_source htoken hq]
      simp_all
    · refine hpending.symm.imp_left fun hsome => ?_
      have hcode := hsome.2
      simp [Edit.render, Sheet.token?, htoken] at hcode ⊢
      simp [hcode]
  · rw [Array.toList_push]
    refine he.ascending.concat (Nat.le_succ _) fun j hj => ?_
    obtain rfl := Option.some.inj hj
    exact ⟨Nat.le_refl _, Nat.lt_succ_self _⟩

theorem narrow_of_text_eq_nil (ht : body[index]? = some t) (htext : t.text s.text = []) :
    t.span.start = t.span.stop := by
  have hfits := h.tiled.fits ht
  have hsize := Text.size_between hfits.start hfits.stop hfits.le
  rw [Token.text, Span.text_eq_between] at htext
  rw [htext, Text.size_nil] at hsize
  have hle := hfits.le
  omega

theorem Wide.text_ne_nil (hwide : e.Wide s) (ht : body[e.index]? = some t) :
    t.text s.text ≠ [] := by
  have hfits := h.tiled.fits ht
  have htoken := h.token?_of_some ht
  by_cases hkind : t.kind = .template
  · have htext := hwide (by rwa [current_of htoken])
    simpa [currentText, Sheet.textAt, htoken] using htext
  · have hlt := hfits.wide ⟨hfits.notEnd, hkind⟩
    exact fun hnil => Nat.ne_of_lt hlt (narrow_of_text_eq_nil h ht hnil)

theorem Calm.edit (he : e.Calm s) (trim : Bool)
    (hcopy : action = .copy → e.Wide s) : (e.edit s action trim).Calm s := by
  rcases Nat.lt_or_ge e.index body.size with hlt | hge
  · have ht := Array.getElem?_eq_getElem hlt
    refine Kept.edit h he ht trim (.inl rfl) (h.action_neat_none ht fun haction => ?_)
    exact (hcopy haction).text_ne_nil h ht
  · rwa [edit_of_le h hge]

/-- What renders something ends what is pending. -/
theorem Ready.edit (he : e.Ready s) (trim : Bool)
    (haction : action = .copy ∧ e.Wide s ∨ ∃ code, action = .replace code ∧ code.toList ≠ []) :
    (e.edit s action trim).Calm s := by
  have hcopy : action = .copy → e.Wide s := by
    rintro rfl
    simpa using haction
  cases he with
  | calm he => exact he.edit h trim hcopy
  | @pending u hu hcloses he =>
    rcases h.token?_cases hu with ⟨hu, -⟩ | ⟨-, rfl⟩
    · have htext : action = .copy → u.text s.text ≠ [] := fun heq => (hcopy heq).text_ne_nil h hu
      refine Kept.edit h he hu trim (.inr ⟨rfl, ?_⟩) (h.action_neat_none hu htext)
      rcases haction with ⟨rfl, -⟩ | ⟨code, rfl, hcode⟩
      · simpa [Action.render, mapped] using htext rfl
      · simp_all [Action.render, mapped]
    · simp [Token.Closes, h.ended] at hcloses

/-- An empty piece may be copied, since the token that ends it comes next. -/
theorem Ready.copy (he : e.Ready s)
    (htype : (e.current s).kind = .template → (e.current s).isType = false) :
    (e.copy s).Ready s := by
  by_cases hkind : (e.current s).kind = .template
  · have hcalm := he.calmer (by simp [Token.Closes, hkind])
    rcases Nat.lt_or_ge e.index body.size with hlt | hge
    · have ht := Array.getElem?_eq_getElem hlt
      rw [current_of (h.token?_of_some ht)] at hkind htype
      by_cases htext : body[e.index].text s.text = []
      · obtain ⟨u, hu, hends⟩ := h.tiled.pieces ht hkind
        have hnext : s.tokens[(e.copy s).index]? = some u := by
          rw [Editor.copy, edit_of_lt h hlt]
          exact h.token?_of_some hu
        refine .pending hnext ⟨hends.kind, hends.isType.trans (htype hkind)⟩ ?_
        rw [hends.start, ← narrow_of_text_eq_nil h ht htext]
        exact Kept.edit h hcalm ht false (.inl rfl) (h.action_neat ht _)
      · exact .calm (Kept.edit h hcalm ht false (.inl rfl) (h.action_neat_none ht fun _ => htext))
    · rw [Editor.copy, edit_of_le h hge]
      exact he
  · exact (he.edit h false (.inl ⟨rfl, fun htemplate => absurd htemplate hkind⟩)).ready

end Edit

/-! Code between the tokens, and code and requests that wait for the next token. -/

variable {next : Option Nat}

theorem Kept.append (he : e.Kept s next) (hcode : code.toList ≠ []) :
    (e.append code).Calm s := by
  have hne : ¬ code.isEmpty = true := by simp_all
  rw [Editor.append, if_neg hne]
  refine ⟨?_, he.marked, ?_⟩
  · rw [Array.toList_push, Edit.renderAll_concat]
    exact he.neat.append (neat_plain _ _) (by simp [Edit.render, plain])
      (.inl hcode)
  · rw [Array.toList_push]
    exact he.ascending.concat (Nat.le_refl _) (by simp [Edit.token?])

theorem Ready.append (he : e.Ready s) (hcode : code.toList ≠ []) :
    (e.append code).Calm s := by
  cases he with
  | calm he => exact he.append hcode
  | pending _ _ he => exact he.append hcode

theorem Calm.append (he : e.Calm s) (code : String) : (e.append code).Calm s := by
  by_cases hcode : code.toList = []
  · rw [Editor.append, if_pos (by simp_all)]
    exact he
  · exact Kept.append he hcode

theorem Kept.prepend (he : e.Kept s next) (code : String) : (e.prepend code).Kept s next :=
  ⟨he.neat, he.marked.append code, he.ascending⟩

theorem Kept.prependMapped (he : e.Kept s next) (code : String) :
    (e.prependMapped code).Kept s next := by
  unfold Editor.prependMapped
  split
  · exact he
  · rename_i hcode
    refine ⟨he.neat, ?_, he.ascending⟩
    have hne : code.toList ≠ [] := by simp_all
    simpa using he.marked.append_mark hne

theorem Kept.trimNextGap (he : e.Kept s next) : e.trimNextGap.Kept s next :=
  ⟨he.neat, he.marked, he.ascending⟩

theorem Ready.of_kept {e' : Editor} (he : e.Ready s) (hindex : e'.index = e.index)
    (hkept : ∀ next, e.Kept s next → e'.Kept s next) : e'.Ready s := by
  cases he with
  | calm he => exact .calm (hkept _ he)
  | pending hu hcloses he => exact .pending (hindex ▸ hu) hcloses (hkept _ he)

end Editor

end Downlevel
