import Downlevel.Proofs.SourceMap.Pruning
import Downlevel.Proofs.Text.LineIndex
import Downlevel.SourceMap.Basic

/-! # Looking up what was recorded

A map made from pairs of offsets answers at the position of a generated offset with the first pair
that was recorded there. Pushing keeps each line sorted and puts a segment behind those of its own
column, so that the first segment at a column (`firstAt?`) never changes once it is there; pruning
keeps that one and drops the others, and on what is left the search by column finds it. -/

namespace Downlevel.SourceMap.Mappings

variable {m : Mappings} {p : Nat × Nat} {origin target : Position} {s : Segment}

/-- Every segment came from somewhere. -/
def Mapped (line : List Segment) : Prop := ∀ s ∈ line, s.origin.isSome

theorem find?_atColumn_of_mapped {line : List Segment} (h : Mapped line) (column : Nat) :
    (atColumn column line).find? (·.origin.isSome) = firstAt? column line := by
  rw [← head?_atColumn]
  cases hlevel : atColumn column line with
  | nil => rfl
  | cons s level =>
    have hmem : s ∈ atColumn column line := by
      rw [hlevel]
      exact List.mem_cons_self
    have hs := h s (List.mem_of_mem_filter hmem)
    simp [hs]

/-! ## Maps from pairs of offsets -/

/-- Every line is sorted and came from somewhere, with fields of 32 bits. -/
structure Recorded (m : Mappings) : Prop where
  sorted : ∀ n, Sorted (m.line n)
  mapped : ∀ n, Mapped (m.line n)
  fits : ∀ n, ∀ s ∈ m.line n, s.Fits

theorem Recorded.empty : Recorded {} :=
  ⟨fun _ => List.Pairwise.nil, fun _ _ h => absurd h List.not_mem_nil,
    fun _ _ h => absurd h List.not_mem_nil⟩

theorem Recorded.push (h : m.Recorded) (line : Nat) (hs : s.origin.isSome) (hfits : s.Fits) :
    (m.push line s).Recorded :=
  ⟨sorted_push h.sorted line s, forall_mem_push h.mapped line hs,
    forall_mem_push h.fits line hfits⟩

/-- After pruning, the search finds the first segment that was pushed at a column. -/
theorem Recorded.segmentAt?_prune (h : m.Recorded) (n column : Nat) :
    m.prune.segmentAt? n column = firstAt? column (m.line n) := by
  rw [segmentAt?, segmentBefore?, line_prune, getLast?_pruneLine_filter_column (h.sorted n),
    keptAt?, find?_atColumn_of_mapped (h.mapped n), head?_atColumn, ite_self]

theorem Recorded.segmentBefore?_prune (h : m.Recorded) {n column : Nat}
    (hs : m.segmentBefore? n column = some s) :
    (m.prune.segmentBefore? n column).bind (·.origin) =
      (firstAt? s.column (m.line n)).bind (·.origin) := by
  rw [segmentBefore?, line_prune, bind_getLast?_pruneLine (h.sorted n) hs,
    find?_atColumn_of_mapped (h.mapped n), head?_atColumn, ite_self]

end Downlevel.SourceMap.Mappings

namespace Downlevel.SourceMap

open Text (LineIndex Place positionOf)
open Mappings (Recorded firstAt?)

section Pairs

variable {source generated : List Char} {pairs : List (Nat × Nat)}

/-- The segment at a position of the generated code, for an origin in the only source. -/
def segmentOf (target origin : Position) : Segment :=
  ⟨target.column, some { source := 0, line := origin.line, column := origin.column }⟩

/-- The positions of a pair of offsets, when both are places of their texts. -/
def landing? (source generated : List Char) (p : Nat × Nat) : Option (Position × Position) := do
  let target ← (LineIndex.ofText generated).position? generated p.1
  let origin ← (LineIndex.ofText source).position? source p.2
  return (target, origin)

/-- Adds the segment of a pair. -/
def record (source generated : List Char) (m : Mappings) (p : Nat × Nat) : Mappings :=
  match landing? source generated p with
  | some (target, origin) => m.push target.line (segmentOf target origin)
  | none => m

theorem segments_eq_foldl (source generated : List Char) (pairs : List (Nat × Nat)) :
    segments source generated pairs = (pairs.map cut).foldl (record source generated) {} := by
  unfold segments
  dsimp only
  congr 1
  funext m p
  unfold record landing?
  cases (LineIndex.ofText generated).position? generated p.1 with
  | none => rfl
  | some target => cases (LineIndex.ofText source).position? source p.2 <;> rfl

/-- Both offsets of every pair are places of their texts. -/
def Paired (source generated : List Char) (pairs : List (Nat × Nat)) : Prop :=
  ∀ p ∈ pairs, Place generated p.1 ∧ Place source p.2

/-- Of places in texts of less than 4 GiB, nothing is cut. -/
theorem map_cut_of_paired (hgenerated : Text.size generated < 0x100000000)
    (hsource : Text.size source < 0x100000000) (hpairs : Paired source generated pairs) :
    pairs.map cut = pairs := by
  conv_rhs => rw [← List.map_id pairs]
  refine List.map_congr_left fun p hp => ?_
  have hg := (hpairs p hp).1.le_size
  have ho := (hpairs p hp).2.le_size
  exact Prod.ext (Nat.min_eq_left (show p.1 ≤ 4294967295 by omega))
    (Nat.min_eq_left (show p.2 ≤ 4294967295 by omega))

theorem landing?_of_place (hgenerated : Place generated p.1) (hsource : Place source p.2) :
    ∃ target origin, landing? source generated p = some (positionOf target, positionOf origin) ∧
      (∃ rest, generated = target ++ rest) ∧ (∃ rest, source = origin ++ rest) ∧
      Text.size target = p.1 ∧ Text.size origin = p.2 := by
  obtain ⟨target, rest, rfl, htarget⟩ := hgenerated
  obtain ⟨origin, rest', rfl, horigin⟩ := hsource
  refine ⟨target, origin, ?_, ⟨rest, rfl⟩, ⟨rest', rfl⟩, htarget, horigin⟩
  rw [landing?, ← htarget, ← horigin, LineIndex.position?_place, LineIndex.position?_place]
  rfl

theorem segmentOf_fits (htarget : target.column < 0x100000000) (hline : origin.line < 0x100000000)
    (hcolumn : origin.column < 0x100000000) :
    (segmentOf target origin).Fits := by
  refine ⟨htarget, ?_, ?_, ?_, ?_⟩
  all_goals
    intro o
  · rintro ⟨⟩
    exact (by decide : 0 < 0x100000000)
  · rintro ⟨⟩
    exact hline
  · rintro ⟨⟩
    exact hcolumn
  · rintro n ⟨⟩ hn
    cases hn

theorem place_of_landing? (h : landing? source generated p = some (target, origin)) :
    ∃ before before', (∃ rest, generated = before ++ rest) ∧ (∃ rest, source = before' ++ rest) ∧
      Text.size before = p.1 ∧ Text.size before' = p.2 ∧
      target = positionOf before ∧ origin = positionOf before' := by
  simp only [landing?, Option.bind_eq_bind, Option.bind_eq_some_iff, Option.pure_def,
    Option.some.injEq, Prod.mk.injEq] at h
  obtain ⟨_, htarget, _, horigin, rfl, rfl⟩ := h
  obtain ⟨before, rest, hgenerated, hsize, rfl⟩ := LineIndex.position?_eq_some htarget
  obtain ⟨before', rest', hsource, hsize', rfl⟩ := LineIndex.position?_eq_some horigin
  exact ⟨before, before', ⟨rest, hgenerated⟩, ⟨rest', hsource⟩, hsize, hsize', rfl, rfl⟩

/-- Both offsets of every pair are offsets that there are. -/
def Narrow (pairs : List (Nat × Nat)) : Prop :=
  ∀ p ∈ pairs, p.1 ≤ Span.maxOffset ∧ p.2 ≤ Span.maxOffset

theorem narrow_cut (pairs : List (Nat × Nat)) : Narrow (pairs.map cut) := by
  intro p hp
  obtain ⟨q, -, rfl⟩ := List.mem_map.mp hp
  exact ⟨Nat.min_le_right .., Nat.min_le_right ..⟩

theorem record_recorded (hm : m.Recorded) (hp : p.1 ≤ Span.maxOffset ∧ p.2 ≤ Span.maxOffset) :
    (record source generated m p).Recorded := by
  rw [record]
  rcases hland : landing? source generated p with _ | ⟨target, origin⟩
  · exact hm
  · obtain ⟨before, before', -, -, hbefore, hbefore', rfl, rfl⟩ := place_of_landing? hland
    have htarget := Text.positionOf_column_le before
    have hline := Text.positionOf_line_le before'
    have hcolumn := Text.positionOf_column_le before'
    simp only [Span.maxOffset] at hp
    exact hm.push _ rfl (segmentOf_fits (by omega) (by omega) (by omega))

theorem foldl_record_recorded (hm : m.Recorded) (hpairs : Narrow pairs) :
    (pairs.foldl (record source generated) m).Recorded := by
  induction pairs generalizing m with
  | nil => exact hm
  | cons p pairs ih =>
    exact ih (record_recorded hm (hpairs p (by simp))) fun q hq => hpairs q (by simp [hq])

theorem segments_recorded (source generated : List Char) (pairs : List (Nat × Nat)) :
    (segments source generated pairs).Recorded := by
  rw [segments_eq_foldl]
  exact foldl_record_recorded .empty (narrow_cut pairs)

theorem line_strict (source generated : List Char) (pairs : List (Nat × Nat)) (n : Nat) :
    ((segments source generated pairs).prune.line n).Pairwise fun s t => s.column < t.column := by
  rw [Mappings.line_prune]
  exact (Mappings.pruneLine_canonical ((segments_recorded source generated pairs).sorted n)).strict

/-- The segment of a pair, when the pair is recorded at a position. -/
def segmentAt (source generated : List Char) (spot : Position) (p : Nat × Nat) : Option Segment :=
  (landing? source generated p).bind fun (target, origin) =>
    if target = spot then some (segmentOf target origin) else none

theorem firstAt?_record (hm : m.Recorded) (p : Nat × Nat) (spot : Position) :
    firstAt? spot.column ((record source generated m p).line spot.line) =
      (firstAt? spot.column (m.line spot.line)).or (segmentAt source generated spot p) := by
  rw [record, segmentAt]
  rcases landing? source generated p with _ | ⟨⟨line, column⟩, origin⟩
  · simp
  · rcases spot with ⟨line', column'⟩
    simp only [Mappings.line_push, Option.bind_some, Position.mk.injEq]
    by_cases hline : line' = line
    · subst hline
      rw [if_pos rfl, Mappings.firstAt?_insertSegment (hm.sorted _)]
      by_cases hcolumn : column = column' <;> simp [segmentOf, hcolumn]
    · have : ¬ line = line' := fun h => hline h.symm
      simp [hline, this]

theorem firstAt?_foldl_record (hm : m.Recorded) (hpairs : Narrow pairs) (spot : Position) :
    firstAt? spot.column ((pairs.foldl (record source generated) m).line spot.line) =
      (firstAt? spot.column (m.line spot.line)).or
        (pairs.findSome? (segmentAt source generated spot)) := by
  induction pairs generalizing m with
  | nil => simp
  | cons p pairs ih =>
    rw [List.foldl_cons, ih (record_recorded hm (hpairs p (by simp)))
      fun q hq => hpairs q (by simp [hq]), firstAt?_record hm, Option.or_assoc,
      List.findSome?_cons]
    cases segmentAt source generated spot p <;> rfl

theorem segmentAt_eq_some {spot : Position} :
    segmentAt source generated spot p = some s ↔
      ∃ origin, landing? source generated p = some (spot, origin) ∧ s = segmentOf spot origin := by
  unfold segmentAt
  rcases landing? source generated p with _ | ⟨target, origin⟩
  · simp
  · by_cases h : target = spot
    · subst h
      simp [eq_comm]
    · simp [h]

/-- No generated offset has two origins. -/
def Unambiguous (pairs : List (Nat × Nat)) : Prop :=
  ∀ p ∈ pairs, ∀ q ∈ pairs, p.1 = q.1 → p.2 = q.2

variable (hgenerated : Text.size generated < 0x100000000)
  (hsource : Text.size source < 0x100000000) (hpairs : Paired source generated pairs)
include hgenerated hsource hpairs

/-- A map made from pairs answers at a position with the first pair that was recorded there. -/
theorem segmentAt?_segments (spot : Position) :
    (segments source generated pairs).prune.segmentAt? spot.line spot.column =
      pairs.findSome? (segmentAt source generated spot) := by
  rw [(segments_recorded source generated pairs).segmentAt?_prune, segments_eq_foldl,
    firstAt?_foldl_record .empty (narrow_cut pairs),
    map_cut_of_paired hgenerated hsource hpairs]
  rfl

/-- The position of a recorded offset is looked up to the origin it was recorded with. -/
theorem segmentAt?_of_mem (hone : Unambiguous pairs) (hp : p ∈ pairs)
    (hland : landing? source generated p = some (target, origin)) :
    (segments source generated pairs).prune.segmentAt? target.line target.column =
      some (segmentOf target origin) := by
  rw [segmentAt?_segments hgenerated hsource hpairs]
  have hhit := segmentAt_eq_some.mpr ⟨origin, hland, rfl⟩
  cases hfirst : pairs.findSome? (segmentAt source generated target) with
  | none => rw [List.findSome?_eq_none_iff.mp hfirst p hp] at hhit; cases hhit
  | some s =>
    -- the pair that is found has the same position, so the same generated offset
    obtain ⟨q, hq, hqs⟩ := List.exists_of_findSome?_eq_some hfirst
    obtain ⟨origin', hland', rfl⟩ := segmentAt_eq_some.mp hqs
    obtain ⟨x, y, hxy, ⟨xr, hx⟩, ⟨yr, hy⟩, hxsize, hysize⟩ :=
      landing?_of_place (hpairs p hp).1 (hpairs p hp).2
    obtain ⟨u, v, huv, ⟨ur, hu⟩, ⟨vr, hv⟩, husize, hvsize⟩ :=
      landing?_of_place (hpairs q hq).1 (hpairs q hq).2
    rw [hland] at hxy
    rw [hland'] at huv
    simp only [Option.some.injEq, Prod.mk.injEq] at hxy huv
    have hsame : x = u := Text.positionOf_inj (hx.symm.trans hu) (hxy.1.symm.trans huv.1)
    have horigin : p.2 = q.2 := hone p hp q hq (by rw [← hxsize, ← husize, hsame])
    have hyv : y = v := (Text.prefix_inj (hy.symm.trans hv) (by omega)).1
    rw [hxy.2, huv.2, hyv]

theorem mem_of_segmentAt? (spot : Position)
    (h : (segments source generated pairs).prune.segmentAt? spot.line spot.column = some s) :
    ∃ p ∈ pairs, ∃ origin, landing? source generated p = some (spot, origin) ∧
      s = segmentOf spot origin := by
  rw [segmentAt?_segments hgenerated hsource hpairs] at h
  obtain ⟨p, hp, hps⟩ := List.exists_of_findSome?_eq_some h
  exact ⟨p, hp, segmentAt_eq_some.mp hps⟩

omit hgenerated hsource hpairs in
/-- The map of any pairs is read back as it was made. -/
theorem decode_build (name : String) (file : Option String) (withContent : Bool)
    (source generated : List Char) (pairs : List (Nat × Nat)) :
    (build name file withContent source generated pairs).decode =
      .ok (segments source generated pairs).prune :=
  Mappings.decode_encode (Mappings.prune_wellFormed
    (segments_recorded source generated pairs).sorted
    (segments_recorded source generated pairs).fits)

end Pairs

end Downlevel.SourceMap
