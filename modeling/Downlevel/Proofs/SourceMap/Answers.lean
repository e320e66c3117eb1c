import Downlevel.Proofs.SourceMap.Lookup

/-! # What a built map answers

A map is made from pairs of offsets, in the order in which they are recorded, and then knows nothing
of them: it holds lines of segments, without those of columns that came up again, written as text.
Still it answers as the pairs themselves would (`lookups_answer_pairs`). At a position that is the
first pair recorded there (`recordedAt?`). Nearest before a position it is the first pair recorded
at the last column that has one (`recordedBefore?`). Pairs with an offset that is no place of its
text count for nothing. -/

namespace Downlevel.SourceMap

open Mappings (firstAt?)

variable {ls : List (Position × Position)}

/-! ## What the pairs say -/

/-- The positions of the pairs that have one on both sides, in the order of the pairs. -/
def landings (source generated : List Char) (pairs : List (Nat × Nat)) :
    List (Position × Position) :=
  (pairs.map cut).filterMap (landing? source generated)

/-- The origin that was recorded first at a position. -/
def recordedAt? (spot : Position) (ls : List (Position × Position)) : Option Position :=
  (ls.find? (·.1 == spot)).map (·.2)

/-- The columns of a line, up to that of `spot`, at which something was recorded. -/
def columnsBefore (spot : Position) (ls : List (Position × Position)) : List Nat :=
  (ls.filter fun l => l.1.line == spot.line && l.1.column ≤ spot.column).map (·.1.column)

/-- The origin that was recorded first at the last column up to that of `spot`. -/
def recordedBefore? (spot : Position) (ls : List (Position × Position)) : Option Position :=
  (columnsBefore spot ls).max?.bind fun column => recordedAt? ⟨spot.line, column⟩ ls

/-- The place in the only source. -/
def originOf (p : Position) : Origin := { source := 0, line := p.line, column := p.column }

theorem mem_columnsBefore {spot : Position} {column : Nat} :
    column ∈ columnsBefore spot ls ↔
      column ≤ spot.column ∧ ∃ origin, (⟨spot.line, column⟩, origin) ∈ ls := by
  simp only [columnsBefore, List.mem_map, List.mem_filter, Bool.and_eq_true, beq_iff_eq,
    decide_eq_true_eq]
  constructor
  · rintro ⟨⟨⟨line, column'⟩, origin⟩, ⟨hmem, hline, hle⟩, hcolumn⟩
    dsimp only at hline hle hcolumn
    subst hline hcolumn
    exact ⟨hle, origin, hmem⟩
  · rintro ⟨hle, origin, hmem⟩
    exact ⟨_, ⟨hmem, rfl, hle⟩, rfl⟩

theorem recordedAt?_eq_none {spot : Position} :
    recordedAt? spot ls = none ↔ ∀ origin, (spot, origin) ∉ ls := by
  simp only [recordedAt?, Option.map_eq_none_iff, List.find?_eq_none, beq_iff_eq]
  constructor
  · intro h origin hmem
    exact h _ hmem rfl
  · rintro h ⟨target, origin⟩ hmem rfl
    exact h origin hmem

section Pairs

variable {source generated : List Char} {pairs : List (Nat × Nat)}

theorem findSome?_segmentAt (ps : List (Nat × Nat)) (spot : Position) :
    ps.findSome? (segmentAt source generated spot) =
      (recordedAt? spot (ps.filterMap (landing? source generated))).map (segmentOf spot) := by
  induction ps with
  | nil => rfl
  | cons p ps ih =>
    rw [List.findSome?_cons, List.filterMap_cons]
    cases hland : landing? source generated p with
    | none =>
      have hnone : segmentAt source generated spot p = none := by simp [segmentAt, hland]
      rw [hnone]
      exact ih
    | some l =>
      obtain ⟨target, origin⟩ := l
      by_cases htarget : target = spot
      · subst htarget
        rw [segmentAt_eq_some.mpr ⟨origin, hland, rfl⟩]
        simp [recordedAt?]
      · have hnone : segmentAt source generated spot p = none := by
          simp [segmentAt, hland, htarget]
        rw [hnone]
        simpa [recordedAt?, htarget] using ih

/-- The first segment at a column of a line is that of the first pair that was recorded there. -/
theorem firstAt?_segments (spot : Position) :
    firstAt? spot.column ((segments source generated pairs).line spot.line) =
      (recordedAt? spot (landings source generated pairs)).map (segmentOf spot) := by
  rw [segments_eq_foldl, firstAt?_foldl_record .empty (narrow_cut pairs), findSome?_segmentAt]
  rfl

theorem exists_segment_iff {n column : Nat} :
    (∃ s ∈ (segments source generated pairs).line n, s.column = column) ↔
      ∃ origin, (⟨n, column⟩, origin) ∈ landings source generated pairs := by
  have hnone : firstAt? column ((segments source generated pairs).line n) = none ↔
      ∀ s ∈ (segments source generated pairs).line n, s.column ≠ column := by simp [firstAt?]
  rw [firstAt?_segments ⟨n, column⟩, Option.map_eq_none_iff, recordedAt?_eq_none] at hnone
  rw [← not_iff_not]
  push Not
  exact hnone.symm

theorem segmentAt?_build (spot : Position) :
    (segments source generated pairs).prune.segmentAt? spot.line spot.column =
      (recordedAt? spot (landings source generated pairs)).map (segmentOf spot) := by
  rw [(segments_recorded source generated pairs).segmentAt?_prune, firstAt?_segments]

/-- The segment nearest before a position is that of the first pair recorded at the last column with
one. -/
theorem segmentBefore?_build (spot : Position) :
    ((segments source generated pairs).prune.segmentBefore? spot.line spot.column).bind (·.origin) =
      (recordedBefore? spot (landings source generated pairs)).map originOf := by
  have hrecorded := segments_recorded source generated pairs
  have hsorted := hrecorded.sorted spot.line
  rw [recordedBefore?]
  cases hlast : (segments source generated pairs).segmentBefore? spot.line spot.column with
  | none =>
    have hcolumns : columnsBefore spot (landings source generated pairs) = [] := by
      refine List.eq_nil_iff_forall_not_mem.mpr fun column hmem => ?_
      obtain ⟨hle, hlands⟩ := mem_columnsBefore.mp hmem
      obtain ⟨s, hs, rfl⟩ := exists_segment_iff.mpr hlands
      rw [Mappings.segmentBefore?, hsorted.takeWhile_eq_filter, List.getLast?_eq_none_iff,
        List.filter_eq_nil_iff] at hlast
      exact hlast s hs (by simpa using hle)
    rw [Mappings.segmentBefore?, Mappings.line_prune,
      Mappings.getLast?_pruneLine_eq_none hsorted hlast, hcolumns]
    rfl
  | some s =>
    obtain ⟨hat, hle, hmost⟩ := hsorted.of_getLast? hlast
    have hmem : s ∈ (segments source generated pairs).line spot.line :=
      List.mem_of_mem_filter (List.mem_of_getLast? hat)
    have hmax : (columnsBefore spot (landings source generated pairs)).max? = some s.column := by
      refine List.max?_eq_some_iff.mpr ⟨mem_columnsBefore.mpr ⟨hle, ?_⟩, fun column hmem => ?_⟩
      · exact exists_segment_iff.mp ⟨s, hmem, rfl⟩
      · obtain ⟨hcolumn, hlands⟩ := mem_columnsBefore.mp hmem
        obtain ⟨t, ht, rfl⟩ := exists_segment_iff.mpr hlands
        exact (hmost t ht).mp hcolumn
    rw [hrecorded.segmentBefore?_prune hlast, firstAt?_segments ⟨spot.line, s.column⟩, hmax,
      Option.bind_some]
    cases recordedAt? ⟨spot.line, s.column⟩ (landings source generated pairs) <;> rfl

end Pairs

end Downlevel.SourceMap
