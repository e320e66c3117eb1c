import Downlevel.Proofs.Compile.Places

/-!
# Maps that follow the snippet

Read from its start, the map of a compiled snippet never goes back in the snippet
(`decode_follows`), whatever was moved, inserted, replaced or left out. Places are recorded in the
order of the code and of the snippet alike. Both orders survive when offsets are cut down and turned
into positions, when segments are sorted into their lines, and when a line is pruned.
-/

namespace Downlevel.SourceMap

open Text (positionOf size)
open Mappings (line_prune pruneLine_sublist mem_lines)

/-- The position of the origin in its source. -/
def Origin.position (o : Origin) : Position := ⟨o.line, o.column⟩

/-- Segments come from the only source, and later ones from no earlier position of it. -/
structure Mappings.Follows (source : List Char) (m : Mappings) : Prop where
  strict : ∀ line ∈ m.lines, line.Pairwise fun s t => s.column < t.column
  climbing : m.lines.flatten.Pairwise fun s t =>
    ∀ o ∈ s.origin, ∀ o' ∈ t.origin, o.position.Le o'.position
  inside : ∀ s ∈ m.lines.flatten, ∃ o ∈ s.origin, o.source = 0 ∧
    ∃ before rest, source = before ++ rest ∧ rest ≠ [] ∧ o.position = positionOf before

section Pairs

variable {source generated : List Char} {pairs : List (Nat × Nat)}

/-- Later offsets of the code come from no earlier offsets of the source. -/
def Climbing (pairs : List (Nat × Nat)) : Prop :=
  ∀ p ∈ pairs, ∀ q ∈ pairs, p.1 < q.1 → p.2 ≤ q.2

theorem climbing_of_pairwise (h : pairs.Pairwise fun p q => p.1 ≤ q.1 ∧ p.2 ≤ q.2) :
    Climbing pairs := by
  -- in either order of the two pairs, the offsets are ordered alike
  let alike := fun p q : Nat × Nat => (p.1 < q.1 → p.2 ≤ q.2) ∧ (q.1 < p.1 → q.2 ≤ p.2)
  have hsymm : Std.Symm alike := ⟨fun _ _ hpq => hpq.symm⟩
  have halike : pairs.Pairwise alike := by
    apply h.imp
    intro p q hpq
    constructor <;> intro <;> omega
  intro p hp q hq
  exact (halike.forall_of_forall (fun p _ => by constructor <;> intro <;> omega) hp hq).1

theorem Climbing.map_cut (h : Climbing pairs) : Climbing (pairs.map cut) := by
  intro p hp q hq hlt
  obtain ⟨p, hmem, rfl⟩ := List.mem_map.mp hp
  obtain ⟨q, hmem', rfl⟩ := List.mem_map.mp hq
  simp only [cut] at hlt ⊢
  have hle := h p hmem q hmem' (by omega)
  omega

/-- The pair that lands at a later position of the code comes from no earlier position. -/
theorem Climbing.origin_le (h : Climbing pairs) {p q : Nat × Nat} (hp : p ∈ pairs) (hq : q ∈ pairs)
    {target origin target' origin' : Position}
    (hland : landing? source generated p = some (target, origin))
    (hland' : landing? source generated q = some (target', origin'))
    (hlater : ¬ target'.Le target) : origin.Le origin' := by
  obtain ⟨x, y, ⟨xr, hx⟩, ⟨yr, hy⟩, hxsize, hysize, rfl, rfl⟩ := place_of_landing? hland
  obtain ⟨u, v, ⟨ur, hu⟩, ⟨vr, hv⟩, husize, hvsize, rfl, rfl⟩ := place_of_landing? hland'
  have hlt : p.1 < q.1 := by
    by_contra hge
    exact hlater (Text.positionOf_mono (hu.symm.trans hx) (by omega))
  have hle := h p hp q hq hlt
  exact Text.positionOf_mono (hy.symm.trans hv) (by omega)

/-! ## Segments -/

theorem mem_line_foldl_record {m : Mappings} {n : Nat} {s : Segment}
    (h : s ∈ (pairs.foldl (record source generated) m).line n) :
    s ∈ m.line n ∨ ∃ p ∈ pairs, ∃ target origin,
      landing? source generated p = some (target, origin) ∧ target.line = n ∧
        s = segmentOf target origin := by
  induction pairs generalizing m with
  | nil => exact .inl h
  | cons p pairs ih =>
    rcases ih h with hmem | ⟨q, hq, hland⟩
    · rw [record] at hmem
      rcases hland : landing? source generated p with _ | ⟨target, origin⟩
      · rw [hland] at hmem
        exact .inl hmem
      · rw [hland, Mappings.line_push] at hmem
        split at hmem
        · rename_i hline
          rcases Mappings.mem_insertSegment.mp hmem with rfl | hmem
          · exact .inr ⟨p, by simp, target, origin, hland, hline.symm, rfl⟩
          · exact .inl (hline ▸ hmem)
        · exact .inl hmem
    · exact .inr ⟨q, by simp [hq], hland⟩

/-- A segment that is left on a line is that of a pair that lands there. -/
theorem landing?_of_mem {n : Nat} {s : Segment}
    (h : s ∈ (segments source generated pairs).prune.line n) :
    ∃ p ∈ pairs.map cut, ∃ origin,
      landing? source generated p = some (⟨n, s.column⟩, origin) ∧
        s = segmentOf ⟨n, s.column⟩ origin := by
  rw [line_prune, segments_eq_foldl] at h
  rcases mem_line_foldl_record ((pruneLine_sublist _ _).subset h) with
    hmem | ⟨p, hp, ⟨line, column⟩, origin, hland, rfl, rfl⟩
  · cases hmem
  · exact ⟨p, hp, origin, hland, rfl⟩

theorem Climbing.position_le (h : Climbing pairs) {n k : Nat} {s t : Segment}
    (hs : s ∈ (segments source generated pairs).prune.line n)
    (ht : t ∈ (segments source generated pairs).prune.line k)
    (hlater : n < k ∨ n = k ∧ s.column < t.column) :
    ∀ o ∈ s.origin, ∀ o' ∈ t.origin, o.position.Le o'.position := by
  obtain ⟨p, hp, origin, hland, hseg⟩ := landing?_of_mem hs
  obtain ⟨q, hq, origin', hland', hseg'⟩ := landing?_of_mem ht
  have hle : origin.Le origin' := by
    refine h.map_cut.origin_le hp hq hland hland' fun hle => ?_
    simp only [Position.Le] at hle
    omega
  intro o ho o' ho'
  rw [hseg] at ho
  rw [hseg'] at ho'
  obtain rfl := Option.some.inj ho
  obtain rfl := Option.some.inj ho'
  exact hle

theorem segments_follows (h : Climbing pairs) (hinside : ∀ p ∈ pairs, p.2 < size source) :
    (segments source generated pairs).prune.Follows source := by
  have hstrict : ∀ line ∈ (segments source generated pairs).prune.lines,
      line.Pairwise fun s t => s.column < t.column := by
    intro line hline
    obtain ⟨n, rfl⟩ := mem_lines hline
    exact line_strict source generated pairs n
  refine ⟨hstrict, List.pairwise_flatten.mpr ⟨?_, ?_⟩, ?_⟩
  · intro line hline
    obtain ⟨n, rfl⟩ := mem_lines hline
    refine (hstrict _ hline).imp_of_mem fun hs ht hlt => ?_
    exact h.position_le hs ht (.inr ⟨rfl, hlt⟩)
  · rw [List.pairwise_iff_getElem]
    intro n k hn hk hlt s hs t ht
    have hsline : s ∈ (segments source generated pairs).prune.line n := by
      rwa [Mappings.line, List.getElem?_eq_getElem hn]
    have htline : t ∈ (segments source generated pairs).prune.line k := by
      rwa [Mappings.line, List.getElem?_eq_getElem hk]
    exact h.position_le hsline htline (.inl hlt)
  · intro s hs
    obtain ⟨line, hline, hs⟩ := List.mem_flatten.mp hs
    obtain ⟨n, rfl⟩ := mem_lines hline
    obtain ⟨p, hp, origin, hland, hseg⟩ := landing?_of_mem hs
    obtain ⟨-, before, -, ⟨rest, hsource⟩, -, hsize, -, rfl⟩ := place_of_landing? hland
    obtain ⟨q, hq, rfl⟩ := List.mem_map.mp hp
    refine ⟨_, by rw [hseg]; rfl, rfl, before, rest, hsource, ?_, rfl⟩
    rintro rfl
    have hlt := hinside q hq
    rw [hsource, List.append_nil, hsize] at hlt
    simp only [cut] at hlt
    omega

end Pairs

end Downlevel.SourceMap

namespace Downlevel.Compile

/-- The map of a compiled snippet can be read. On each line of the code its segments stand at
columns that grow, and read in the order of the code, their origins never go back in the snippet and
never reach its end. -/
theorem decode_follows {text : List Char} {options : CompileOptions} {out : Compiled}
    (h : compile text options = .ok out) :
    ∃ m, out.map.decode = .ok m ∧ m.Follows text := by
  have htraced := traced_of_compile h
  obtain ⟨name, hmap⟩ := htraced.map
  refine ⟨_, by rw [hmap, SourceMap.decode_build], ?_⟩
  exact SourceMap.segments_follows (SourceMap.climbing_of_pairwise htraced.climbing) htraced.inside

/-- Two imports, of which the second is called in the last line. -/
def calledImport : List Char :=
  "import a, \x7b b as c \x7d from 'x';\nexport const é = a;\nc(é)\n".toList

theorem decode_follows_call :
    ∃ out, compile calledImport { transforms := [.imports, .wrapLastExpression] } = .ok out ∧
      ∃ m, out.map.decode = .ok m ∧ m.Follows calledImport := by
  obtain ⟨out, hout⟩ := Option.isSome_iff_exists.mp (by decide +kernel :
    (compiled? calledImport { transforms := [.imports, .wrapLastExpression] }).isSome = true)
  have hcompile := compiled?_eq_some_iff.mp hout
  exact ⟨out, hcompile, decode_follows hcompile⟩

end Downlevel.Compile
