import Downlevel.Proofs.SourceMap.Lookup

/-!
# Mappings that are read back

Whatever was pushed and pruned, and in whatever order, mappings keep to what `decode_encode` asks of
them: fields of 32 bits, lines in the order of their columns and no empty line at the end
(`Mappings.WellFormed`). The same holds of all that `decode` gives, since each number that it takes
for a field has passed a check and each line is sorted last. So what the operations can lead to
(`Mappings.Reachable`) is read back from its text.
-/

namespace Downlevel.SourceMap.Mappings

variable {m : Mappings}

/-! ## Pushing -/

theorem insertSegment_ne_nil (s : Segment) (line : List Segment) : insertSegment s line ≠ [] := by
  intro hnil
  have hmem : s ∈ insertSegment s line := mem_insertSegment.mpr (.inl rfl)
  rw [hnil] at hmem
  cases hmem

theorem atLine_ne_nil (f : List Segment → List Segment) (n : Nat) (lines : List (List Segment)) :
    atLine f n lines ≠ [] := by
  cases n <;> cases lines <;> simp [atLine]

/-- Where a line is filled, the lines before it may be empty, but not those at the end. -/
theorem endsFull_atLine {f : List Segment → List Segment} (hf : ∀ line, f line ≠ []) (n : Nat)
    {lines : List (List Segment)} (h : EndsFull lines) : EndsFull (atLine f n lines) := by
  have hcons : ∀ (line : List Segment) {rest : List (List Segment)}, rest ≠ [] →
      EndsFull rest → EndsFull (line :: rest) := by
    intro line rest hrest hfull
    obtain ⟨next, others, rfl⟩ := List.exists_cons_of_ne_nil hrest
    simpa [EndsFull, List.getLast?_cons_cons] using hfull
  induction n generalizing lines with
  | zero =>
    cases lines with
    | nil => simpa [EndsFull, atLine] using hf []
    | cons line rest =>
      cases rest with
      | nil => simpa [EndsFull, atLine] using hf line
      | cons next rest => simpa [EndsFull, atLine, List.getLast?_cons_cons] using h
  | succ n ih =>
    cases lines with
    | nil => exact hcons [] (atLine_ne_nil f n []) (ih h)
    | cons line rest =>
      refine hcons line (atLine_ne_nil f n rest) (ih ?_)
      cases rest with
      | nil => simp [EndsFull]
      | cons next rest => simpa [EndsFull, List.getLast?_cons_cons] using h

theorem WellFormed.sorted_line (h : m.WellFormed) (n : Nat) : Sorted (m.line n) := by
  unfold line
  cases hline : m.lines[n]? with
  | none => exact List.Pairwise.nil
  | some l => exact h.sorted l (List.mem_of_getElem? hline)

theorem WellFormed.fits_line (h : m.WellFormed) (n : Nat) :
    ∀ s ∈ m.line n, s.Fits := by
  unfold line
  cases hline : m.lines[n]? with
  | none => simp
  | some l => exact h.fits l (List.mem_of_getElem? hline)

theorem WellFormed.push (h : m.WellFormed) (line : Nat) {s : Segment} (hs : s.Fits) :
    (m.push line s).WellFormed := by
  refine ⟨fun l hl => ?_, fun l hl => ?_, dropEmptyEnd_eq_self_iff.mpr
    (endsFull_atLine (insertSegment_ne_nil s) line (dropEmptyEnd_eq_self_iff.mp h.noEmptyEnd))⟩
  · obtain ⟨n, rfl⟩ := mem_lines hl
    exact forall_mem_push h.fits_line line hs n
  · obtain ⟨n, rfl⟩ := mem_lines hl
    exact sorted_push h.sorted_line line s n

/-! ## Reading -/

theorem field_lt {value : Int} {n : Nat} (h : field value = .ok n) : n < 0x100000000 := by
  unfold field at h
  split at h
  · cases h
    omega
  · cases h

/-- All fields of an origin fit 32 bits. -/
structure Fitting (o : Origin) : Prop where
  source : o.source < 0x100000000
  line : o.line < 0x100000000
  column : o.column < 0x100000000
  name : ∀ n, o.name = some n → n < 0x100000000

theorem Fitting.fits {o : Origin} (h : Fitting o) {column : Nat} (hcolumn : column < 0x100000000) :
    Segment.Fits ⟨column, some o⟩ := by
  refine ⟨hcolumn, ?_, ?_, ?_, ?_⟩
  · rintro _ ⟨⟩
    exact h.source
  · rintro _ ⟨⟩
    exact h.line
  · rintro _ ⟨⟩
    exact h.column
  · rintro _ n ⟨⟩ hn
    exact h.name n hn

theorem decodeOrigin_fitting {r r' : Registers} {source line column : Int} {name : Option Int}
    {o : Origin} (h : decodeOrigin r source line column name = .ok (o, r')) : Fitting o := by
  unfold decodeOrigin at h
  obtain ⟨_, -, h⟩ := bind_eq_ok_iff.mp h
  obtain ⟨_, -, h⟩ := bind_eq_ok_iff.mp h
  obtain ⟨_, -, h⟩ := bind_eq_ok_iff.mp h
  extract_lets _ rest at h
  have hrest : ∀ (name : Option Nat) (registers : Registers), rest (name, registers) = .ok (o, r') →
      (∀ n, name = some n → n < 0x100000000) → Fitting o := by
    intro name registers h hname
    obtain ⟨_, hsource, h⟩ := bind_eq_ok_iff.mp h
    obtain ⟨_, hline, h⟩ := bind_eq_ok_iff.mp h
    obtain ⟨_, hcolumn, h⟩ := bind_eq_ok_iff.mp h
    cases h
    exact ⟨field_lt hsource, field_lt hline, field_lt hcolumn, hname⟩
  cases name with
  | none =>
    obtain ⟨_, hfound, h⟩ := bind_eq_ok_iff.mp h
    cases hfound
    exact hrest none _ h nofun
  | some delta =>
    obtain ⟨_, -, h⟩ := bind_eq_ok_iff.mp h
    obtain ⟨n, hname, h⟩ := bind_eq_ok_iff.mp h
    obtain ⟨_, hfound, h⟩ := bind_eq_ok_iff.mp h
    cases hfound
    refine hrest (some n) _ h ?_
    rintro _ ⟨⟩
    exact field_lt hname

theorem decodeSegment_fits {r r' : Registers} {values : List Int} {s : Segment}
    (h : decodeSegment r values = .ok (s, r')) : s.Fits := by
  unfold decodeSegment at h
  obtain ⟨_, -, h⟩ := bind_eq_ok_iff.mp h
  dsimp only at h
  split at h
  · obtain ⟨_, hcolumn, h⟩ := bind_eq_ok_iff.mp h
    cases h
    exact ⟨field_lt hcolumn, nofun, nofun, nofun, nofun⟩
  iterate 2
    · obtain ⟨⟨o, _⟩, horigin, h⟩ := bind_eq_ok_iff.mp h
      obtain ⟨_, hcolumn, h⟩ := bind_eq_ok_iff.mp h
      cases h
      exact (decodeOrigin_fitting horigin).fits (field_lt hcolumn)
  · cases h

/-- All segments that were read so far fit. -/
def Reading.Fits (r : Reading) : Prop := ∀ line ∈ r.current :: r.done, ∀ s ∈ line, s.Fits

/-- One round reads a separator or a segment, and a segment is checked before it is kept. -/
theorem decodeUpTo_fits {r r' : Reading} (hr : r.Fits) {n : Nat} {bytes : List UInt8}
    (h : decodeUpTo r n bytes = .ok r') : r'.Fits := by
  induction n generalizing r bytes with
  | zero =>
    cases bytes <;> cases h <;> exact hr
  | succ n ih =>
    cases bytes with
    | nil =>
      cases h
      exact hr
    | cons byte rest =>
      rw [decodeUpTo] at h
      split at h
      · refine ih ?_ h
        intro line hline
        rcases List.mem_cons.mp hline with rfl | hline
        · simp
        · exact hr line hline
      · split at h
        · exact ih hr h
        · obtain ⟨⟨values, after⟩, -, h⟩ := bind_eq_ok_iff.mp h
          obtain ⟨⟨s, registers⟩, hsegment, h⟩ := bind_eq_ok_iff.mp h
          refine ih ?_ h
          intro line hline t ht
          rcases List.mem_cons.mp hline with rfl | hline
          · rcases List.mem_cons.mp ht with rfl | ht
            · exact decodeSegment_fits hsegment
            · exact hr r.current List.mem_cons_self t ht
          · exact hr line (List.mem_cons_of_mem _ hline) t ht

theorem sortLine_sorted (line : List Segment) : Sorted (sortLine line) := by
  have hsorted : (sortLine line).Pairwise fun s t => decide (s.column ≤ t.column) = true := by
    apply List.pairwise_mergeSort
    · intro a b c hab hbc
      simp only [decide_eq_true_eq] at *
      omega
    · intro a b
      simp only [Bool.or_eq_true, decide_eq_true_eq]
      omega
  exact hsorted.imp fun hle => of_decide_eq_true hle

theorem decode_wellFormed {text : String} (h : decode text = .ok m) :
    m.WellFormed := by
  obtain ⟨r, hread, h⟩ := bind_eq_ok_iff.mp h
  cases h
  have hfits : r.Fits := decodeUpTo_fits (by simp [Reading.Fits]) hread
  -- a line that is left was read, and then sorted
  have hline : ∀ l ∈ dropEmptyEnd ((r.current :: r.done).reverse.map fun l => sortLine l.reverse),
      ∃ l' ∈ r.current :: r.done, l = sortLine l'.reverse := by
    intro l hl
    obtain ⟨l', hl', rfl⟩ := List.mem_map.mp ((dropEmptyEnd_sublist _).subset hl)
    exact ⟨l', List.mem_reverse.mp hl', rfl⟩
  refine ⟨?_, ?_, dropEmptyEnd_idem _⟩
  · intro l hl s hs
    obtain ⟨l', hl', rfl⟩ := hline l hl
    rw [sortLine, List.mem_mergeSort, List.mem_reverse] at hs
    exact hfits l' hl' s hs
  · intro l hl
    obtain ⟨l', -, rfl⟩ := hline l hl
    exact sortLine_sorted _

/-! ## All that can be reached -/

/-- The mappings that come about by reading, pushing and pruning. -/
inductive Reachable : Mappings → Prop where
  | empty : Reachable {}
  | decoded {text : String} {m : Mappings} (h : decode text = .ok m) : Reachable m
  | push {m : Mappings} (h : Reachable m) (line : Nat) {s : Segment} (hs : s.Fits) :
      Reachable (m.push line s)
  | prune {m : Mappings} (h : Reachable m) : Reachable m.prune

theorem Reachable.wellFormed (h : m.Reachable) : m.WellFormed := by
  induction h with
  | empty => exact ⟨by simp, by simp, rfl⟩
  | decoded h => exact decode_wellFormed h
  | push _ line hs ih => exact ih.push line hs
  | prune _ ih => exact prune_wellFormed ih.sorted_line ih.fits_line

/-- Mappings that were made by reading, pushing and pruning are read back from their text; so
writing what was read and reading it again changes nothing. -/
theorem decode_encode_of_reachable :
    (∀ m : Mappings, m.Reachable → decode m.encode = .ok m) ∧
      ∀ (text : String) (m : Mappings), decode text = .ok m →
        decode m.encode = decode text := by
  refine ⟨fun m hm => decode_encode hm.wellFormed, ?_⟩
  intro text m hm
  rw [hm]
  exact decode_encode (decode_wellFormed hm)

/-- A text with names, an empty line, a column that goes back and two segments at one column; then
the largest fields are pushed, a segment from nowhere before them, and one behind a gap of lines. -/
theorem decode_encode_of_reachable_mixed :
    ∃ read m : Mappings, decode ";IACKC,AAAAC,DAAAD,G" = .ok read ∧
      m = ((read.push 0 ⟨4294967295, some ⟨4294967295, 4294967295, 4294967295,
        some 4294967295⟩⟩).push 0 ⟨0, none⟩).prune.push 7 ⟨3, none⟩ ∧
      decode m.encode = .ok m ∧ decode read.encode = decode ";IACKC,AAAAC,DAAAD,G" := by
  obtain ⟨read, hread⟩ : ∃ read, (decode ";IACKC,AAAAC,DAAAD,G").toOption = some read :=
    Option.isSome_iff_exists.mp (by decide +kernel)
  have hdecode := toOption_eq_some_iff.mp hread
  have hlargest : Segment.Fits ⟨4294967295, some ⟨4294967295, 4294967295, 4294967295,
      some 4294967295⟩⟩ :=
    Fitting.fits ⟨by decide, by decide, by decide, by rintro _ ⟨⟩; decide⟩ (by decide)
  have hnowhere : ∀ column < 0x100000000, Segment.Fits ⟨column, none⟩ :=
    fun _ hcolumn => ⟨hcolumn, by simp, by simp, by simp, by simp⟩
  have hpushed := ((Reachable.decoded hdecode).push 0 hlargest).push 0 (hnowhere 0 (by decide))
  exact ⟨read, _, hdecode, rfl,
    decode_encode_of_reachable.1 _ (hpushed.prune.push 7 (hnowhere 3 (by decide))),
    decode_encode_of_reachable.2 _ read hdecode⟩

end Downlevel.SourceMap.Mappings
