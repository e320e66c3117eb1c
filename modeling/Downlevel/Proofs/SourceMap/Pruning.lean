import Mathlib.Data.List.DropRight
import Mathlib.Data.List.Induction
import Downlevel.Proofs.SourceMap.Codec

/-! # Pushing and pruning

Pushing keeps each line in the order of its columns and puts a segment behind those of its own
column. Pruning leaves lines in which every segment tells something after the one before it
(`Telling`), so that pruning again finds nothing to drop. What it keeps at a column hangs on the
segments there and on the last one kept to the left (`keptAt?`, `leftOf?`): the first segment is
kept, where a search in the line before pruning finds the last. Hence lookups stay as they are where
no column was pushed twice (`prune_canonical`), and where one was they move from the last segment to
the first (`prune_answers_first`). -/

namespace Downlevel.SourceMap.Mappings

variable {m : Mappings} {line : List Segment} {previous : Option Segment} {s t : Segment}
  {column : Nat} {level : List Segment}

/-! ## Lines -/

/-- The segments are in the order of their columns. -/
def Sorted (line : List Segment) : Prop := line.Pairwise fun s t => s.column ≤ t.column

theorem Sorted.head_le (h : Sorted (s :: line)) : ∀ t ∈ s :: line, s.column ≤ t.column := by
  intro t ht
  rcases List.mem_cons.mp ht with rfl | ht
  · exact Nat.le_refl _
  · exact (List.pairwise_cons.mp h).1 t ht

/-- The segments at a column. -/
def atColumn (column : Nat) (line : List Segment) : List Segment := line.filter (·.column == column)

theorem column_of_mem_atColumn (h : s ∈ atColumn column line) : s.column = column := by
  simpa using List.of_mem_filter h

/-- The first segment at a column. -/
def firstAt? (column : Nat) (line : List Segment) : Option Segment :=
  line.find? (·.column == column)

theorem head?_atColumn : (atColumn column line).head? = firstAt? column line :=
  List.head?_filter ..

section

variable (h : Sorted line)
include h

/-- Up to a column, a line is what stands before it and what stands at it. -/
theorem Sorted.filter_le (column : Nat) :
    line.filter (·.column ≤ column) = line.filter (·.column < column) ++ atColumn column line := by
  induction line with
  | nil => rfl
  | cons s line ih =>
    simp only [atColumn, List.filter_cons, ih h.of_cons, decide_eq_true_eq, beq_iff_eq]
    rcases Nat.lt_trichotomy s.column column with hlt | heq | hgt
    · rw [if_pos (Nat.le_of_lt hlt), if_pos hlt, if_neg (Nat.ne_of_lt hlt), List.cons_append]
    · have hnone : line.filter (·.column < column) = [] := by
        rw [List.filter_eq_nil_iff]
        intro t ht
        have := h.head_le t (List.mem_cons_of_mem s ht)
        simp only [decide_eq_true_eq]
        omega
      rw [if_pos (Nat.le_of_eq heq), if_neg (by omega), if_pos heq, hnone]
      rfl
    · rw [if_neg (by omega), if_neg (by omega), if_neg (by omega)]

theorem Sorted.takeWhile_eq_filter (column : Nat) :
    line.takeWhile (·.column ≤ column) = line.filter (·.column ≤ column) := by
  induction line with
  | nil => rfl
  | cons s line ih =>
    by_cases hle : s.column ≤ column
    · rw [List.takeWhile_cons_of_pos (by simpa using hle), ih h.of_cons,
        List.filter_cons_of_pos (by simpa using hle)]
    · rw [List.takeWhile_cons_of_neg (by simpa using hle), eq_comm, List.filter_eq_nil_iff]
      intro t ht
      have := h.head_le t ht
      simp only [decide_eq_true_eq]
      omega

omit h in
/-- Of what is found up to a column, only what stands at it remains when the column is asked for. -/
theorem or_filter_column {here left : Option Segment} (hhere : ∀ s ∈ here, s.column = column)
    (hleft : ∀ s ∈ left, s.column < column) :
    (here.or left).filter (·.column == column) = here := by
  cases here with
  | some s => simp [hhere s rfl]
  | none =>
    cases left with
    | none => rfl
    | some t => simp [Nat.ne_of_lt (hleft t rfl)]

theorem Sorted.getLast?_filter_column (column : Nat) :
    ((line.takeWhile (·.column ≤ column)).getLast?).filter (·.column == column) =
      (atColumn column line).getLast? := by
  rw [h.takeWhile_eq_filter, h.filter_le, List.getLast?_append]
  refine or_filter_column (fun s hs => column_of_mem_atColumn (List.mem_of_getLast? hs))
    fun s hs => ?_
  simpa using List.of_mem_filter (List.mem_of_getLast? hs)

theorem Sorted.takeWhile_congr {k : Nat} (hiff : ∀ t ∈ line, t.column ≤ column ↔ t.column ≤ k) :
    line.takeWhile (·.column ≤ column) = line.takeWhile (·.column ≤ k) := by
  rw [h.takeWhile_eq_filter, h.takeWhile_eq_filter]
  exact List.filter_congr fun t ht => decide_eq_decide.mpr (hiff t ht)

/-- What is found up to a column is the last segment at the last column up to there. -/
theorem Sorted.of_getLast? (hs : (line.takeWhile (·.column ≤ column)).getLast? = some s) :
    (atColumn s.column line).getLast? = some s ∧ s.column ≤ column ∧
      ∀ t ∈ line, t.column ≤ column ↔ t.column ≤ s.column := by
  have hfilter := hs
  rw [h.takeWhile_eq_filter] at hfilter
  obtain ⟨front, hfront⟩ := List.getLast?_eq_some_iff.mp hfilter
  have hle : s.column ≤ column := by simpa using List.of_mem_filter (List.mem_of_getLast? hfilter)
  have hiff : ∀ t ∈ line, t.column ≤ column ↔ t.column ≤ s.column := by
    refine fun t ht => ⟨fun htle => ?_, fun hts => Nat.le_trans hts hle⟩
    have hmem : t ∈ line.filter (·.column ≤ column) :=
      List.mem_filter.mpr ⟨ht, by simpa using htle⟩
    have hsorted := h.filter (·.column ≤ column)
    rw [hfront] at hmem hsorted
    rcases List.mem_append.mp hmem with hmem | hmem
    · exact (List.pairwise_append.mp hsorted).2.2 t hmem s (List.mem_singleton_self s)
    · rw [List.mem_singleton.mp hmem]
  refine ⟨?_, hle, hiff⟩
  rw [← h.getLast?_filter_column, ← h.takeWhile_congr hiff, hs]
  simp

/-! ## Pushing -/

omit h in
theorem mem_insertSegment : t ∈ insertSegment s line ↔ t = s ∨ t ∈ line := by
  induction line with
  | nil => simp [insertSegment]
  | cons u line ih =>
    rw [insertSegment]
    split
    · rw [List.mem_cons, ih, List.mem_cons]
      exact or_left_comm
    · rw [List.mem_cons]

theorem insertSegment_sorted : Sorted (insertSegment s line) := by
  induction line with
  | nil => exact List.pairwise_singleton ..
  | cons t line ih =>
    rw [insertSegment]
    split
    · rename_i hle
      refine List.pairwise_cons.mpr ⟨fun u hu => ?_, ih h.of_cons⟩
      rcases mem_insertSegment.mp hu with rfl | hu
      · exact hle
      · exact h.head_le u (List.mem_cons_of_mem t hu)
    · rename_i hgt
      refine List.pairwise_cons.mpr ⟨fun u hu => ?_, h⟩
      have := h.head_le u hu
      omega

theorem atColumn_insertSegment (column : Nat) : atColumn column (insertSegment s line) =
      atColumn column line ++ if s.column = column then [s] else [] := by
  induction line with
  | nil => by_cases hs : s.column = column <;> simp [insertSegment, atColumn, hs]
  | cons t line ih =>
    rw [insertSegment]
    split
    · have hrest := ih h.of_cons
      rw [atColumn] at hrest ⊢
      rw [List.filter_cons, hrest, atColumn, atColumn, List.filter_cons]
      split <;> rfl
    · rename_i hgt
      by_cases hs : s.column = column
      · -- all that follow stand further right
        have hnone : atColumn column (t :: line) = [] := by
          rw [atColumn, List.filter_eq_nil_iff]
          intro u hu
          have := h.head_le u hu
          simp only [beq_iff_eq]
          omega
        rw [hnone, atColumn, List.filter_cons_of_pos (by simpa using hs), ← atColumn, hnone,
          if_pos hs]
        rfl
      · rw [atColumn, List.filter_cons_of_neg (by simpa using hs), if_neg hs, List.append_nil,
          atColumn]

theorem firstAt?_insertSegment (column : Nat) : firstAt? column (insertSegment s line) =
      (firstAt? column line).or (if s.column = column then some s else none) := by
  rw [← head?_atColumn, atColumn_insertSegment h, List.head?_append, head?_atColumn]
  split <;> rfl

end

theorem getElem?_atLine (f : List Segment → List Segment) (n k : Nat)
    (lines : List (List Segment)) :
    ((atLine f n lines)[k]?).getD [] =
      if k = n then f ((lines[n]?).getD []) else (lines[k]?).getD [] := by
  induction n generalizing k lines with
  | zero => cases lines <;> cases k <;> simp [atLine]
  | succ n ih => cases lines <;> cases k <;> simp [atLine, ih]

theorem line_push (m : Mappings) (line n : Nat) (s : Segment) :
    (m.push line s).line n = if n = line then insertSegment s (m.line line) else m.line n :=
  getElem?_atLine _ _ _ _

theorem sorted_push (h : ∀ n, Sorted (m.line n)) (line : Nat) (s : Segment) (n : Nat) :
    Sorted ((m.push line s).line n) := by
  rw [line_push]
  split
  · exact insertSegment_sorted (h line)
  · exact h n

theorem forall_mem_push {P : Segment → Prop} (h : ∀ n, ∀ t ∈ m.line n, P t) (line : Nat) (hs : P s)
    (n : Nat) : ∀ t ∈ (m.push line s).line n, P t := by
  intro t ht
  rw [line_push] at ht
  split at ht
  · rcases mem_insertSegment.mp ht with rfl | ht
    · exact hs
    · exact h line t ht
  · exact h n t ht

/-! ## Lines at the end -/

/-- No line is empty at the end. -/
def EndsFull (lines : List (List Segment)) : Prop := ∀ line ∈ lines.getLast?, line ≠ []

theorem dropEmptyEnd_eq_self_iff {lines : List (List Segment)} :
    dropEmptyEnd lines = lines ↔ EndsFull lines := by
  refine List.rdropWhile_eq_self_iff.trans ?_
  cases lines using List.reverseRecOn with
  | nil => simp [EndsFull]
  | append_singleton => simp [EndsFull]

theorem dropEmptyEnd_idem (lines : List (List Segment)) :
    dropEmptyEnd (dropEmptyEnd lines) = dropEmptyEnd lines := List.rdropWhile_idempotent ..

theorem dropEmptyEnd_sublist (lines : List (List Segment)) : (dropEmptyEnd lines).Sublist lines :=
  (List.rdropWhile_prefix ..).sublist

theorem getElem?_dropEmptyEnd (lines : List (List Segment)) (n : Nat) :
    ((dropEmptyEnd lines)[n]?).getD [] = (lines[n]?).getD [] := by
  induction lines using List.reverseRecOn with
  | nil => rfl
  | append_singleton lines line ih =>
    rw [dropEmptyEnd, List.reverse_append, List.reverse_singleton, List.singleton_append]
    cases line with
    | nil =>
      rw [List.dropWhile_cons_of_pos rfl, ← dropEmptyEnd, ih]
      by_cases hn : n < lines.length
      · rw [List.getElem?_append_left hn]
      · rw [List.getElem?_eq_none (by omega), List.getElem?_append_right (by omega)]
        cases n - lines.length <;> rfl
    | cons s line =>
      rw [List.dropWhile_cons_of_neg (by simp)]
      simp

theorem line_prune (m : Mappings) (n : Nat) : m.prune.line n = pruneLine none (m.line n) := by
  show ((dropEmptyEnd (m.lines.map (pruneLine none)))[n]?).getD [] = _
  rw [getElem?_dropEmptyEnd, List.getElem?_map, line]
  cases m.lines[n]? <;> rfl

/-! ## Pruned lines -/

theorem pruneLine_sublist (previous : Option Segment) (line : List Segment) :
    (pruneLine previous line).Sublist line := by
  induction line generalizing previous with
  | nil => exact List.Sublist.refl _
  | cons s line ih =>
    rw [pruneLine]
    split
    · exact (ih previous).cons s
    · exact (ih (some s)).cons_cons s

theorem Sorted.pruneLine (h : Sorted line) (previous : Option Segment) :
    Sorted (pruneLine previous line) :=
  List.Pairwise.sublist (pruneLine_sublist _ _) h

/-- No segment is redundant after the one before it. -/
def Telling : Option Segment → List Segment → Prop
  | _, [] => True
  | previous, s :: rest => redundant previous s = false ∧ Telling (some s) rest

theorem pruneLine_telling (previous : Option Segment) (line : List Segment) :
    Telling previous (pruneLine previous line) := by
  induction line generalizing previous with
  | nil => trivial
  | cons s line ih =>
    rw [pruneLine]
    split
    · exact ih previous
    · rename_i hkeep
      exact ⟨Bool.eq_false_iff.mpr hkeep, ih (some s)⟩

theorem Telling.pruneLine_eq (h : Telling previous line) : pruneLine previous line = line := by
  induction line generalizing previous with
  | nil => rfl
  | cons s line ih => rw [pruneLine, if_neg (by simp [h.1]), ih h.2]

theorem mem_lines {l : List Segment} (h : l ∈ m.lines) : ∃ n, m.line n = l := by
  obtain ⟨n, hn, rfl⟩ := List.mem_iff_getElem.mp h
  exact ⟨n, by rw [line, List.getElem?_eq_getElem hn]; rfl⟩

theorem prune_wellFormed (hsorted : ∀ n, Sorted (m.line n)) (hfits : ∀ n, ∀ s ∈ m.line n, s.Fits) :
    m.prune.WellFormed := by
  refine ⟨fun l hl s hs => ?_, fun l hl => ?_, dropEmptyEnd_idem _⟩
  · obtain ⟨n, rfl⟩ := mem_lines hl
    rw [line_prune] at hs
    exact hfits n s ((pruneLine_sublist _ _).subset hs)
  · obtain ⟨n, rfl⟩ := mem_lines hl
    rw [line_prune]
    exact (hsorted n).pruneLine none

theorem prune_prune (m : Mappings) : m.prune.prune = m.prune := by
  have hmap : (dropEmptyEnd (m.lines.map (pruneLine none))).map (pruneLine none) =
      dropEmptyEnd (m.lines.map (pruneLine none)) := by
    refine (List.map_congr_left fun line hline => ?_).trans (List.map_id _)
    obtain ⟨l, -, rfl⟩ := List.mem_map.mp ((dropEmptyEnd_sublist _).subset hline)
    exact (pruneLine_telling none l).pruneLine_eq
  unfold prune
  rw [hmap, dropEmptyEnd_idem]

/-- The columns go up, the first segment came from somewhere, and of two neighbours one did. -/
structure Canonical (line : List Segment) : Prop where
  strict : line.Pairwise fun s t => s.column < t.column
  opened : ∀ s ∈ line.head?, s.origin.isSome
  told : line.IsChain fun s t => s.origin.isSome ∨ t.origin.isSome

theorem Telling.strict (h : Telling previous line) (hsorted : Sorted line) :
    line.Pairwise fun s t => s.column < t.column := by
  induction line generalizing previous with
  | nil => exact List.Pairwise.nil
  | cons s line ih =>
    refine List.pairwise_cons.mpr ⟨fun t ht => ?_, ih h.2 hsorted.of_cons⟩
    cases line with
    | nil => cases ht
    | cons u line =>
      -- the next segment stands at another column, and all others not before it
      have hnext : s.column ≠ u.column := by
        have htells := h.2.1
        simp only [redundant, Bool.or_eq_false_iff, beq_eq_false_iff_ne] at htells
        exact htells.1
      have hle := hsorted.head_le u (by simp)
      have hrest := Sorted.head_le hsorted.of_cons t ht
      omega

theorem Telling.told (h : Telling previous line) :
    line.IsChain fun s t => s.origin.isSome ∨ t.origin.isSome := by
  induction line generalizing previous with
  | nil => exact .nil
  | cons s line ih =>
    cases line with
    | nil => exact .singleton s
    | cons t line =>
      have htells := h.2.1
      refine .cons_cons ?_ (ih h.2)
      cases hs : s.origin <;> cases ht : t.origin <;> simp_all [redundant]

theorem pruneLine_canonical (h : Sorted line) : Canonical (pruneLine none line) := by
  have htells := pruneLine_telling none line
  refine ⟨htells.strict (h.pruneLine none), ?_, htells.told⟩
  cases hkept : pruneLine none line with
  | nil => exact fun s hs => by cases hs
  | cons t rest =>
    rw [hkept] at htells
    rintro s ⟨⟩
    simpa [redundant, Option.isSome_iff_ne_none] using htells.1

/-! ## Lookups in pruned lines -/

theorem pruneLine_append (previous : Option Segment) (xs ys : List Segment) :
    pruneLine previous (xs ++ ys) =
      pruneLine previous xs ++ pruneLine ((pruneLine previous xs).getLast?.or previous) ys := by
  induction xs generalizing previous with
  | nil => rfl
  | cons s xs ih =>
    rw [List.cons_append, pruneLine, pruneLine]
    split
    · exact ih previous
    · rw [ih, List.cons_append, List.getLast?_cons]
      cases (pruneLine (some s) xs).getLast? <;> rfl

/-- Of the segments at one column, at most one is kept: the first, or the first that came from
somewhere when nothing is told before. -/
theorem pruneLine_level (hlevel : ∀ s ∈ level, s.column = column)
    (hprevious : ∀ p ∈ previous, p.column ≠ column) :
    pruneLine previous level =
      (if (previous.bind (·.origin)).isSome then level.head?
        else level.find? (·.origin.isSome)).toList := by
  have hsame : ∀ (s : Segment) (rest : List Segment), (∀ t ∈ rest, s.column = t.column) →
      pruneLine (some s) rest = [] := by
    intro s rest h
    induction rest with
    | nil => rfl
    | cons t rest ih =>
      rw [pruneLine, if_pos (by simp [redundant, h t]), ih fun u hu => h u (by simp [hu])]
  induction level with
  | nil => cases (previous.bind (·.origin)).isSome <;> rfl
  | cons s level ih =>
    have hs := hlevel s List.mem_cons_self
    have hrest : ∀ t ∈ level, t.column = column := fun t ht => hlevel t (List.mem_cons_of_mem s ht)
    have hredundant : redundant previous s =
        ((previous.bind (·.origin)).isNone && s.origin.isNone) := by
      cases previous with
      | none => rfl
      | some p =>
        have := hprevious p rfl
        simp [redundant, hs, this]
    rw [pruneLine, hredundant, ih hrest, hsame s level fun t ht => by rw [hs, hrest t ht]]
    cases previous.bind (·.origin) <;> cases ho : s.origin <;> simp [ho]

/-- What is kept up to a column hangs on nothing beyond it. -/
theorem filter_pruneLine (h : Sorted line) (previous : Option Segment) (column : Nat) :
    (pruneLine previous line).filter (·.column ≤ column) =
      pruneLine previous (line.filter (·.column ≤ column)) := by
  induction line generalizing previous with
  | nil => rfl
  | cons s line ih =>
    by_cases hle : s.column ≤ column
    · rw [List.filter_cons_of_pos (by simpa using hle), pruneLine, pruneLine]
      split
      · exact ih h.of_cons previous
      · rw [List.filter_cons_of_pos (by simpa using hle), ih h.of_cons]
    · have hbeyond : ∀ t ∈ s :: line, ¬ decide (t.column ≤ column) = true := by
        intro t ht
        have := h.head_le t ht
        simp only [decide_eq_true_eq]
        omega
      rw [List.filter_eq_nil_iff.mpr hbeyond, List.filter_eq_nil_iff.mpr fun t ht =>
        hbeyond t ((pruneLine_sublist _ _).subset ht)]
      rfl

/-- The last segment that is kept left of a column. -/
def leftOf? (column : Nat) (line : List Segment) : Option Segment :=
  (pruneLine none (line.filter (·.column < column))).getLast?

/-- The segment that is kept at a column. -/
def keptAt? (column : Nat) (line : List Segment) : Option Segment :=
  if ((leftOf? column line).bind (·.origin)).isSome then (atColumn column line).head?
  else (atColumn column line).find? (·.origin.isSome)

theorem leftOf?_lt (h : leftOf? column line = some s) : s.column < column := by
  have hmem := (pruneLine_sublist _ _).subset (List.mem_of_getLast? h)
  simpa using List.of_mem_filter hmem

/-- The search in a pruned line finds what is kept at the column, or else to its left. -/
theorem getLast?_pruneLine (h : Sorted line) (column : Nat) :
    ((pruneLine none line).takeWhile (·.column ≤ column)).getLast? =
      (keptAt? column line).or (leftOf? column line) := by
  have hlevel : ∀ s ∈ atColumn column line, s.column = column := fun s => column_of_mem_atColumn
  have hleft : ∀ p ∈ leftOf? column line, p.column ≠ column := fun p hp =>
    Nat.ne_of_lt (leftOf?_lt hp)
  rw [(h.pruneLine none).takeWhile_eq_filter, filter_pruneLine h, h.filter_le, pruneLine_append,
    Option.or_none, ← leftOf?, pruneLine_level hlevel hleft, ← keptAt?, List.getLast?_append,
    ← leftOf?]
  cases keptAt? column line <;> rfl

/-- Where the search finds a segment before pruning, it goes to the first segment of the same column
afterwards, or to the first that came from somewhere when nothing is told to the left. -/
theorem bind_getLast?_pruneLine (h : Sorted line)
    (hs : (line.takeWhile (·.column ≤ column)).getLast? = some s) :
    (((pruneLine none line).takeWhile (·.column ≤ column)).getLast?).bind (·.origin) =
      if ((leftOf? s.column line).bind (·.origin)).isSome then
        (atColumn s.column line).head?.bind (·.origin)
      else ((atColumn s.column line).find? (·.origin.isSome)).bind (·.origin) := by
  obtain ⟨hlast, -, hiff⟩ := h.of_getLast? hs
  rw [(h.pruneLine none).takeWhile_congr fun t ht => hiff t ((pruneLine_sublist _ _).subset ht),
    getLast?_pruneLine h, keptAt?]
  split
  · obtain ⟨first, rest, hfirst⟩ :=
      List.exists_cons_of_ne_nil (List.ne_nil_of_mem (List.mem_of_getLast? hlast))
    rw [hfirst]
    rfl
  · rename_i hleft
    cases (atColumn s.column line).find? (·.origin.isSome) with
    | none => simpa using hleft
    | some t => rfl

theorem getLast?_pruneLine_eq_none (h : Sorted line)
    (hnone : (line.takeWhile (·.column ≤ column)).getLast? = none) :
    ((pruneLine none line).takeWhile (·.column ≤ column)).getLast? = none := by
  rw [h.takeWhile_eq_filter, List.getLast?_eq_none_iff] at hnone
  rw [(h.pruneLine none).takeWhile_eq_filter, filter_pruneLine h, hnone]
  rfl

theorem keptAt?_column (h : keptAt? column line = some s) : s.column = column := by
  unfold keptAt? at h
  split at h
  · exact column_of_mem_atColumn (List.mem_of_head? h)
  · exact column_of_mem_atColumn (List.mem_of_find?_eq_some h)

theorem getLast?_pruneLine_filter_column (h : Sorted line) (column : Nat) :
    (((pruneLine none line).takeWhile (·.column ≤ column)).getLast?).filter (·.column == column) =
      keptAt? column line := by
  rw [getLast?_pruneLine h]
  exact or_filter_column (fun s => keptAt?_column) fun s => leftOf?_lt

/-- A single segment is the first that came from somewhere, or there is no such. -/
theorem find?_bind_origin (h : level.length ≤ 1) :
    (level.find? (·.origin.isSome)).bind (·.origin) = level.getLast?.bind (·.origin) ∧
      level.head? = level.getLast? := by
  rcases level with _ | ⟨s, _ | ⟨t, rest⟩⟩
  · exact ⟨rfl, rfl⟩
  · cases ho : s.origin <;> simp [ho]
  · simp at h

/-! ## Lines that were pushed -/

/-- The mappings that come about by pushing segments on lines, in order. -/
def ofPushes (pushes : List (Nat × Segment)) : Mappings :=
  pushes.foldl (fun m p => m.push p.1 p.2) {}

/-- The segments that were pushed at a column of a line, in order. -/
def pushedAt (n column : Nat) (pushes : List (Nat × Segment)) : List Segment :=
  (pushes.filter fun p => p.1 = n ∧ p.2.column = column).map (·.2)

variable (pushes : List (Nat × Segment)) (n : Nat)

theorem ofPushes_sorted : Sorted ((ofPushes pushes).line n) := by
  induction pushes using List.reverseRecOn generalizing n with
  | nil => exact List.Pairwise.nil
  | append_singleton pushes p ih =>
    rw [ofPushes, List.foldl_append]
    exact sorted_push ih p.1 p.2 n

theorem atColumn_ofPushes (column : Nat) :
    atColumn column ((ofPushes pushes).line n) = pushedAt n column pushes := by
  induction pushes using List.reverseRecOn with
  | nil => rfl
  | append_singleton pushes p ih =>
    have hpush : ofPushes (pushes ++ [p]) = (ofPushes pushes).push p.1 p.2 := by
      rw [ofPushes, List.foldl_append]
      rfl
    rw [hpush, line_push, pushedAt, List.filter_append, List.map_append, ← pushedAt, ← ih]
    by_cases hline : n = p.1
    · subst hline
      rw [if_pos rfl, atColumn_insertSegment (ofPushes_sorted pushes p.1)]
      by_cases hcolumn : p.2.column = column <;> simp [hcolumn]
    · simp [hline, Ne.symm hline]

/-- Where no column of a line was pushed twice, there is at most one segment at each. -/
theorem pushedAt_length_le (h : (pushes.map fun p => (p.1, p.2.column)).Nodup) (column : Nat) :
    (pushedAt n column pushes).length ≤ 1 := by
  have hsame : (pushes.filter fun p => p.1 = n ∧ p.2.column = column).map
      (fun p => (p.1, p.2.column)) =
        List.replicate (pushedAt n column pushes).length (n, column) := by
    rw [List.eq_replicate_iff]
    refine ⟨by simp [pushedAt], fun spot hspot => ?_⟩
    obtain ⟨p, hp, rfl⟩ := List.mem_map.mp hspot
    have hp := List.of_mem_filter hp
    rw [decide_eq_true_eq] at hp
    rw [hp.1, hp.2]
  rw [← List.nodup_replicate, ← hsame]
  exact h.sublist (List.filter_sublist.map _)

/-- What mappings answer left of a column. -/
def originLeft? (m : Mappings) (line : Nat) : Nat → Option Origin
  | 0 => none
  | column + 1 => (m.segmentBefore? line column).bind (·.origin)

theorem originLeft?_prune (h : Sorted (m.line n)) (column : Nat) :
    m.prune.originLeft? n column = (leftOf? column (m.line n)).bind (·.origin) := by
  cases column with
  | zero => simp [originLeft?, leftOf?, pruneLine]
  | succ column =>
    simp only [originLeft?, segmentBefore?, line_prune, leftOf?, Nat.lt_succ_iff,
      (h.pruneLine none).takeWhile_eq_filter, filter_pruneLine h]

/-- Each line is canonical after pruning, and the last one is not empty; pruning again changes
nothing. Where no column of a line was pushed twice, what is found at a position and before it comes
from the same origin after pruning, or from none as before. -/
theorem prune_canonical :
    (∀ n, Canonical ((ofPushes pushes).prune.line n)) ∧
      EndsFull (ofPushes pushes).prune.lines ∧
      (ofPushes pushes).prune.prune = (ofPushes pushes).prune ∧
      ((pushes.map fun p => (p.1, p.2.column)).Nodup → ∀ n column,
        ((ofPushes pushes).prune.segmentAt? n column).bind (·.origin) =
            ((ofPushes pushes).segmentAt? n column).bind (·.origin) ∧
          ((ofPushes pushes).prune.segmentBefore? n column).bind (·.origin) =
            ((ofPushes pushes).segmentBefore? n column).bind (·.origin)) := by
  refine ⟨fun n => ?_, dropEmptyEnd_eq_self_iff.mp (dropEmptyEnd_idem _), prune_prune _,
    fun hnodup n column => ?_⟩
  · rw [line_prune]
    exact pruneLine_canonical (ofPushes_sorted pushes n)
  have hsorted := ofPushes_sorted pushes n
  -- the segments at a column are at most one, and it does not matter how it is picked
  have hone : ∀ k, _ := fun k => find?_bind_origin (pushedAt_length_le pushes n hnodup k)
  simp only [← atColumn_ofPushes] at hone
  constructor
  · rw [segmentAt?, segmentBefore?, line_prune, segmentAt?, segmentBefore?,
      hsorted.getLast?_filter_column, getLast?_pruneLine_filter_column hsorted, keptAt?]
    split
    · rw [(hone column).2]
    · exact (hone column).1
  · rw [segmentBefore?, segmentBefore?, line_prune]
    cases hlast : (((ofPushes pushes).line n).takeWhile (·.column ≤ column)).getLast? with
    | none => rw [getLast?_pruneLine_eq_none hsorted hlast]
    | some s =>
      rw [bind_getLast?_pruneLine hsorted hlast, (hone s.column).1, (hone s.column).2, ite_self,
        (hsorted.of_getLast? hlast).1]

/-- Columns that go down and up again, on a line with segments from nowhere at its start and in a
row, and an empty line at the end. -/
theorem prune_canonical_unordered : let pushes := [(0, ⟨7, none⟩), (0, ⟨3, some ⟨0, 0, 3, none⟩⟩),
      (0, ⟨0, none⟩), (0, ⟨5, none⟩), (0, ⟨9, some ⟨0, 1, 2, none⟩⟩), (1, ⟨0, none⟩)];
    (ofPushes pushes).prune.lines = [[⟨3, some ⟨0, 0, 3, none⟩⟩, ⟨5, none⟩,
        ⟨9, some ⟨0, 1, 2, none⟩⟩]] ∧
      ∀ n column, ((ofPushes pushes).prune.segmentBefore? n column).bind (·.origin) =
        ((ofPushes pushes).segmentBefore? n column).bind (·.origin) :=
  ⟨by decide, fun n column => ((prune_canonical _).2.2.2 (by decide) n column).2⟩

/-- A segment that is found up to a column is the last one that was pushed at its own. After pruning
the answer there is the first one that was pushed, and when nothing is told to the left, the first
one that came from somewhere. Where nothing is found, nothing is found after pruning. -/
theorem prune_answers_first (column : Nat) :
    (∀ s, (ofPushes pushes).segmentBefore? n column = some s →
        (pushedAt n s.column pushes).getLast? = some s) ∧
      ((ofPushes pushes).prune.segmentBefore? n column).bind (·.origin) =
        ((ofPushes pushes).segmentBefore? n column).bind fun s =>
          if ((ofPushes pushes).prune.originLeft? n s.column).isSome then
            (pushedAt n s.column pushes).head?.bind (·.origin)
          else ((pushedAt n s.column pushes).find? (·.origin.isSome)).bind (·.origin) := by
  have hsorted := ofPushes_sorted pushes n
  simp only [← atColumn_ofPushes, originLeft?_prune n hsorted]
  refine ⟨fun s hs => (hsorted.of_getLast? hs).1, ?_⟩
  rw [segmentBefore?, segmentBefore?, line_prune]
  cases hlast : (((ofPushes pushes).line n).takeWhile (·.column ≤ column)).getLast? with
  | none => rw [getLast?_pruneLine_eq_none hsorted hlast, Option.bind_none, Option.bind_none]
  | some s => exact bind_getLast?_pruneLine hsorted hlast

/-- Two origins at one column, and a column further right. -/
theorem prune_answers_first_twice :
    let pushes := [(0, ⟨4, some ⟨0, 0, 0, none⟩⟩), (0, ⟨4, some ⟨0, 0, 5, none⟩⟩)];
    (ofPushes pushes).segmentBefore? 0 6 = some ⟨4, some ⟨0, 0, 5, none⟩⟩ ∧
      (pushedAt 0 4 pushes).getLast? = some ⟨4, some ⟨0, 0, 5, none⟩⟩ ∧
      ((ofPushes pushes).prune.segmentBefore? 0 6).bind (·.origin) = some ⟨0, 0, 0, none⟩ :=
  ⟨by decide, (prune_answers_first _ 0 6).1 ⟨4, some ⟨0, 0, 5, none⟩⟩ (by decide),
    (prune_answers_first _ 0 6).2.trans (by decide)⟩

/-- What is found up to a column that was pushed twice need not stay. -/
theorem prune_moves_answer :
    let m := ofPushes [(0, ⟨4, some ⟨0, 0, 0, none⟩⟩), (0, ⟨4, some ⟨0, 0, 5, none⟩⟩)];
    (m.segmentBefore? 0 4).bind (·.origin) = some ⟨0, 0, 5, none⟩ ∧
      (m.prune.segmentBefore? 0 4).bind (·.origin) = some ⟨0, 0, 0, none⟩ := by
  decide

end Downlevel.SourceMap.Mappings
