import Downlevel.Proofs.Outcome
import Downlevel.Proofs.SourceMap.Vlq
import Downlevel.SourceMap.Codec

/-! # Reading back mappings

`decode` reads the mappings that `encode` wrote. A segment is written as the list of its `deltas`
to the registers, and the proof goes up by layers: the numbers of one segment (`fields_deltas`), the
segment that they give (`decodeSegment_deltas`), a line, all lines. What may follow a segment is
nothing or a separator, and each layer leaves what follows untouched. -/

namespace Downlevel.SourceMap

open Vlq (bytes)

variable {line : List Segment} {r : Registers} {n : Nat} {rest : List UInt8} {s : Segment}

/-! ## Fields in range -/

/-- All fields of the segment fit 32 bits. -/
structure Segment.Fits (s : Segment) : Prop where
  column : s.column < 0x100000000
  source : ∀ o, s.origin = some o → o.source < 0x100000000
  line : ∀ o, s.origin = some o → o.line < 0x100000000
  sourceColumn : ∀ o, s.origin = some o → o.column < 0x100000000
  name : ∀ o n, s.origin = some o → o.name = some n → n < 0x100000000

/-- The value is a field of 32 bits. -/
def IsField (value : Int) : Prop := 0 ≤ value ∧ value < 0x100000000

theorem IsField.ofNat (h : n < 0x100000000) : IsField n := by
  unfold IsField
  omega

/-- All registers hold fields. -/
structure Registers.Fit (r : Registers) : Prop where
  column : IsField r.column
  source : IsField r.source
  line : IsField r.line
  sourceColumn : IsField r.sourceColumn
  name : IsField r.name

theorem Registers.Fit.start : Registers.Fit {} := by
  constructor <;> exact IsField.ofNat (by decide)

namespace Mappings

theorem natAbs_sub_lt {a b : Int} (ha : IsField a) (hb : IsField b) :
    (a - b).natAbs < 0x8000000000000000 := by
  unfold IsField at ha hb
  omega

theorem accumulate_sub {a b : Int} (ha : IsField a) : accumulate b (a - b) = .ok a := by
  have hsum : b + (a - b) = a := by omega
  unfold IsField at ha
  simp only [accumulate, hsum]
  rw [if_pos (by omega)]

theorem field_ofNat (h : n < 0x100000000) : field n = .ok n := by
  unfold field
  rw [if_pos (by omega)]
  rfl

/-! ## One segment -/

/-- The numbers of a segment. -/
def deltas (r : Registers) (s : Segment) : List Int :=
  (s.column - r.column) ::
    match s.origin with
    | none => []
    | some o =>
      (o.source - r.source) :: (o.line - r.line) :: (o.column - r.sourceColumn) ::
        match o.name with
        | none => []
        | some n => [n - r.name]

/-- The registers after a segment. -/
def after (r : Registers) (s : Segment) : Registers :=
  match s.origin with
  | none => { r with column := s.column }
  | some o =>
    { column := s.column, source := o.source, line := o.line, sourceColumn := o.column,
      name := match o.name with
        | none => r.name
        | some n => n }

theorem encodeSegment_eq (r : Registers) (s : Segment) :
    encodeSegment r s = ((deltas r s).flatMap Vlq.encode, after r s) := by
  unfold encodeSegment deltas after
  rcases s with ⟨column, _ | ⟨source, line, sourceColumn, _ | name⟩⟩ <;> simp

theorem after_fit (hr : r.Fit) (hs : s.Fits) : (after r s).Fit := by
  rcases s with ⟨column, _ | o⟩
  · exact { hr with column := .ofNat hs.column }
  · refine ⟨.ofNat hs.column, .ofNat (hs.source o rfl), .ofNat (hs.line o rfl),
      .ofNat (hs.sourceColumn o rfl), ?_⟩
    rcases hname : o.name with _ | n
    · simpa [after, hname] using hr.name
    · simpa [after, hname] using IsField.ofNat (hs.name o n rfl hname)

theorem natAbs_deltas (hr : r.Fit) (hs : s.Fits) :
    ∀ d ∈ deltas r s, d.natAbs < 0x8000000000000000 := by
  have hcolumn := natAbs_sub_lt (.ofNat hs.column) hr.column
  rcases s with ⟨column, _ | o⟩
  · simpa [deltas] using hcolumn
  · have hsource := natAbs_sub_lt (.ofNat (hs.source o rfl)) hr.source
    have hline := natAbs_sub_lt (.ofNat (hs.line o rfl)) hr.line
    have hsourceColumn := natAbs_sub_lt (.ofNat (hs.sourceColumn o rfl)) hr.sourceColumn
    rcases hname : o.name with _ | n
    · simpa [deltas, hname] using ⟨hcolumn, hsource, hline, hsourceColumn⟩
    · have := natAbs_sub_lt (.ofNat (hs.name o n rfl hname)) hr.name
      simpa [deltas, hname] using ⟨hcolumn, hsource, hline, hsourceColumn, this⟩

theorem length_deltas_le (r : Registers) (s : Segment) : (deltas r s).length ≤ 5 := by
  rcases s with ⟨column, _ | ⟨source, line, sourceColumn, _ | name⟩⟩ <;> simp [deltas]

theorem decodeOrigin_deltas {o : Origin} {column : Nat} (hs : Segment.Fits ⟨column, some o⟩) :
    decodeOrigin { r with column } (o.source - r.source) (o.line - r.line)
        (o.column - r.sourceColumn) (o.name.map fun n : Nat => (n : Int) - r.name) =
      .ok (o, after r ⟨column, some o⟩) := by
  have hsource := accumulate_sub (b := r.source) (.ofNat (hs.source o rfl))
  have hline := accumulate_sub (b := r.line) (.ofNat (hs.line o rfl))
  have hcolumn := accumulate_sub (b := r.sourceColumn) (.ofNat (hs.sourceColumn o rfl))
  have hsource' := field_ofNat (hs.source o rfl)
  have hline' := field_ofNat (hs.line o rfl)
  have hcolumn' := field_ofNat (hs.sourceColumn o rfl)
  unfold decodeOrigin
  rcases hname : o.name with _ | n
  · simp only [hsource, hline, hcolumn, hsource', hline', hcolumn', ok_bind, Option.map_none,
      pure_bind, after, hname]
    rw [← hname]
    rfl
  · have hn := hs.name o n rfl hname
    simp only [hsource, hline, hcolumn, hsource', hline', hcolumn', ok_bind, Option.map_some,
      pure_bind, accumulate_sub (.ofNat hn), field_ofNat hn, after, hname]
    rw [← hname]
    rfl

theorem decodeSegment_deltas (hs : s.Fits) :
    decodeSegment r (deltas r s) = .ok (s, after r s) := by
  have hcolumn := accumulate_sub (b := r.column) (.ofNat hs.column)
  have hcolumn' := field_ofNat hs.column
  rcases s with ⟨column, _ | o⟩
  · simp only [decodeSegment, deltas, List.headD_cons, hcolumn, hcolumn', ok_bind]
    rfl
  · have horigin := decodeOrigin_deltas (r := r) hs
    have hafter : (after r ⟨column, some o⟩).column = column := rfl
    rcases hname : o.name with _ | n
    · rw [hname] at horigin
      simp only [Option.map_none] at horigin
      simp only [decodeSegment, deltas, hname, List.headD_cons, hcolumn, ok_bind, horigin, hafter,
        hcolumn']
      rfl
    · rw [hname] at horigin
      simp only [Option.map_some] at horigin
      simp only [decodeSegment, deltas, hname, List.headD_cons, hcolumn, ok_bind, horigin, hafter,
        hcolumn']
      rfl

/-- What may follow a segment: nothing, or a separator. -/
def Stops (rest : List UInt8) : Prop := ∀ byte ∈ rest.head?, endsSegment byte = true

theorem Stops.nil : Stops [] := by simp [Stops]

theorem Stops.cons {byte : UInt8} (h : endsSegment byte = true) :
    Stops (byte :: rest) := by
  simpa [Stops] using h

theorem endsSegment_encode {value : Int} {c : Char} (h : c ∈ Vlq.encode value) :
    endsSegment c.toUInt8 = false := by
  obtain ⟨-, hcomma, hsemicolon⟩ := Vlq.mem_encode h
  simp [endsSegment, hcomma, hsemicolon]

/-- Numbers are read up to what follows their segment. -/
theorem fields_encode {values : List Int} {room : Nat} (hroom : values.length ≤ room)
    (hvalues : ∀ d ∈ values, d.natAbs < 0x8000000000000000) (hrest : Stops rest) :
    fields room (bytes (values.flatMap Vlq.encode) ++ rest) = .ok (values, rest) := by
  induction values generalizing room with
  | nil =>
    cases rest with
    | nil => cases room <;> rfl
    | cons byte rest =>
      have hstop : endsSegment byte = true := hrest byte rfl
      cases room <;> simp [fields, hstop, pure, Except.pure]
  | cons d values ih =>
    obtain ⟨room, rfl⟩ : ∃ n, room = n + 1 := ⟨room - 1, by simp at hroom; omega⟩
    obtain ⟨c, cs, hcs⟩ := List.exists_cons_of_ne_nil (Vlq.encode_ne_nil d)
    have hgo : endsSegment c.toUInt8 = false := endsSegment_encode (by rw [hcs]; simp)
    have hread := Vlq.decode_encode (hvalues d (by simp))
      (bytes (values.flatMap Vlq.encode) ++ rest)
    have htail := ih (by simpa using hroom) fun d hd => hvalues d (by simp [hd])
    rw [List.flatMap_cons, Vlq.bytes_append, List.append_assoc]
    rw [hcs] at hread ⊢
    simp only [Vlq.bytes_cons, List.cons_append] at hread ⊢
    simp only [fields, hgo, hread, List.length_cons, List.drop_succ_cons]
    rw [List.drop_left' (Vlq.length_bytes cs), htail]
    rfl

/-! ## Lines -/

/-- A segment is read on from any state of the reading, and takes one step of it. -/
theorem decodeUpTo_segment {r : Reading} (hr : r.registers.Fit) (hs : s.Fits) (hrest : Stops rest)
    (hn : (bytes (encodeSegment r.registers s).1 ++ rest).length ≤ n) :
    ∃ m, rest.length ≤ m ∧
      decodeUpTo r n (bytes (encodeSegment r.registers s).1 ++ rest) =
        decodeUpTo { r with current := s :: r.current, registers := after r.registers s } m
          rest := by
  have hfields := fields_encode (length_deltas_le r.registers s) (natAbs_deltas hr hs) hrest
  have hhead : ∃ c cs, (deltas r.registers s).flatMap Vlq.encode = c :: cs ∧
      endsSegment c.toUInt8 = false := by
    obtain ⟨c, cs, hcs⟩ :=
      List.exists_cons_of_ne_nil (Vlq.encode_ne_nil (s.column - r.registers.column))
    have hc : c ∈ Vlq.encode (s.column - r.registers.column) := by
      rw [hcs]
      exact List.mem_cons_self
    rw [deltas, List.flatMap_cons, hcs]
    exact ⟨c, _, rfl, endsSegment_encode hc⟩
  obtain ⟨c, cs, hcs, hgo⟩ := hhead
  simp only [endsSegment, Bool.or_eq_false_iff] at hgo
  rw [encodeSegment_eq] at hn ⊢
  simp only [hcs, Vlq.bytes_cons, List.cons_append] at hfields hn ⊢
  obtain ⟨m, rfl⟩ : ∃ m, n = m + 1 := ⟨n - 1, by simp at hn; omega⟩
  refine ⟨m, by simp at hn; omega, ?_⟩
  simp only [decodeUpTo, hgo, hfields, ok_bind, decodeSegment_deltas hs]
  rfl

/-- The registers after the segments of a line. -/
def afterLine (r : Registers) (line : List Segment) : Registers := line.foldl after r

theorem afterLine_fit (hr : r.Fit) (hline : ∀ s ∈ line, s.Fits) : (afterLine r line).Fit := by
  induction line generalizing r with
  | nil => exact hr
  | cons s line ih =>
    exact ih (after_fit hr (hline s (by simp))) fun t ht => hline t (by simp [ht])

theorem encodeLine_cons {t : Segment} : encodeLine r (s :: t :: line) =
      ((encodeSegment r s).1 ++ ',' :: (encodeLine (after r s) (t :: line)).1,
        (encodeLine (after r s) (t :: line)).2) := by
  rw [encodeLine, encodeSegment_eq]
  exact List.cons_ne_nil _ _

theorem encodeLine_registers (r : Registers) (line : List Segment) :
    (encodeLine r line).2 = afterLine r line := by
  induction line generalizing r with
  | nil => rfl
  | cons s line ih =>
    cases line with
    | nil => rw [encodeLine, encodeSegment_eq]; rfl
    | cons t line => rw [encodeLine_cons, ih]; rfl

theorem decodeUpTo_line {r : Reading} (hr : r.registers.Fit) (hline : ∀ s ∈ line, s.Fits)
    (hrest : Stops rest) (hn : (bytes (encodeLine r.registers line).1 ++ rest).length ≤ n) :
    ∃ m, rest.length ≤ m ∧
      decodeUpTo r n (bytes (encodeLine r.registers line).1 ++ rest) =
        decodeUpTo { r with
          current := line.reverse ++ r.current
          registers := afterLine r.registers line } m rest := by
  induction line generalizing r n with
  | nil => exact ⟨n, by simpa [encodeLine] using hn, by simp [encodeLine, afterLine]⟩
  | cons s line ih =>
    have hs := hline s (by simp)
    cases line with
    | nil =>
      rw [encodeLine] at hn ⊢
      simpa [afterLine] using decodeUpTo_segment hr hs hrest hn
    | cons t line =>
      have hcomma : ','.toUInt8 = 44 := by decide
      rw [encodeLine_cons] at hn ⊢
      simp only [Vlq.bytes_append, Vlq.bytes_cons, hcomma, List.append_assoc,
        List.cons_append] at hn ⊢
      obtain ⟨m, hm, hsegment⟩ := decodeUpTo_segment hr hs (.cons (by decide)) hn
      obtain ⟨m, rfl⟩ : ∃ k, m = k + 1 := ⟨m - 1, by simp at hm; omega⟩
      obtain ⟨k, hk, hothers⟩ :=
        ih (r := { r with current := s :: r.current, registers := after r.registers s })
          (after_fit hr hs) (fun u hu => hline u (by simp [hu])) (by simp at hm ⊢; omega)
      refine ⟨k, hk, ?_⟩
      rw [hsegment, decodeUpTo]
      simpa [afterLine] using hothers

/-- Lines that the reading of a text leaves, in their order. -/
def Reading.lines (r : Reading) : List (List Segment) :=
  (r.current :: r.done).reverse.map List.reverse

/-- The registers at the start of a line. -/
def lineStart (r : Registers) : Registers := { r with column := 0 }

theorem lineStart_fit (hr : r.Fit) : (lineStart r).Fit :=
  { hr with column := Registers.Fit.start.column }

theorem encodeLines_cons {next : List Segment} {lines : List (List Segment)} :
    encodeLines r (line :: next :: lines) = (encodeLine (lineStart r) line).1 ++
      ';' :: encodeLines (afterLine (lineStart r) line) (next :: lines) := by
  rw [encodeLines, ← encodeLine_registers]
  · rfl
  · exact List.cons_ne_nil _ _

theorem decodeUpTo_lines (done : List (List Segment)) {lines : List (List Segment)} (hr : r.Fit)
    (hlines : ∀ line ∈ lines, ∀ s ∈ line, s.Fits) (hne : lines ≠ [])
    (hn : (bytes (encodeLines r lines)).length ≤ n) :
    ∃ r', decodeUpTo { done, registers := lineStart r } n (bytes (encodeLines r lines)) = .ok r' ∧
      r'.lines = done.reverse.map List.reverse ++ lines := by
  induction lines generalizing done r n with
  | nil => exact absurd rfl hne
  | cons line lines ih =>
    have hline := hlines line (by simp)
    cases lines with
    | nil =>
      have htext : encodeLines r [line] = (encodeLine (lineStart r) line).1 := rfl
      rw [htext, ← List.append_nil (bytes _)] at hn ⊢
      obtain ⟨m, -, hread⟩ := decodeUpTo_line (r := { done, registers := lineStart r })
        (lineStart_fit hr) hline .nil hn
      rw [hread]
      refine ⟨_, by cases m <;> rfl, ?_⟩
      simp [Reading.lines]
    | cons next lines =>
      have hsemicolon : ';'.toUInt8 = 59 := by decide
      rw [encodeLines_cons] at hn ⊢
      simp only [Vlq.bytes_append, Vlq.bytes_cons, hsemicolon] at hn ⊢
      obtain ⟨m, hm, hread⟩ := decodeUpTo_line (r := { done, registers := lineStart r })
        (lineStart_fit hr) hline (.cons (by decide)) hn
      obtain ⟨m, rfl⟩ : ∃ k, m = k + 1 := ⟨m - 1, by simp at hm; omega⟩
      obtain ⟨r', hr', hresult⟩ := ih (line.reverse :: done)
        (afterLine_fit (lineStart_fit hr) hline) (fun l hl => hlines l (by simp [hl]))
        (List.cons_ne_nil _ _) (by simp at hm ⊢; omega)
      refine ⟨r', ?_, by simpa using hresult⟩
      rw [hread, ← hr']
      simp [decodeUpTo, lineStart]

/-! ## The whole text -/

theorem forall_mem_encodeLine : ∀ c ∈ (encodeLine r line).1, c.toNat < 0x80 := by
  have hsegment : ∀ (r : Registers) (s : Segment), ∀ c ∈ (encodeSegment r s).1, c.toNat < 0x80 := by
    intro r s c hc
    rw [encodeSegment_eq] at hc
    obtain ⟨d, -, hd⟩ := List.mem_flatMap.mp hc
    exact (Vlq.mem_encode hd).1
  induction line generalizing r with
  | nil => simp [encodeLine]
  | cons s line ih =>
    cases line with
    | nil => exact hsegment r s
    | cons t line =>
      rw [encodeLine_cons]
      intro c hc
      rcases List.mem_append.mp hc with hc | hc
      · exact hsegment r s c hc
      · rcases List.mem_cons.mp hc with rfl | hc
        · decide
        · exact ih c hc

theorem forall_mem_encodeLines {lines : List (List Segment)} :
    ∀ c ∈ encodeLines r lines, c.toNat < 0x80 := by
  induction lines generalizing r with
  | nil => simp [encodeLines]
  | cons line lines ih =>
    cases lines with
    | nil => exact forall_mem_encodeLine
    | cons next lines =>
      rw [encodeLines_cons]
      intro c hc
      rcases List.mem_append.mp hc with hc | hc
      · exact forall_mem_encodeLine c hc
      · rcases List.mem_cons.mp hc with rfl | hc
        · decide
        · exact ih c hc

theorem toList_loop (bs : ByteArray) (i : Nat) (acc : List UInt8) :
    ByteArray.toList.loop bs i acc = acc.reverse ++ bs.data.toList.drop i := by
  induction i, acc using ByteArray.toList.loop.induct bs with
  | case1 i acc hlt ih =>
    have hlen : i < bs.data.toList.length := hlt
    rw [ByteArray.toList.loop, if_pos hlt, ih, List.drop_eq_getElem_cons hlen]
    simp [ByteArray.get!, hlt]
  | case2 i acc hge =>
    have hlen : bs.data.toList.length ≤ i := Nat.not_lt.mp hge
    rw [ByteArray.toList.loop, if_neg hge, List.drop_eq_nil_of_le hlen, List.append_nil]

theorem toList_utf8Encode {cs : List Char} (h : ∀ c ∈ cs, c.toNat < 0x80) :
    cs.utf8Encode.data.toList = bytes cs := by
  induction cs with
  | nil => rfl
  | cons c cs ih =>
    have hc : c.utf8Size = 1 := by
      rw [Char.utf8Size_eq_one_iff, UInt32.le_iff_toNat_le]
      have := h c (by simp)
      exact Nat.le_of_lt_succ this
    rw [List.utf8Encode_cons, ByteArray.toList_data_append, ih fun d hd => h d (by simp [hd]),
      List.utf8Encode_singleton, List.toList_data_toByteArray,
      String.utf8EncodeChar_eq_singleton hc]
    rfl

/-- The bytes of a text of ASCII are its characters. -/
theorem toUTF8_ofList {cs : List Char} (h : ∀ c ∈ cs, c.toNat < 0x80) :
    (String.ofList cs).toUTF8.toList = bytes cs := by
  rw [ByteArray.toList, toList_loop, String.toUTF8, String.toByteArray_ofList,
    toList_utf8Encode h]
  rfl

/-- What every map keeps to: fields of 32 bits, segments in the order of their columns, and no empty
line at the end. -/
structure WellFormed (m : Mappings) : Prop where
  fits : ∀ line ∈ m.lines, ∀ s ∈ line, s.Fits
  sorted : ∀ line ∈ m.lines, line.Pairwise fun s t => s.column ≤ t.column
  noEmptyEnd : dropEmptyEnd m.lines = m.lines

theorem sortLine_of_sorted
    (h : line.Pairwise fun s t => s.column ≤ t.column) : sortLine line = line :=
  List.mergeSort_of_pairwise (h.imp fun hle => decide_eq_true hle)

/-- Mappings are read back from their text. -/
theorem decode_encode {m : Mappings} (h : m.WellFormed) : decode m.encode = .ok m := by
  have hbytes : m.encode.toUTF8.toList = bytes (encodeLines {} m.lines) :=
    toUTF8_ofList forall_mem_encodeLines
  have hread : ∃ r', decodeUpTo {} (bytes (encodeLines {} m.lines)).length
      (bytes (encodeLines {} m.lines)) = .ok r' ∧
      dropEmptyEnd (r'.lines.map sortLine) = m.lines := by
    by_cases hne : m.lines = []
    · refine ⟨{}, by rw [hne]; rfl, ?_⟩
      rw [hne]
      simp [Reading.lines, sortLine, dropEmptyEnd]
    · obtain ⟨r', hr', hlines⟩ := decodeUpTo_lines [] .start h.fits hne (Nat.le_refl _)
      refine ⟨r', hr', ?_⟩
      have hsorted : m.lines.map sortLine = m.lines := by
        rw [List.map_congr_left fun line hline => sortLine_of_sorted (h.sorted line hline),
          List.map_id']
      rw [hlines]
      simpa [hsorted] using h.noEmptyEnd
  obtain ⟨r', hr', hlines⟩ := hread
  have hsort : (r'.current :: r'.done).reverse.map (fun line => sortLine line.reverse) =
      r'.lines.map sortLine := by
    simp [Reading.lines]
  rw [decode, hbytes, hr', ok_bind, hsort]
  show pure (⟨dropEmptyEnd (r'.lines.map sortLine)⟩ : Mappings) = _
  rw [hlines]
  rfl

end Mappings

end Downlevel.SourceMap
