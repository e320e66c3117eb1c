import Downlevel.Text.Point
import Downlevel.Text.Span

/-!
# Places of a text

An offset is a place of a text when it falls between two of its characters. Two places in order cut
the text in three (`Place.split`), so that `slice?` between them answers the middle part, and slices
that meet join (`between_append`). A place determines what stands before it, which makes every
question about offsets one about prefixes.
-/

namespace Downlevel.Text

variable {text : List Char} {a b n : Nat}

/-! ## Sizes -/

theorem size_eq_zero {cs : List Char} : size cs = 0 ↔ cs = [] := by
  cases cs with
  | nil => simp
  | cons c cs =>
    have hpos : 0 < c.utf8Size := c.utf8Size_pos
    simp only [size_cons, reduceCtorEq, iff_false]
    omega

theorem size_pos {cs : List Char} (h : cs ≠ []) : 0 < size cs :=
  Nat.pos_of_ne_zero fun hzero => h (size_eq_zero.mp hzero)

@[simp] theorem utf8ByteSize_eq_size (s : String) : s.utf8ByteSize = size s.toList := by
  have h : ∀ cs : List Char, cs.utf8Encode.size = size cs := by
    intro cs
    induction cs with
    | nil => rfl
    | cons c cs ih =>
      rw [List.utf8Encode_cons, ByteArray.size_append, ih, List.utf8Encode_singleton]
      simp [String.length_utf8EncodeChar]
  rw [← h, ← String.toByteArray_ofList, String.ofList_toList, String.size_toByteArray]

/-- Of two beginnings of one text, the one that is not larger is a beginning of the other. -/
theorem prefix_of_size_le {xs ys xs' ys' : List Char} (h : xs ++ ys = xs' ++ ys')
    (hle : size xs ≤ size xs') : ∃ mid, xs' = xs ++ mid ∧ ys = mid ++ ys' := by
  rcases List.append_eq_append_iff.mp h with ⟨mid, rfl, rfl⟩ | ⟨mid, rfl, rfl⟩
  · exact ⟨mid, rfl, rfl⟩
  · have hmid : size mid = 0 := by
      simp only [size_append] at hle
      omega
    rw [size_eq_zero] at hmid
    subst hmid
    exact ⟨[], by simp, by simp⟩

theorem prefix_inj {xs ys xs' ys' : List Char} (h : xs ++ ys = xs' ++ ys')
    (hsize : size xs = size xs') : xs = xs' ∧ ys = ys' := by
  obtain ⟨mid, rfl, rfl⟩ := prefix_of_size_le h (Nat.le_of_eq hsize)
  have hmid : size mid = 0 := by
    simp only [size_append] at hsize
    omega
  rw [size_eq_zero] at hmid
  subst hmid
  exact ⟨by simp, by simp⟩

/-! ## Places -/

/-- The offset `n` falls between two characters of the text, or at one of its ends. -/
def Place (text : List Char) (n : Nat) : Prop :=
  ∃ before rest, text = before ++ rest ∧ size before = n

theorem Place.zero (text : List Char) : Place text 0 := ⟨[], text, rfl, rfl⟩

theorem Place.end (text : List Char) : Place text (size text) := ⟨text, [], by simp, rfl⟩

theorem Point.In.place {p : Point} (h : p.In text) : Place text p.offset := by
  obtain ⟨before, htext, hsize⟩ := h
  exact ⟨before, p.rest, htext, hsize⟩

theorem Place.le_size (h : Place text n) : n ≤ size text := by
  obtain ⟨before, rest, rfl, rfl⟩ := h
  simp

theorem Place.append (h : Place text n) (after : List Char) :
    Place (text ++ after) n := by
  obtain ⟨before, rest, rfl, rfl⟩ := h
  exact ⟨before, rest ++ after, List.append_assoc .., rfl⟩

theorem Place.shift (h : Place text n) (before : List Char) :
    Place (before ++ text) (size before + n) := by
  obtain ⟨pre, rest, rfl, rfl⟩ := h
  exact ⟨before ++ pre, rest, by simp, by simp⟩

/-- Two places in order cut the text in three. -/
theorem Place.split (ha : Place text a) (hb : Place text b) (hle : a ≤ b) :
    ∃ pre mid post, text = pre ++ (mid ++ post) ∧ size pre = a ∧ size pre + size mid = b := by
  obtain ⟨pre, rest, rfl, rfl⟩ := ha
  obtain ⟨before, post, htext, rfl⟩ := hb
  obtain ⟨mid, rfl, rfl⟩ := prefix_of_size_le htext hle
  exact ⟨pre, mid, post, rfl, rfl, by simp⟩

theorem drop?_eq_some {rest : List Char} (h : drop? n text = some rest) :
    ∃ before, text = before ++ rest ∧ size before = n := by
  fun_induction drop? n text with
  | case1 cs => exact ⟨[], Option.some.inj h, rfl⟩
  | case2 => cases h
  | case3 n c cs hn hle ih =>
    obtain ⟨before, rfl, hsize⟩ := ih h
    exact ⟨c :: before, rfl, by rw [size_cons]; omega⟩
  | case4 => cases h

theorem take?_eq_some {before : List Char} (h : take? n text = some before) :
    ∃ rest, text = before ++ rest ∧ size before = n := by
  fun_induction take? n text generalizing before with
  | case1 cs => exact ⟨cs, by rw [← Option.some.inj h]; rfl, by rw [← Option.some.inj h]; rfl⟩
  | case2 => cases h
  | case3 n c cs hn hle ih =>
    obtain ⟨mid, hmid, rfl⟩ := Option.map_eq_some_iff.mp h
    obtain ⟨rest, rfl, hsize⟩ := ih hmid
    exact ⟨rest, rfl, by rw [size_cons]; omega⟩
  | case4 => cases h

theorem place_of_slice? {mid : List Char} (h : slice? a b text = some mid) :
    Place text b := by
  rw [slice?, Option.ite_none_right_eq_some] at h
  obtain ⟨hle, h⟩ := h
  obtain ⟨cs, hdrop, htake⟩ := Option.bind_eq_some_iff.mp h
  obtain ⟨before, rfl, hbefore⟩ := drop?_eq_some hdrop
  obtain ⟨rest, rfl, hmid⟩ := take?_eq_some htake
  exact ⟨before ++ mid, rest, by simp, by rw [size_append]; omega⟩

/-- The text between two offsets, empty when it is no slice. -/
def between (text : List Char) (a b : Nat) : List Char := (slice? a b text).getD []

theorem between_of_split (pre mid post : List Char) :
    between (pre ++ (mid ++ post)) (size pre) (size pre + size mid) = mid := by
  rw [between, slice?_append, Option.getD_some]

theorem size_between (ha : Place text a) (hb : Place text b) (hle : a ≤ b) :
    size (between text a b) = b - a := by
  obtain ⟨pre, mid, post, rfl, rfl, rfl⟩ := ha.split hb hle
  rw [between_of_split]
  omega

theorem between_self (ha : Place text a) : between text a a = [] := by
  rw [← size_eq_zero, size_between ha ha (Nat.le_refl a), Nat.sub_self]

theorem between_append {c : Nat} (ha : Place text a) (hb : Place text b) (hc : Place text c)
    (hab : a ≤ b) (hbc : b ≤ c) :
    between text a b ++ between text b c = between text a c := by
  obtain ⟨pre, mid, post, rfl, rfl, rfl⟩ := ha.split hb hab
  obtain ⟨pre', mid', post', htext, hpre', rfl⟩ := hb.split hc hbc
  rw [← List.append_assoc] at htext
  obtain ⟨rfl, rfl⟩ := prefix_inj htext (by simp [hpre'])
  have hfirst : between (pre ++ (mid ++ (mid' ++ post'))) (size pre) (size pre + size mid) = mid :=
    between_of_split _ _ _
  have hsecond := between_of_split (pre ++ mid) mid' post'
  have hwhole := between_of_split pre (mid ++ mid') post'
  simp only [List.append_assoc, size_append, ← Nat.add_assoc] at hsecond hwhole ⊢
  rw [hfirst, hsecond, hwhole]

theorem between_zero_size (text : List Char) : between text 0 (size text) = text := by
  have h := between_of_split [] text []
  simpa using h

end Downlevel.Text

namespace Downlevel

/-- The span is a stretch of the text. -/
structure Span.Fits (text : List Char) (s : Span) : Prop where
  start : Text.Place text s.start
  stop : Text.Place text s.stop
  le : s.start ≤ s.stop

theorem Span.fits_of_places {text : List Char} {start stop : Nat} (hstart : Text.Place text start)
    (hstop : Text.Place text stop) : Span.Fits text ⟨start, max start stop⟩ := by
  refine ⟨hstart, ?_, Nat.le_max_left ..⟩
  rcases Nat.le_total start stop with hle | hle
  · simpa [hle] using hstop
  · simpa [hle] using hstart

/-- The offsets of the span are the same when they are stored in 32 bits. -/
def Span.Exact (s : Span) : Prop := ofOffsets s.start s.stop = s

theorem Span.exact_of_le {start stop : Nat} (hstart : start ≤ maxOffset)
    (hstop : stop ≤ maxOffset) :
    (Span.mk start stop).Exact := by
  rw [Exact, ofOffsets, Nat.min_eq_left hstart, Nat.min_eq_left hstop]

theorem Span.Fits.exact {text : List Char} {s : Span} (h : s.Fits text)
    (hsize : Text.size text ≤ maxOffset) : s.Exact :=
  exact_of_le (Nat.le_trans h.start.le_size hsize) (Nat.le_trans h.stop.le_size hsize)

theorem Span.text_eq_between (s : Span) (text : List Char) :
    s.text text = Text.between text s.start s.stop := rfl

end Downlevel
