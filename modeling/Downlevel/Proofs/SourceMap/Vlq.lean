import Mathlib.Tactic.Common
import Mathlib.Tactic.Ring
import Downlevel.SourceMap.Vlq

/-! # Reading back variable-length quantities

`Digits` says that a number stands at the head of the input, and `decodeFrom_digits` what is read of
it on top of the digits that came before. `decode` so reads what `encode` wrote, whatever bytes
follow, for every number of 64 bits but the smallest, and numbers in a row come back in their order
(`decode_row`). Thirteen digits have a bit more than a word, which is cut off (`decodeAt_cuts`). -/

namespace Downlevel.SourceMap.Vlq

/-- The bytes of a text of ASCII characters. -/
def bytes (cs : List Char) : List UInt8 := cs.map Char.toUInt8

@[simp] theorem bytes_nil : bytes [] = [] := rfl

@[simp] theorem bytes_cons (c : Char) (cs : List Char) :
    bytes (c :: cs) = c.toUInt8 :: bytes cs := rfl

@[simp] theorem bytes_append (xs ys : List Char) : bytes (xs ++ ys) = bytes xs ++ bytes ys :=
  List.map_append

@[simp] theorem length_bytes (cs : List Char) : (bytes cs).length = cs.length :=
  List.length_map ..

/-! ## Digits -/

theorem digitValue?_digit {n : Nat} (h : n < 64) : digitValue? (digit n).toUInt8 = some n :=
  (by decide +kernel : ∀ n : Fin 64, digitValue? (digit n).toUInt8 = some n.val) ⟨n, h⟩

/-- What holds of every digit holds of every character that is written for a number. -/
theorem forall_mem_encodeWord {P : Char → Prop} (h : ∀ n < 64, P (digit n)) (word : Nat) :
    ∀ c ∈ encodeWord word, P c := by
  induction word using encodeWord.induct with
  | case1 word hlt =>
    rw [encodeWord, dif_pos hlt]
    intro c hc
    rw [List.mem_singleton.mp hc]
    exact h word (by omega)
  | case2 word hge ih =>
    rw [encodeWord, dif_neg hge]
    intro c hc
    rcases List.mem_cons.mp hc with rfl | hc
    · exact h _ (by omega)
    · exact ih c hc

/-- Digits are ASCII, and no separators of mappings. -/
theorem mem_encode {value : Int} {c : Char} (h : c ∈ encode value) :
    c.toNat < 0x80 ∧ c.toUInt8 ≠ 44 ∧ c.toUInt8 ≠ 59 := by
  refine forall_mem_encodeWord (P := fun c => c.toNat < 0x80 ∧ c.toUInt8 ≠ 44 ∧ c.toUInt8 ≠ 59)
    ?_ _ c h
  intro n hn
  exact (by decide +kernel : ∀ n : Fin 64, (digit n).toNat < 0x80 ∧ (digit n).toUInt8 ≠ 44 ∧
    (digit n).toUInt8 ≠ 59) ⟨n, hn⟩

theorem encode_ne_nil (value : Int) : encode value ≠ [] := by
  rw [encode, encodeWord]
  split <;> exact List.cons_ne_nil _ _

/-! ## Words -/

theorem ofWord_toWord {value : Int} (h : value.natAbs < 0x8000000000000000) :
    ofWord (toWord value) = value := by
  unfold toWord ofWord words
  split <;> split <;> omega

theorem toWord_lt (value : Int) : toWord value < words :=
  Nat.mod_lt _ (by decide)

/-! ## Digits of a number -/

/-- A number stands at the head of the input, with these digits: all but the last say that more
follow. -/
inductive Digits : List UInt8 → List Nat → Prop where
  | last {byte : UInt8} {d : Nat} {rest : List UInt8} (h : digitValue? byte = some d)
      (hd : d < 32) :
      Digits (byte :: rest) [d]
  | more {byte : UInt8} {d : Nat} {rest : List UInt8} {ds : List Nat}
      (h : digitValue? byte = some d) (hd : 32 ≤ d) (hrest : Digits rest ds) :
      Digits (byte :: rest) (d :: ds)

/-- What digits come to, lowest first, with nothing cut off. -/
def worth : List Nat → Nat
  | [] => 0
  | d :: ds => d % 32 + 32 * worth ds

variable {input : List UInt8} {ds : List Nat} {count word : Nat}

/-- The digits of a number are read on top of those that came before them, up to the thirteenth. -/
theorem decodeFrom_digits (h : Digits input ds) (hcount : count ≤ 13) :
    decodeFrom count word input =
      if count + ds.length ≤ 13 then
        ⟨.ok (ofWord ((word + worth ds * 32 ^ count) % words)), count + ds.length⟩
      else ⟨.error .overflow, 14⟩ := by
  induction h generalizing count word with
  | last hdigit hd =>
    rw [decodeFrom, hdigit]
    by_cases hroom : 13 ≤ count
    · simp [show count = 13 by omega]
    · simp [hroom, hd, worth, show count + 1 ≤ 13 by omega]
  | @more byte d rest ds hdigit hd hrest ih =>
    have hpos : 0 < ds.length := by cases hrest <;> exact Nat.succ_pos _
    rw [decodeFrom, hdigit]
    by_cases hroom : 13 ≤ count
    · simp [show count = 13 by omega]
    · have hsum : word + d % 32 * 32 ^ count + worth ds * 32 ^ (count + 1) =
          word + (d % 32 + 32 * worth ds) * 32 ^ count := by ring
      dsimp only
      rw [if_neg hroom, if_neg (by omega), ih (by omega), Nat.pow_eq, Nat.mod_add_mod, hsum,
        List.length_cons, worth, show count + 1 + ds.length = count + (ds.length + 1) by omega]

/-- What is read without error is a number. -/
theorem digits_of_decodeFrom {v : Int} (h : (decodeFrom count word input).result = .ok v) :
    ∃ ds, Digits input ds := by
  induction input generalizing count word with
  | nil => cases h
  | cons byte rest ih =>
    rw [decodeFrom] at h
    cases hdigit : digitValue? byte with
    | none => simp [hdigit] at h
    | some d =>
      by_cases hd : d < 32
      · exact ⟨_, .last hdigit hd⟩
      · by_cases hroom : 13 ≤ count
        · simp [hdigit, hroom] at h
        · simp only [hdigit, hroom, hd, if_false] at h
          obtain ⟨ds, hds⟩ := ih h
          exact ⟨_, .more hdigit (by omega) hds⟩

/-- Input that ends before the last digit does. -/
theorem Digits.cut (h : Digits input ds) {n : Nat} (hn : n < ds.length) (hroom : count + n ≤ 13) :
    decodeFrom count word (input.take n) = ⟨.error .unexpectedEnd, count + n⟩ := by
  induction h generalizing count word n with
  | last =>
    obtain rfl : n = 0 := by simpa using hn
    rfl
  | more hdigit hd _ ih =>
    cases n with
    | zero => rfl
    | succ n =>
      rw [List.take_succ_cons, decodeFrom, hdigit]
      dsimp only
      rw [if_neg (by omega), if_neg (by omega), ih (by simpa using hn) (by omega),
        Nat.add_right_comm, Nat.add_assoc]

/-- What is written for a word are digits of this worth. -/
theorem digits_encodeWord (word : Nat) (rest : List UInt8) :
    ∃ ds, Digits (bytes (encodeWord word) ++ rest) ds ∧ worth ds = word ∧
      ds.length = (encodeWord word).length := by
  induction word using encodeWord.induct with
  | case1 word hlt =>
    rw [encodeWord, dif_pos hlt]
    exact ⟨[word], .last (digitValue?_digit (by omega)) hlt, by simp [worth]; omega, rfl⟩
  | case2 word hge ih =>
    obtain ⟨ds, hds, hworth, hlength⟩ := ih
    rw [encodeWord, dif_neg hge]
    refine ⟨_, .more (digitValue?_digit (by omega)) (by omega) hds, ?_, by simp [hlength]⟩
    rw [worth, hworth]
    omega

/-- Each digit takes five bits. -/
theorem length_encodeWord_le (h : word < 32 ^ (count + 1)) :
    (encodeWord word).length ≤ count + 1 := by
  induction count generalizing word with
  | zero => rw [encodeWord, dif_pos (by simpa using h), List.length_singleton]
  | succ count ih =>
    rw [encodeWord]
    split
    · simp
    · have hrest : word / 32 < 32 ^ (count + 1) := by
        rw [Nat.div_lt_iff_lt_mul (by decide), ← Nat.pow_succ]
        exact h
      exact Nat.succ_le_succ (ih hrest)

theorem length_encode_le (value : Int) : (encode value).length ≤ 13 :=
  length_encodeWord_le (Nat.lt_trans (toWord_lt value) (by decide))

/-! ## Reading back -/

/-- A number is read back from its digits, whatever follows them. -/
theorem decode_encode {value : Int} (h : value.natAbs < 0x8000000000000000) (rest : List UInt8) :
    decode (bytes (encode value) ++ rest) = ⟨.ok value, (encode value).length⟩ := by
  obtain ⟨ds, hds, hworth, hlength⟩ := digits_encodeWord (toWord value) rest
  have hle : (encodeWord (toWord value)).length ≤ 13 := length_encode_le value
  rw [decode, encode, decodeFrom_digits hds (by decide), hworth, hlength, if_pos (by omega)]
  simp [Nat.mod_eq_of_lt (toWord_lt value), ofWord_toWord h]

/-! ## Numbers in a row -/

/-- The number at a position of the input, and the position after it. -/
def decodeAt (input : List UInt8) (pos : Nat) : Except DecodeError Int × Nat :=
  ((decode (input.drop pos)).result, pos + (decode (input.drop pos)).consumed)

def encodeAll (values : List Int) : List Char := values.flatMap encode

theorem length_le_encodeAll (values : List Int) : values.length ≤ (encodeAll values).length := by
  induction values with
  | nil => exact Nat.le_refl 0
  | cons v values ih =>
    have hpos := List.length_pos_iff.mpr (encode_ne_nil v)
    simp only [encodeAll, List.flatMap_cons, List.length_append, List.length_cons] at ih ⊢
    omega

theorem decodeUpTo_encodeAll {values : List Int} (h : ∀ v ∈ values, v.natAbs < 0x8000000000000000)
    {n : Nat} (hn : values.length ≤ n) :
    decodeUpTo n (bytes (encodeAll values)) =
      { values, consumed := (encodeAll values).length } := by
  induction values generalizing n with
  | nil => cases n <;> rfl
  | cons v values ih =>
    obtain ⟨hv, hvalues⟩ := List.forall_mem_cons.mp h
    obtain ⟨n, rfl⟩ := Nat.exists_eq_add_of_lt hn
    have hne : bytes (encodeAll (v :: values)) ≠ [] := by
      simp [bytes, encodeAll, encode_ne_nil]
    have hread : decode (bytes (encodeAll (v :: values))) = ⟨.ok v, (encode v).length⟩ := by
      rw [encodeAll, List.flatMap_cons, bytes_append, decode_encode hv]
    have hdrop :
        (bytes (encodeAll (v :: values))).drop (encode v).length = bytes (encodeAll values) := by
      rw [encodeAll, List.flatMap_cons, bytes_append, List.drop_left' (length_bytes _)]
      rfl
    rw [decodeUpTo.eq_3 _ _ (by simpa using hne)]
    simp only [hread, hdrop, ih hvalues (Nat.le_add_right ..)]
    simp [encodeAll]

/-- Numbers written in a row are read back in their order, each from where the one before it ends.
What is written for a number are 1 to 13 digits, and less than all of them are no number. -/
theorem decode_row {values : List Int} (h : ∀ v ∈ values, v.natAbs < 0x8000000000000000) :
    decodeAll (bytes (encodeAll values)) = { values, consumed := (encodeAll values).length } ∧
    (∀ before v after, values = before ++ v :: after →
      decodeAt (bytes (encodeAll values)) (encodeAll before).length =
        (.ok v, (encodeAll (before ++ [v])).length)) ∧
    ∀ v, 1 ≤ (encode v).length ∧ (encode v).length ≤ 13 ∧ (∀ c ∈ encode v, c ∈ alphabet) ∧
      ∀ n < (encode v).length,
        decode (bytes ((encode v).take n)) = ⟨.error .unexpectedEnd, n⟩ := by
  refine ⟨?_, ?_, fun v => ⟨?_, length_encode_le v, ?_, ?_⟩⟩
  · refine decodeUpTo_encodeAll h ?_
    rw [length_bytes]
    exact length_le_encodeAll values
  · rintro before v after rfl
    have hdrop : (bytes (encodeAll (before ++ v :: after))).drop (encodeAll before).length =
        bytes (encode v) ++ bytes (encodeAll after) := by
      simp [encodeAll]
    rw [decodeAt, hdrop, decode_encode (h v (by simp))]
    simp [encodeAll]
  · exact List.length_pos_iff.mpr (encode_ne_nil v)
  · refine forall_mem_encodeWord (fun n hn => ?_) (toWord v)
    exact (by decide +kernel : ∀ n : Fin 64, digit n ∈ alphabet) ⟨n, hn⟩
  · intro n hn
    obtain ⟨ds, hds, -, hlength⟩ := digits_encodeWord (toWord v) []
    have hle := length_encode_le v
    rw [List.append_nil] at hds
    have hcut : decodeFrom 0 0 ((bytes (encode v)).take n) = ⟨.error .unexpectedEnd, 0 + n⟩ :=
      hds.cut (by rw [hlength]; exact hn) (by omega)
    simpa [decode, bytes] using hcut

/-- The greatest numbers, of whose thirteenth digit only four bits are used. -/
theorem decode_row_bounds :
    let values := [0x7FFFFFFFFFFFFFFF, -0x7FFFFFFFFFFFFFFF, 0, -16]
    decodeAll (bytes (encodeAll values)) = { values, consumed := (encodeAll values).length } :=
  (decode_row (by decide)).1

/-! ## Bits that are cut off -/

/-- The word stands for the number: its lowest bit is the sign, and the others are the size. -/
def StandsFor (word : Nat) (v : Int) : Prop :=
  word / 2 = v.natAbs ∧ if word % 2 = 1 then v ≤ 0 else 0 ≤ v

theorem standsFor_iff {word : Nat} {v : Int} : StandsFor word v ↔ ofWord word = v := by
  unfold StandsFor ofWord
  split <;> omega

theorem worth_lt (ds : List Nat) : worth ds < 32 ^ ds.length := by
  induction ds with
  | nil => exact Nat.one_pos
  | cons d ds ih =>
    rw [worth, List.length_cons, Nat.pow_succ]
    omega

theorem worth_concat (ds : List Nat) (d : Nat) :
    worth (ds ++ [d]) = worth ds + d % 32 * 32 ^ ds.length := by
  induction ds with
  | nil => simp [worth]
  | cons e ds ih =>
    rw [List.cons_append, worth, ih, worth, List.length_cons]
    ring

/-- Thirteen digits fit in a word as long as the last of them has four bits. -/
theorem worth_lt_words_iff (h : ds.length ≤ 13) :
    worth ds < words ↔ ∀ d ∈ ds[12]?, d % 32 < 16 := by
  by_cases hshort : ds.length ≤ 12
  · have hlt := worth_lt ds
    have hpow : 32 ^ ds.length ≤ 32 ^ 12 := Nat.pow_le_pow_right (by decide) hshort
    have hwords : 32 ^ 12 < words := by decide
    rw [List.getElem?_eq_none hshort]
    exact ⟨nofun, fun _ => by omega⟩
  · rcases List.eq_nil_or_concat ds with rfl | ⟨front, d, rfl⟩
    · cases hshort (Nat.zero_le _)
    · rw [List.concat_eq_append] at h hshort ⊢
      rw [List.length_append, List.length_singleton] at h hshort
      have hfront : front.length = 12 := by omega
      have hfirst := worth_lt front
      rw [worth_concat, List.getElem?_append_right (by omega)]
      simp only [hfront, words, Nat.sub_self, List.getElem?_cons_zero, Option.mem_some_iff,
        forall_eq'] at hfirst ⊢
      omega

/-- A number of at most thirteen digits is read, up to the bits of its sum beyond the sixty-fourth,
and one of more is refused. The sum fits in 64 bits unless the thirteenth digit is too large. -/
theorem decodeAt_cuts (input : List UInt8) (pos : Nat) :
    (∀ v stop, decodeAt input pos = (.ok v, stop) ↔ ∃ ds, Digits (input.drop pos) ds ∧
      ds.length ≤ 13 ∧ stop = pos + ds.length ∧ StandsFor (worth ds % words) v) ∧
    ∀ ds, Digits (input.drop pos) ds →
      if ds.length ≤ 13 then worth ds < words ↔ ∀ d ∈ ds[12]?, d % 32 < 16
      else decodeAt input pos = (.error .overflow, pos + 14) := by
  have hread : ∀ {ds}, Digits (input.drop pos) ds → decodeAt input pos =
      if ds.length ≤ 13 then (.ok (ofWord (worth ds % words)), pos + ds.length)
      else (.error .overflow, pos + 14) := by
    intro ds hds
    rw [decodeAt, decode, decodeFrom_digits hds (by decide)]
    split <;> simp_all
  refine ⟨fun v stop => ⟨fun h => ?_, ?_⟩, fun ds hds => ?_⟩
  · obtain ⟨ds, hds⟩ := digits_of_decodeFrom (congrArg Prod.fst h)
    rw [hread hds] at h
    split at h
    · rename_i hle
      simp only [Prod.mk.injEq, Except.ok.injEq] at h
      exact ⟨ds, hds, hle, h.2.symm, standsFor_iff.mpr h.1⟩
    · cases h
  · rintro ⟨ds, hds, hle, rfl, hstands⟩
    rw [hread hds, if_pos hle, standsFor_iff.mp hstands]
  · split
    · exact worth_lt_words_iff ‹_›
    · rw [hread hds, if_neg ‹_›]

/-- A bit beyond the sixty-fourth is cut off, and the number is read as zero. -/
theorem decodeAt_loses : ¬ ∀ (input : List UInt8) (pos : Nat) (v : Int) (stop : Nat)
    (ds : List Nat),
    decodeAt input pos = (.ok v, stop) → Digits (input.drop pos) ds → worth ds < words := by
  intro h
  have hread : decodeAt (bytes "ggggggggggggQ".toList) 0 = (.ok 0, 13) := by decide
  have hds : Digits (bytes "ggggggggggggQ".toList) (List.replicate 12 32 ++ [16]) := by
    iterate 12 refine .more rfl (by decide) ?_
    exact .last rfl (by decide)
  exact absurd (h _ 0 _ _ _ hread hds) (by decide)

end Downlevel.SourceMap.Vlq
