import Mathlib.Data.List.Induction
import Mathlib.Data.List.TakeWhile
import Mathlib.Tactic.Common
import Downlevel.Proofs.Text.Offset
import Downlevel.Text.LineIndex

/-!
# What a line index answers

A line index is made by one pass over a text, and asked with arithmetic on the starts of lines. Here
both directions are tied to what stands before a place: its line is the number of line feeds there,
and its column the units after the last of them (`position?_place`). From that, a position
determines its place (`positionOf_inj`), and `offset?` takes it back there (`offset?_positionOf`).
The offsets of a text that have a position are exactly those that come back (`position?_inverts`).

The starts of lines split at a place into those at or before it and those after it
(`scan_starts_append`), and a line that is not listed as wide holds ASCII alone (`mem_wide`): these
two facts carry everything.
-/

namespace Downlevel

variable {cs text ys : List Char} {offset : Nat} {before rest xs xs' ys' : List Char} {c : Char}
  {line : Nat}

/-- The position is not behind the other: its line is earlier, or its column on the same line is no
later. -/
def Position.Le (p q : Position) : Prop :=
  p.line < q.line ∨ p.line = q.line ∧ p.column ≤ q.column

/-- The position is before the other, by line and on one line by column. -/
def Position.Lt (p q : Position) : Prop :=
  p.line < q.line ∨ p.line = q.line ∧ p.column < q.column

end Downlevel

namespace Downlevel.Text

/-! ## Units -/

@[simp] theorem unitSize_nil : unitSize [] = 0 := rfl

@[simp] theorem unitSize_cons (c : Char) (cs : List Char) :
    unitSize (c :: cs) = units c + unitSize cs := rfl

@[simp] theorem unitSize_append (xs ys : List Char) :
    unitSize (xs ++ ys) = unitSize xs + unitSize ys := by
  induction xs with
  | nil => simp
  | cons c cs ih => simp [ih, Nat.add_assoc]

theorem units_pos (c : Char) : 0 < units c := by
  unfold units
  split <;> decide

theorem units_le_utf8Size (c : Char) : units c ≤ c.utf8Size := by
  have hpos : 0 < c.utf8Size := c.utf8Size_pos
  unfold units
  split
  · exact hpos
  · rename_i hwide
    have hfour : c.utf8Size = 4 := by
      rw [Char.utf8Size_eq_four_iff, UInt32.lt_iff_toNat_lt]
      exact Nat.lt_of_lt_of_le (by decide) (Nat.not_lt.mp hwide)
    omega

theorem unitSize_le_size (cs : List Char) : unitSize cs ≤ size cs := by
  induction cs with
  | nil => simp
  | cons c cs ih =>
    have hc := units_le_utf8Size c
    simp only [unitSize_cons, size_cons]
    omega

theorem unitSize_eq_zero : unitSize cs = 0 ↔ cs = [] := by
  cases cs with
  | nil => simp
  | cons c cs =>
    have hpos := units_pos c
    simp only [unitSize_cons, reduceCtorEq, iff_false]
    omega

theorem units_eq_utf8Size_of_ascii (h : c.toNat < 0x80) : units c = c.utf8Size := by
  have hone : c.utf8Size = 1 := by
    rw [Char.utf8Size_eq_one_iff, UInt32.le_iff_toNat_le]
    exact Nat.le_of_lt_succ h
  rw [hone, units, if_pos (Nat.lt_trans h (by decide))]

theorem unitSize_eq_size_of_ascii (h : ∀ c ∈ cs, c.toNat < 0x80) :
    unitSize cs = size cs := by
  induction cs with
  | nil => rfl
  | cons c cs ih =>
    rw [unitSize_cons, size_cons, units_eq_utf8Size_of_ascii (h c (by simp)),
      ih fun d hd => h d (by simp [hd])]

/-! ## Positions of prefixes -/

/-- What stands after the last line feed. -/
def lastLine (cs : List Char) : List Char := (cs.reverse.takeWhile (· != '\n')).reverse

/-- The position after a beginning of a text. -/
def positionOf (before : List Char) : Position :=
  ⟨before.count '\n', unitSize (lastLine before)⟩

theorem lastLine_of_noFeed (h : '\n' ∉ cs) : lastLine cs = cs := by
  have hall : ∀ c ∈ cs.reverse, (c != '\n') = true := by
    intro c hc
    have hmem : c ∈ cs := List.mem_reverse.mp hc
    simp only [bne_iff_ne, ne_eq]
    rintro rfl
    exact h hmem
  rw [lastLine, List.takeWhile_eq_self_iff.mpr hall, List.reverse_reverse]

theorem lastLine_append_feed (xs ys : List Char) (h : '\n' ∉ ys) :
    lastLine (xs ++ '\n' :: ys) = ys := by
  have hall : ∀ c ∈ ys.reverse, (c != '\n') = true := by
    intro c hc
    have hmem : c ∈ ys := List.mem_reverse.mp hc
    simp only [bne_iff_ne, ne_eq]
    rintro rfl
    exact h hmem
  rw [lastLine, List.reverse_append, List.reverse_cons, List.append_assoc,
    List.takeWhile_append_of_pos hall]
  simp

/-- A text is one line, or its last line stands behind a line feed. -/
theorem lastLine_cases (cs : List Char) :
    ('\n' ∉ cs ∧ lastLine cs = cs) ∨
      ∃ front, cs = front ++ '\n' :: lastLine cs ∧ '\n' ∉ lastLine cs := by
  induction cs using List.reverseRecOn with
  | nil => exact .inl ⟨by simp, rfl⟩
  | append_singleton cs c ih =>
    by_cases hc : c = '\n'
    · subst hc
      have hlast : lastLine (cs ++ ['\n']) = [] := lastLine_append_feed cs [] (by simp)
      exact .inr ⟨cs, by rw [hlast], by simp [hlast]⟩
    · rcases ih with ⟨hno, -⟩ | ⟨front, hfront, hno⟩
      · have hno' : '\n' ∉ cs ++ [c] := by simp [hno, Ne.symm hc]
        exact .inl ⟨hno', lastLine_of_noFeed hno'⟩
      · have hno' : '\n' ∉ lastLine cs ++ [c] := by simp [hno, Ne.symm hc]
        have hlast : lastLine (cs ++ [c]) = lastLine cs ++ [c] := by
          conv_lhs => rw [hfront]
          rw [List.append_assoc, List.cons_append, lastLine_append_feed _ _ hno']
        refine .inr ⟨front, ?_, by rw [hlast]; exact hno'⟩
        rw [hlast, ← List.cons_append, ← List.append_assoc, ← hfront]

theorem lastLine_append_of_noFeed (xs : List Char) (h : '\n' ∉ ys) :
    lastLine (xs ++ ys) = lastLine xs ++ ys := by
  rcases lastLine_cases xs with ⟨hno, hlast⟩ | ⟨front, hfront, hno⟩
  · rw [hlast, lastLine_of_noFeed]
    simp [hno, h]
  · conv_lhs => rw [hfront]
    rw [List.append_assoc, List.cons_append, lastLine_append_feed]
    simp [hno, h]

theorem exists_front (cs : List Char) :
    ∃ front, cs = front ++ lastLine cs ∧ size cs - size (lastLine cs) = size front := by
  have hsize : ∀ front, cs = front ++ lastLine cs → size cs - size (lastLine cs) = size front := by
    intro front hfront
    have hsum := congrArg size hfront
    rw [size_append] at hsum
    omega
  rcases lastLine_cases cs with ⟨-, hlast⟩ | ⟨front, hfront, -⟩
  · have hnil : cs = [] ++ lastLine cs := by rw [hlast, List.nil_append]
    exact ⟨[], hnil, hsize _ hnil⟩
  · rw [List.append_cons] at hfront
    exact ⟨front ++ ['\n'], hfront, hsize _ hfront⟩

theorem size_lastLine_le (cs : List Char) : size (lastLine cs) ≤ size cs := by
  obtain ⟨front, hfront, -⟩ := exists_front cs
  have hsum := congrArg size hfront
  rw [size_append] at hsum
  omega

theorem count_le_size (cs : List Char) : cs.count '\n' ≤ size cs := by
  induction cs with
  | nil => simp
  | cons c cs ih =>
    have hpos : 0 < c.utf8Size := c.utf8Size_pos
    rw [List.count_cons, size_cons]
    split <;> omega

theorem positionOf_line_le (before : List Char) : (positionOf before).line ≤ size before :=
  count_le_size before

theorem positionOf_column_le (before : List Char) : (positionOf before).column ≤ size before :=
  Nat.le_trans (unitSize_le_size _) (size_lastLine_le before)

/-- What stands later has a later position. -/
theorem positionOf_lt_append (before : List Char) {mid : List Char} (h : mid ≠ []) :
    (positionOf before).Lt (positionOf (before ++ mid)) := by
  by_cases hno : '\n' ∈ mid
  · left
    have hpos := List.count_pos_iff.mpr hno
    simp only [positionOf, List.count_append]
    omega
  · right
    have hpos : unitSize mid ≠ 0 := fun hzero => h (unitSize_eq_zero.mp hzero)
    simp only [positionOf, List.count_append, List.count_eq_zero.mpr hno,
      lastLine_append_of_noFeed before hno, unitSize_append]
    omega

theorem positionOf_lt (h : xs ++ ys = xs' ++ ys') (hlt : size xs < size xs') :
    (positionOf xs).Lt (positionOf xs') := by
  obtain ⟨mid, rfl, -⟩ := prefix_of_size_le h (Nat.le_of_lt hlt)
  refine positionOf_lt_append xs ?_
  rintro rfl
  simp at hlt

theorem positionOf_mono (h : xs ++ ys = xs' ++ ys') (hle : size xs ≤ size xs') :
    (positionOf xs).Le (positionOf xs') := by
  rcases Nat.lt_or_eq_of_le hle with hlt | heq
  · have := positionOf_lt h hlt
    simp only [Position.Lt, Position.Le] at *
    omega
  · rw [(prefix_inj h heq).1]
    exact .inr ⟨rfl, Nat.le_refl _⟩

theorem positionOf_inj (h : xs ++ ys = xs' ++ ys') (hpos : positionOf xs = positionOf xs') :
    xs = xs' := by
  have hnot : ¬ (positionOf xs').Lt (positionOf xs') := by
    simp only [Position.Lt]
    omega
  rcases Nat.lt_trichotomy (size xs) (size xs') with hlt | heq | hgt
  · have := positionOf_lt h hlt
    exact absurd (by rwa [hpos] at this) hnot
  · exact (prefix_inj h heq).1
  · have := positionOf_lt h.symm hgt
    exact absurd (by rwa [hpos] at this) hnot

namespace LineIndex

/-! ## The pass over the text -/

@[simp] theorem scan_nil (offset line : Nat) : scan offset line [] = ([], []) := rfl

theorem scan_feed (offset line : Nat) (cs : List Char) :
    scan offset line ('\n' :: cs) =
      ((offset + 1) :: (scan (offset + 1) (line + 1) cs).1, (scan (offset + 1) (line + 1) cs).2) :=
  rfl

theorem scan_cons_starts (hc : c ≠ '\n') (offset line : Nat) (cs : List Char) :
    (scan offset line (c :: cs)).1 = (scan (offset + c.utf8Size) line cs).1 := by
  simp [scan, hc]

/-- The starts of lines in a text do not hang on the number of its first line. -/
theorem scan_starts_append (xs ys : List Char) (offset line : Nat) :
    (scan offset line (xs ++ ys)).1 =
      (scan offset line xs).1 ++ (scan (offset + Text.size xs) (line + xs.count '\n') ys).1 := by
  induction xs generalizing offset line with
  | nil => simp
  | cons c cs ih =>
    by_cases hc : c = '\n'
    · subst hc
      have hone : '\n'.utf8Size = 1 := by decide
      rw [List.cons_append, scan_feed, scan_feed, ih, size_cons, List.count_cons_self, hone]
      simp only [List.cons_append, Nat.add_assoc, Nat.add_comm 1]
    · rw [List.cons_append, scan_cons_starts hc, scan_cons_starts hc, ih, size_cons,
        List.count_cons_of_ne hc, Nat.add_assoc]

theorem length_scan_starts (cs : List Char) (offset line : Nat) :
    (scan offset line cs).1.length = cs.count '\n' := by
  induction cs generalizing offset line with
  | nil => rfl
  | cons c cs ih =>
    by_cases hc : c = '\n'
    · subst hc
      rw [scan_feed, List.length_cons, ih, List.count_cons_self]
    · rw [scan_cons_starts hc, ih, List.count_cons_of_ne hc]

/-- Every line start lies behind the place where the pass began, and not behind its end. -/
theorem mem_scan_starts {n : Nat} (h : n ∈ (scan offset line cs).1) :
    offset < n ∧ n ≤ offset + Text.size cs := by
  induction cs generalizing offset line with
  | nil => simp at h
  | cons c cs ih =>
    have hpos : 0 < c.utf8Size := c.utf8Size_pos
    by_cases hc : c = '\n'
    · subst hc
      have hone : '\n'.utf8Size = 1 := by decide
      rw [scan_feed, List.mem_cons] at h
      rw [size_cons, hone]
      rcases h with rfl | h
      · omega
      · have := ih h
        omega
    · rw [scan_cons_starts hc] at h
      have := ih h
      rw [size_cons]
      omega

theorem mem_wide_cons {d : Char} (hd : d ≠ '\n') {n : Nat} :
    n ∈ (scan offset line (d :: cs)).2 ↔
      n ∈ (scan (offset + d.utf8Size) line cs).2 ∨ (0x80 ≤ d.toNat ∧ n = line) := by
  simp only [scan, beq_iff_eq, hd, if_false]
  split
  · rename_i hcond
    constructor
    · exact .inl
    · rintro (h | ⟨hwide, rfl⟩)
      · exact h
      · simp only [Bool.or_eq_true, decide_eq_true_eq, beq_iff_eq] at hcond
        rcases hcond with hcond | hcond
        · omega
        · exact List.mem_of_head? hcond
  · rename_i hcond
    simp only [Bool.or_eq_true, decide_eq_true_eq, not_or, Nat.not_lt] at hcond
    rw [List.mem_cons]
    constructor
    · rintro (rfl | h)
      · exact .inr ⟨hcond.1, rfl⟩
      · exact .inl h
    · rintro (h | ⟨-, rfl⟩)
      · exact .inr h
      · exact .inl rfl

/-- The lines that are listed as wide are those with a character outside ASCII. -/
theorem mem_wide {n : Nat} :
    n ∈ (scan offset line cs).2 ↔
      ∃ pre c post, cs = pre ++ c :: post ∧ 0x80 ≤ c.toNat ∧ line + pre.count '\n' = n := by
  induction cs generalizing offset line with
  | nil => simp
  | cons d cs ih =>
    by_cases hd : d = '\n'
    · subst hd
      rw [scan_feed, ih]
      constructor
      · rintro ⟨pre, c, post, rfl, hc, rfl⟩
        exact ⟨'\n' :: pre, c, post, rfl, hc, by rw [List.count_cons_self]; omega⟩
      · rintro ⟨pre, c, post, heq, hc, rfl⟩
        cases pre with
        | nil =>
          obtain ⟨rfl, -⟩ := List.cons.inj heq
          exact absurd hc (by decide)
        | cons e pre =>
          obtain ⟨rfl, rfl⟩ := List.cons.inj heq
          exact ⟨pre, c, post, rfl, hc, by rw [List.count_cons_self]; omega⟩
    · rw [mem_wide_cons hd, ih]
      constructor
      · rintro (⟨pre, c, post, rfl, hc, rfl⟩ | ⟨hwide, rfl⟩)
        · exact ⟨d :: pre, c, post, rfl, hc, by rw [List.count_cons_of_ne hd]⟩
        · exact ⟨[], d, cs, rfl, hwide, rfl⟩
      · rintro ⟨pre, c, post, heq, hc, rfl⟩
        cases pre with
        | nil =>
          obtain ⟨rfl, -⟩ := List.cons.inj heq
          exact .inr ⟨hc, rfl⟩
        | cons e pre =>
          obtain ⟨rfl, rfl⟩ := List.cons.inj heq
          exact .inl ⟨pre, c, post, rfl, hc, by rw [List.count_cons_of_ne hd]⟩

/-! ## The answers -/

/-- The line of an offset is the number of line feeds before it, also inside the character that
follows. -/
theorem lineOf_within (hle : Text.size before ≤ offset)
    (hafter : ∀ n ∈ (scan (Text.size before) (before.count '\n') rest).1, offset < n) :
    (ofText (before ++ rest)).lineOf offset = before.count '\n' := by
  have hbefore : ∀ n ∈ 0 :: (scan 0 0 before).1, (decide (n ≤ offset)) = true := by
    intro n hn
    rcases List.mem_cons.mp hn with rfl | hn
    · simp
    · have := mem_scan_starts hn
      simp only [decide_eq_true_eq]
      omega
  have hnil : ((scan (0 + Text.size before) (0 + before.count '\n') rest).1.takeWhile
      fun n => decide (n ≤ offset)) = [] := by
    rw [Nat.zero_add, Nat.zero_add, List.takeWhile_eq_nil_iff]
    intro hlen
    simp only [decide_eq_true_eq, Nat.not_le]
    exact hafter _ (List.get_mem _ ⟨0, hlen⟩)
  show ((0 :: (scan 0 0 (before ++ rest)).1).takeWhile _).length - 1 = _
  rw [scan_starts_append, ← List.cons_append, List.takeWhile_append_of_pos hbefore, hnil]
  simp [length_scan_starts]

/-- The line of a place is the number of line feeds before it. -/
theorem lineOf_place (before rest : List Char) :
    (ofText (before ++ rest)).lineOf (Text.size before) = before.count '\n' :=
  lineOf_within (Nat.le_refl _) fun _ hn => (mem_scan_starts hn).1

theorem lineStart?_place (before rest : List Char) :
    (ofText (before ++ rest)).lineStart? (before.count '\n') =
      some (Text.size before - Text.size (lastLine before)) := by
  show (0 :: (scan 0 0 (before ++ rest)).1)[before.count '\n']? = _
  rcases lastLine_cases before with ⟨hno, hlast⟩ | ⟨front, hfront, hno⟩
  · rw [List.count_eq_zero.mpr hno, hlast]
    simp
  · -- the line starts behind the last line feed, which ends `front`
    have hcount : before.count '\n' = front.count '\n' + 1 := by
      conv_lhs => rw [hfront]
      rw [List.count_append, List.count_cons_self, List.count_eq_zero.mpr hno]
    have hone : '\n'.utf8Size = 1 := by decide
    have hstart : Text.size before - Text.size (lastLine before) = Text.size front + 1 := by
      conv_lhs => rw [hfront]
      simp only [size_append, size_cons, lastLine_append_feed _ _ hno, hone]
      omega
    have htext : before ++ rest = front ++ '\n' :: (lastLine before ++ rest) := by
      conv_lhs => rw [hfront]
      simp
    rw [hcount, List.getElem?_cons_succ, hstart, htext, scan_starts_append, scan_feed,
      List.getElem?_append_right (by rw [length_scan_starts]), length_scan_starts]
    simp

/-- On a line that is not wide, all characters before a place of it are ASCII. -/
theorem ascii_of_not_wide (before rest : List Char)
    (h : before.count '\n' ∉ (ofText (before ++ rest)).wide) :
    ∀ c ∈ lastLine before, c.toNat < 0x80 := by
  intro c hc
  by_contra hwide
  obtain ⟨pre, post, hsplit⟩ := List.append_of_mem hc
  apply h
  show _ ∈ (scan 0 0 (before ++ rest)).2
  rw [mem_wide]
  rcases lastLine_cases before with ⟨hno, hlast⟩ | ⟨front, hfront, hno⟩
  · have hbefore : before = pre ++ c :: post := by rw [← hlast, hsplit]
    refine ⟨pre, c, post ++ rest, by rw [hbefore]; simp, by omega, ?_⟩
    rw [List.count_eq_zero.mpr hno, List.count_eq_zero.mpr]
    intro hpre
    exact hno (by rw [hbefore]; simp [hpre])
  · have hpre : '\n' ∉ pre := fun hmem => hno (by rw [hsplit]; simp [hmem])
    refine ⟨front ++ '\n' :: pre, c, post ++ rest, ?_, by omega, ?_⟩
    · conv_lhs => rw [hfront, hsplit]
      simp
    · conv_rhs => rw [hfront]
      simp only [List.count_append, List.count_cons_self, List.count_eq_zero.mpr hpre,
        List.count_eq_zero.mpr hno]
      omega

/-- The index gives the position of every place. -/
theorem position?_place (before rest : List Char) :
    (ofText (before ++ rest)).position? (before ++ rest) (Text.size before) =
      some (positionOf before) := by
  have hsize : ¬ (ofText (before ++ rest)).size < Text.size before := by
    show ¬ Text.size (before ++ rest) < Text.size before
    simp
  have hle := size_lastLine_le before
  simp only [position?, hsize, if_false, lineOf_place, lineStart?_place, Option.bind_eq_bind,
    Option.bind_some]
  split
  · -- the line is walked from its start
    obtain ⟨front, hfront, hsize⟩ := exists_front before
    have hcut := slice?_append front (lastLine before) rest
    rw [← List.append_assoc, ← hfront, ← size_append, ← hfront] at hcut
    rw [hsize, hcut]
    rfl
  · rename_i hnarrow
    have hascii := ascii_of_not_wide before rest (by simpa using hnarrow)
    have hunits : Text.size before - (Text.size before - Text.size (lastLine before)) =
        unitSize (lastLine before) := by
      rw [unitSize_eq_size_of_ascii hascii]
      omega
    rw [hunits]
    rfl

/-- An offset of a text is a place of it, or falls inside a character. -/
theorem place_or_within (h : offset ≤ Text.size text) :
    Place text offset ∨ ∃ before c rest, text = before ++ c :: rest ∧ Text.size before < offset ∧
      offset < Text.size before + c.utf8Size := by
  induction text generalizing offset with
  | nil => exact .inl ⟨[], [], rfl, (Nat.le_zero.mp h).symm⟩
  | cons c cs ih =>
    rcases Nat.lt_or_ge offset c.utf8Size with hlt | hge
    · rcases Nat.eq_zero_or_pos offset with rfl | hpos
      · exact .inl (Place.zero _)
      · exact .inr ⟨[], c, cs, rfl, hpos, by simpa using hlt⟩
    · have hrest : offset - c.utf8Size ≤ Text.size cs := by
        rw [size_cons] at h
        omega
      rcases ih hrest with ⟨before, rest, rfl, hsize⟩ | ⟨before, d, rest, rfl, hlo, hhi⟩
      · exact .inl ⟨c :: before, rest, rfl, by rw [size_cons]; omega⟩
      · exact .inr ⟨c :: before, d, rest, rfl, by rw [size_cons]; omega,
          by rw [size_cons]; omega⟩

/-- Only places have a position: a line with a character of several bytes is walked. -/
theorem place_of_position? {p : Position} (h : (ofText text).position? text offset = some p) :
    Place text offset := by
  have hle : offset ≤ Text.size text := by
    by_contra hgt
    have hsize : (ofText text).size < offset := Nat.not_le.mp hgt
    simp [position?, hsize] at h
  rcases place_or_within hle with hplace | ⟨before, c, rest, rfl, hlo, hhi⟩
  · exact hplace
  · have hwide : 0x80 ≤ c.toNat := by
      by_contra hnarrow
      have hone : c.utf8Size = 1 := by
        rw [Char.utf8Size_eq_one_iff, UInt32.le_iff_toNat_le]
        exact Nat.le_of_lt_succ (Nat.not_le.mp hnarrow)
      omega
    have hfeed : c ≠ '\n' := by
      rintro rfl
      exact absurd hwide (by decide)
    have hline : (ofText (before ++ c :: rest)).lineOf offset = before.count '\n' := by
      refine lineOf_within (Nat.le_of_lt hlo) fun n hn => ?_
      rw [scan_cons_starts hfeed] at hn
      exact Nat.lt_trans hhi (mem_scan_starts hn).1
    have hmem : before.count '\n' ∈ (ofText (before ++ c :: rest)).wide :=
      mem_wide.mpr ⟨before, c, rest, rfl, hwide, Nat.zero_add _⟩
    have hsize : ¬ (ofText (before ++ c :: rest)).size < offset := Nat.not_lt.mpr hle
    simp only [position?, hsize, if_false, hline, lineStart?_place, Option.bind_eq_bind,
      Option.bind_some, List.contains_iff_mem.mpr hmem, if_true] at h
    obtain ⟨line, hslice, -⟩ := Option.bind_eq_some_iff.mp h
    exact place_of_slice? hslice

/-- What the index answers is the position of a place. -/
theorem position?_eq_some {p : Position} (h : (ofText text).position? text offset = some p) :
    ∃ before rest, text = before ++ rest ∧ Text.size before = offset ∧ p = positionOf before := by
  obtain ⟨before, rest, rfl, rfl⟩ := place_of_position? h
  rw [position?_place] at h
  exact ⟨before, rest, rfl, rfl, (Option.some.inj h).symm⟩

theorem bytesTo_unitSize (xs ys : List Char) : bytesTo (unitSize xs) (xs ++ ys) = Text.size xs := by
  induction xs with
  | nil => cases ys <;> rfl
  | cons c cs ih =>
    have hpos := units_pos c
    have hne : (units c + unitSize cs == 0) = false := by
      rw [beq_eq_false_iff_ne]
      omega
    rw [List.cons_append, unitSize_cons, bytesTo, hne, Nat.add_sub_cancel_left, ih]
    rfl

/-- The offset of the position of a place is that place. -/
theorem offset?_positionOf (h : Text.size before < offsetCount) :
    (ofText (before ++ rest)).offset? (before ++ rest) (positionOf before) =
      some (Text.size before) := by
  have hle := size_lastLine_le before
  dsimp only [offset?, positionOf]
  simp only [lineStart?_place, Option.bind_eq_bind, Option.bind_some]
  by_cases hwide : (ofText (before ++ rest)).wide.contains (before.count '\n') = true
  · rw [if_pos hwide]
    obtain ⟨front, hfront, hstart⟩ := exists_front before
    have hdrop : drop? (Text.size front) (before ++ rest) = some (lastLine before ++ rest) := by
      conv_lhs => rw [hfront, List.append_assoc]
      exact drop?_size_append _ _
    rw [hstart, hdrop, Option.bind_some, bytesTo_unitSize]
    simp only [Option.pure_def, Option.some.injEq]
    omega
  · rw [if_neg hwide]
    have hascii := ascii_of_not_wide before rest (by simpa using hwide)
    rw [unitSize_eq_size_of_ascii hascii, Nat.sub_add_cancel hle, Nat.mod_eq_of_lt h]
    rfl

theorem not_place_within (hlo : Text.size before < offset)
    (hhi : offset < Text.size before + c.utf8Size) :
    ¬ Place (before ++ c :: rest) offset := by
  rintro ⟨before', rest', htext, rfl⟩
  obtain ⟨mid, rfl, hmid⟩ := prefix_of_size_le htext (Nat.le_of_lt hlo)
  cases mid with
  | nil => simp at hlo
  | cons d mid =>
    obtain ⟨rfl, -⟩ := List.cons.inj hmid
    simp only [size_append, size_cons] at hhi
    omega

/-- The index answers at the places of a text, and only there. The position of a place is the number
of line feeds before it and of units after the last of them. It is later the later the place is, and
taken back to the place it is the position of. -/
theorem position?_inverts (hsize : Text.size text < offsetCount) :
    (∀ offset, (ofText text).position? text offset = none ↔
        Text.size text < offset ∨ ∃ before c rest, text = before ++ c :: rest ∧
          Text.size before < offset ∧ offset < Text.size before + c.utf8Size) ∧
      (∀ before rest, text = before ++ rest →
        (ofText text).position? text (Text.size before) =
          some ⟨before.count '\n', unitSize (lastLine before)⟩) ∧
      (∀ o o' p p', (ofText text).position? text o = some p →
        (ofText text).position? text o' = some p' → o < o' → p.Lt p') ∧
      ∀ offset p, (ofText text).position? text offset = some p →
        (ofText text).offset? text p = some offset := by
  refine ⟨fun offset => ⟨fun hnone => ?_, ?_⟩, ?_, ?_, ?_⟩
  · rw [or_iff_not_imp_left, Nat.not_lt]
    intro hle
    refine (place_or_within hle).resolve_left ?_
    rintro ⟨before, rest, rfl, rfl⟩
    rw [position?_place] at hnone
    cases hnone
  · intro h
    refine Option.eq_none_iff_forall_ne_some.mpr fun p hp => ?_
    have hplace := place_of_position? hp
    rcases h with hgt | ⟨before, c, rest, rfl, hlo, hhi⟩
    · exact Nat.not_le.mpr hgt hplace.le_size
    · exact not_place_within hlo hhi hplace
  · rintro before rest rfl
    exact position?_place before rest
  · intro o o' p p' hp hp' hlt
    obtain ⟨before, rest, htext, rfl, rfl⟩ := position?_eq_some hp
    obtain ⟨before', rest', htext', rfl, rfl⟩ := position?_eq_some hp'
    exact positionOf_lt (htext.symm.trans htext') hlt
  · intro offset p hp
    obtain ⟨before, rest, rfl, rfl, rfl⟩ := position?_eq_some hp
    exact offset?_positionOf (Nat.lt_of_le_of_lt (by simp) hsize)

/-- The place before the `x` on a line with a character of two bytes and one of four. -/
theorem position?_inverts_wide : Text.size "a\né😀x".toList < offsetCount ∧
    (ofText "a\né😀x".toList).position? "a\né😀x".toList 8 = some ⟨1, 3⟩ ∧
    (ofText "a\né😀x".toList).offset? "a\né😀x".toList ⟨1, 3⟩ = some 8 :=
  ⟨by decide, by decide, (position?_inverts (by decide)).2.2.2 8 ⟨1, 3⟩ (by decide)⟩

end LineIndex

end Downlevel.Text
