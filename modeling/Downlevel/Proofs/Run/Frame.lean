import Mathlib.Tactic.Common
import Downlevel.Run.Frame

/-! # The first frame of a stack

`first?` finds the leftmost frame of a stack. A frame is said here without the search: a head, and
two numbers behind colons (`Starts`). Digits are taken as far as they go, so that a frame that is
followed by no digit gives the numbers that were written into it. -/

namespace Downlevel.Frame

open Text (isDecimalDigit)

variable {cs rest : List Char}

/-- The text starts with a frame. -/
def Starts (cs : List Char) : Prop :=
  ∃ head ∈ heads, ∃ line column rest, line ≠ [] ∧ column ≠ [] ∧
    (∀ c ∈ line ++ column, isDecimalDigit c = true) ∧
    cs = head ++ ':' :: (line ++ ':' :: (column ++ rest))

/-- The digits of a number. -/
def digits (n : Nat) : List Char := (toString n).toList

/-- The text of a frame with a line and a column. -/
def write (head : List Char) (line column : Nat) : List Char :=
  head ++ ':' :: (digits line ++ ':' :: digits column)

/-- The leftmost frame of the stack, `<anonymous>` or of a function, has this line and column. -/
def Leads (stack : String) (line column : Nat) : Prop :=
  ∃ head ∈ heads, ∃ before rest, stack.toList = before ++ (write head line column ++ rest) ∧
    (∀ c ∈ rest.head?, isDecimalDigit c = false) ∧
    ∀ i < before.length, ¬ Starts (stack.toList.drop i)

/-- The leftmost `<anonymous>` frame of the stack has this line and column, whatever other frames
stand before it. -/
def LeadsAnonymous (stack : String) (line column : Nat) : Prop :=
  ∃ before rest, stack.toList = before ++ (write "<anonymous>".toList line column ++ rest) ∧
    (∀ c ∈ rest.head?, isDecimalDigit c = false) ∧
    ∀ i < before.length, ¬ "<anonymous>".toList <+: stack.toList.drop i

/-! ## Numbers -/

theorem digits_eq (n : Nat) : digits n = Nat.toDigits 10 n := by
  rw [digits, Nat.toString_eq_ofList_toDigits, String.toList_ofList]

theorem digits_ne_nil (n : Nat) : digits n ≠ [] := by
  rw [digits_eq]
  exact Nat.toDigits_ne_nil

theorem isDigit_of_mem_digits {n : Nat} {c : Char} (h : c ∈ digits n) : c.isDigit = true := by
  rw [digits_eq] at h
  exact Nat.isDigit_of_mem_toDigits (by decide) (by decide) h

theorem isDecimalDigit_of_isDigit {c : Char} (h : c.isDigit = true) : isDecimalDigit c = true := by
  have hrange : 48 ≤ c.toNat ∧ c.toNat ≤ 57 := by
    simpa [Char.isDigit, UInt32.le_iff_toNat_le] using h
  simp only [isDecimalDigit, Text.inRanges, List.any_eq_true]
  exact ⟨(48, 57), by decide, by simpa using hrange⟩

theorem number?_digits {n : Nat} (h : n ≤ Location.limit) : number? (digits n) = some n := by
  have hall : (digits n).all Char.isDigit = true :=
    List.all_eq_true.mpr fun c hc => isDigit_of_mem_digits hc
  have hvalue : (digits n).foldl (fun n c => 10 * n + (c.toNat - '0'.toNat)) 0 = n := by
    rw [← Nat.ofDigitChars_eq_foldl, digits_eq, Nat.ofDigitChars_ten_toDigits]
  rw [number?, if_pos hall]
  simp only [hvalue, h, if_true]

/-! ## Fields -/

theorem field?_append {ds : List Char} (hne : ds ≠ []) (hds : ∀ c ∈ ds, isDecimalDigit c = true)
    (hrest : ∀ c ∈ rest.head?, isDecimalDigit c = false) :
    field? (':' :: (ds ++ rest)) = some (ds, rest) := by
  have htake : rest.takeWhile isDecimalDigit = [] := by
    cases rest with
    | nil => rfl
    | cons c rest => exact List.takeWhile_cons_of_neg (by simp [hrest c rfl])
  have hdrop : rest.dropWhile isDecimalDigit = rest := by
    cases rest with
    | nil => rfl
    | cons c rest => exact List.dropWhile_cons_of_neg (by simp [hrest c rfl])
  rw [field?, List.takeWhile_append_of_pos hds, List.dropWhile_append_of_pos hds, htake, hdrop,
    List.append_nil]
  cases ds with
  | nil => exact absurd rfl hne
  | cons d ds => rfl

theorem field?_eq_some {ds : List Char} (h : field? cs = some (ds, rest)) :
    ds ≠ [] ∧ (∀ c ∈ ds, isDecimalDigit c = true) ∧ cs = ':' :: (ds ++ rest) := by
  unfold field? at h
  split at h
  · rename_i cs
    split at h
    · cases h
    · rename_i hne
      simp only [Option.some.injEq, Prod.mk.injEq] at h
      obtain ⟨rfl, rfl⟩ := h
      refine ⟨fun hnil => hne hnil, fun c hc => List.all_eq_true.mp List.all_takeWhile c hc, ?_⟩
      rw [List.takeWhile_append_dropWhile]
  · cases h

/-! ## Frames -/

theorem here?_eq_none (h : ¬ Starts cs) : here? cs = none := by
  rw [Option.eq_none_iff_forall_ne_some]
  rintro ⟨line, column⟩ hsome
  apply h
  simp only [here?, Option.bind_eq_bind, Option.bind_eq_some_iff, Option.pure_def,
    Option.some.injEq, Prod.mk.injEq, Prod.exists] at hsome
  obtain ⟨head, hhead, line', rest, hline, column', rest', hcolumn, rfl, rfl⟩ := hsome
  obtain ⟨hlne, hld, hltext⟩ := field?_eq_some hline
  obtain ⟨hcne, hcd, rfl⟩ := field?_eq_some hcolumn
  have hbegins : head <+: cs := by simpa using List.find?_some hhead
  refine ⟨head, List.mem_of_find?_eq_some hhead, line', column', rest', hlne, hcne, ?_, ?_⟩
  · intro c hc
    rcases List.mem_append.mp hc with hc | hc
    · exact hld c hc
    · exact hcd c hc
  · obtain ⟨after, rfl⟩ := hbegins
    rw [List.drop_left] at hltext
    rw [hltext]

theorem not_starts (h : heads.all (fun head => !head.isPrefixOf cs) = true) :
    ¬ Starts cs := by
  rintro ⟨head, hmem, line, column, rest, -, -, -, rfl⟩
  have hhead := List.all_eq_true.mp h head hmem
  have hbegins : head.isPrefixOf (head ++ ':' :: (line ++ ':' :: (column ++ rest))) = true :=
    List.isPrefixOf_iff_prefix.mpr (List.prefix_append ..)
  rw [hbegins] at hhead
  cases hhead

/-- Neither head is the beginning of the other. -/
theorem find?_heads {head : List Char} (hmem : head ∈ heads) (cs : List Char) :
    heads.find? (·.isPrefixOf (head ++ cs)) = some head := by
  have hmem : head = "<anonymous>".toList ∨ head = "> Function".toList := by
    simpa [heads] using hmem
  rcases hmem with rfl | rfl
  · exact List.find?_cons_of_pos (by simp)
  · exact (List.find?_cons_of_neg (by simp)).trans (List.find?_cons_of_pos (by simp))

theorem here?_write {head : List Char} (hmem : head ∈ heads) {line column : Nat}
    (hrest : ∀ c ∈ rest.head?, isDecimalDigit c = false) :
    here? (write head line column ++ rest) = some (digits line, digits column) := by
  have hdigits : ∀ n : Nat, ∀ c ∈ digits n, isDecimalDigit c = true := fun n c hc =>
    isDecimalDigit_of_isDigit (isDigit_of_mem_digits hc)
  have hcolon : ∀ c ∈ (':' :: (digits column ++ rest)).head?, isDecimalDigit c = false := by
    intro c hc
    obtain rfl := Option.some.inj hc
    decide +kernel
  have hline := field?_append (digits_ne_nil line) (hdigits line) hcolon
  have hcolumn := field?_append (digits_ne_nil column) (hdigits column) hrest
  have htext : write head line column ++ rest =
      head ++ ':' :: (digits line ++ ':' :: (digits column ++ rest)) := by
    simp [write]
  have hhead : heads.find? (·.isPrefixOf (write head line column ++ rest)) = some head := by
    rw [htext]
    exact find?_heads hmem _
  simp only [here?, hhead, Option.bind_eq_bind, Option.bind_some]
  rw [htext, List.drop_left, hline]
  simp only [Option.bind_some, hcolumn, Option.pure_def]

/-- The leftmost frame is the one that is found. -/
theorem first?_append {before frame : List Char} {found : List Char × List Char}
    (hfound : here? frame = some found)
    (hbefore : ∀ i < before.length, ¬ Starts ((before ++ frame).drop i)) :
    first? (before ++ frame) = some found := by
  induction before with
  | nil =>
    cases frame with
    | nil => cases hfound
    | cons c cs => rw [List.nil_append, first?, hfound]; rfl
  | cons c before ih =>
    have hhere := here?_eq_none (hbefore 0 (by simp))
    rw [List.drop_zero, List.cons_append] at hhere
    rw [List.cons_append, first?, hhere, Option.none_or]
    exact ih fun i hi => hbefore (i + 1) (by simpa using hi)

theorem position?_of_leads {stack : String} {line column : Nat} (h : Leads stack line column)
    (hline : line ≤ Location.limit) (hcolumn : column ≤ Location.limit) :
    position? stack = some (line, column) := by
  obtain ⟨head, hmem, before, rest, htext, hrest, hbefore⟩ := h
  rw [htext] at hbefore
  rw [position?, htext, first?_append (here?_write hmem hrest) hbefore]
  simp [number?_digits hline, number?_digits hcolumn]

end Downlevel.Frame
