/-! # Byte offsets into text

Text is a list of characters, and a place in it is a byte offset into its UTF-8 form. An offset
that falls inside a character is no place: `drop?`, `take?` and `slice?` answer `none` there. -/

namespace Downlevel.Text

def size : List Char → Nat
  | [] => 0
  | c :: cs => c.utf8Size + size cs

@[simp] theorem size_nil : size [] = 0 := rfl

@[simp] theorem size_cons (c : Char) (cs : List Char) : size (c :: cs) = c.utf8Size + size cs :=
  rfl

@[simp] theorem size_append (xs ys : List Char) : size (xs ++ ys) = size xs + size ys := by
  induction xs with
  | nil => simp
  | cons c cs ih => simp [ih, Nat.add_assoc]

/-- The text from byte `n` on, when `n` is the start of a character or the end. -/
def drop? : Nat → List Char → Option (List Char)
  | 0, cs => some cs
  | _, [] => none
  | n, c :: cs => if c.utf8Size ≤ n then drop? (n - c.utf8Size) cs else none

/-- The text before byte `n`, when `n` is the start of a character or the end. -/
def take? : Nat → List Char → Option (List Char)
  | 0, _ => some []
  | _, [] => none
  | n, c :: cs => if c.utf8Size ≤ n then (take? (n - c.utf8Size) cs).map (c :: ·) else none

/-- The text between two byte offsets, when they are in order and both are places of the text. -/
def slice? (start stop : Nat) (cs : List Char) : Option (List Char) :=
  if start ≤ stop then (drop? start cs).bind (take? (stop - start)) else none

/-- The characters that begin before byte `n`. -/
def upto : Nat → List Char → List Char
  | 0, _ => []
  | _, [] => []
  | n, c :: cs => c :: upto (n - c.utf8Size) cs

theorem size_cons_eq_succ (c : Char) (cs : List Char) :
    ∃ m, size (c :: cs) = m + 1 ∧ c.utf8Size ≤ m + 1 ∧ m + 1 - c.utf8Size = size cs := by
  have hpos := c.utf8Size_pos
  exact ⟨c.utf8Size + size cs - 1, by simp; omega, by omega, by omega⟩

theorem drop?_size_append (xs ys : List Char) : drop? (size xs) (xs ++ ys) = some ys := by
  induction xs with
  | nil => cases ys <;> rfl
  | cons c cs ih =>
    obtain ⟨m, hm, hle, hsub⟩ := size_cons_eq_succ c cs
    rw [hm, List.cons_append, drop?]
    · rw [if_pos hle, hsub, ih]
    · simp

theorem take?_size_append (xs ys : List Char) : take? (size xs) (xs ++ ys) = some xs := by
  induction xs with
  | nil => cases ys <;> rfl
  | cons c cs ih =>
    obtain ⟨m, hm, hle, hsub⟩ := size_cons_eq_succ c cs
    rw [hm, List.cons_append, take?]
    · rw [if_pos hle, hsub, ih]; rfl
    · simp

/-- A text cut out of its surroundings by its own offsets. -/
theorem slice?_append (pre mid post : List Char) :
    slice? (size pre) (size pre + size mid) (pre ++ (mid ++ post)) = some mid := by
  rw [slice?, if_pos (Nat.le_add_right _ _), drop?_size_append, Option.bind_some,
    Nat.add_sub_cancel_left, take?_size_append]

end Downlevel.Text
