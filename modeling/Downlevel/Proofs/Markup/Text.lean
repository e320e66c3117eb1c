import Mathlib.Data.List.DropRight
import Downlevel.Markup.Text

/-!
# Text between tags, line by line

Text is cleaned in one pass, with the blanks that may still be dropped in a buffer. What comes out
is the text cut at its line feeds, without the blanks at the cuts (`trimmed`) and the lines that are
empty then, with the references of each line decoded and single spaces between the lines
(`clean_eq_joined_lines`). A reference ends in a `;`, and no blank or line feed is part of it
(`reference?_append`), so that it does not matter whether a line is decoded on its own or where it
stands.
-/

namespace Downlevel.Markup

variable {initial seen cut : Bool} {blanks line cs xs ys : List Char} {c ch : Char} {n : Nat}

attribute [local simp] cleanFrom

/-! ## References -/

/-- The first `n` characters of the text end in a `;`. -/
def ClosesAt (cs : List Char) (n : Nat) : Prop :=
  ∃ front rest, cs = front ++ ';' :: rest ∧ n = front.length + 1

theorem ClosesAt.cons {c : Char} (h : ClosesAt cs n) : ClosesAt (c :: cs) (n + 1) := by
  obtain ⟨front, rest, rfl, rfl⟩ := h
  exact ⟨c :: front, rest, rfl, rfl⟩

theorem numericReference?_closesAt {base : Nat} (h : numericReference? base cs = some (ch, n)) :
    ClosesAt cs n := by
  unfold numericReference? at h
  extract_lets digits code finish at h
  split at h
  · cases h
  · rename_i hclosed
    obtain ⟨_, -, ⟨⟩⟩ := Option.bind_eq_some_iff.mp h
    have hhead : (cs.drop digits.length).head? = some ';' := by simp_all
    obtain ⟨rest, hrest⟩ := List.head?_eq_some_iff.mp hhead
    have hdigits : digits = cs.take digits.length :=
      List.prefix_iff_eq_take.mp (List.takeWhile_prefix _)
    refine ⟨digits, rest, ?_, rfl⟩
    rw [← hrest]
    conv_lhs => rw [← List.take_append_drop digits.length cs, ← hdigits]

theorem namedReference?_closesAt (h : namedReference? cs = some (ch, n)) : ClosesAt cs n := by
  unfold namedReference? at h
  extract_lets name finish at h
  split at h
  · cases h
  · rename_i hclosed
    obtain ⟨_, -, h⟩ := Option.bind_eq_some_iff.mp h
    obtain ⟨_, -, ⟨⟩⟩ := Option.bind_eq_some_iff.mp h
    have hsplit := List.takeWhile_append_dropWhile (p := (· != ';')) (l := cs.take 10)
    cases hrest : (cs.take 10).dropWhile (· != ';') with
    | nil =>
      rw [hrest, List.append_nil] at hsplit
      exact absurd (Nat.le_of_eq (congrArg List.length hsplit.symm)) hclosed
    | cons c rest =>
      have hc : c = ';' := by
        have hnot := List.head_dropWhile_not (· != ';') (l := cs.take 10) (by simp [hrest])
        simpa [hrest] using hnot
      refine ⟨name, rest ++ cs.drop 10, ?_, rfl⟩
      rw [hrest, hc] at hsplit
      conv_lhs => rw [← List.take_append_drop 10 cs, ← hsplit]
      simp [name]

/-- A reference takes the text up to a `;` that is there. -/
theorem reference?_closesAt (h : reference? cs = some (ch, n)) : ClosesAt cs n := by
  unfold reference? at h
  split at h
  · obtain ⟨⟨_, _⟩, hnumeric, ⟨⟩⟩ := Option.map_eq_some_iff.mp h
    exact (numericReference?_closesAt hnumeric).cons.cons
  · obtain ⟨⟨_, _⟩, hnumeric, ⟨⟩⟩ := Option.map_eq_some_iff.mp h
    exact (numericReference?_closesAt hnumeric).cons
  · exact namedReference?_closesAt h

/-- The text ends, or goes on with a blank or a line feed. -/
def Stops (cs : List Char) : Prop := ∀ c ∈ cs.head?, c ∈ [' ', '\t', '\r', '\n']

theorem Stops.of_blanks (h : ∀ c ∈ xs, isLineBlank c = true) (rest : List Char) :
    Stops (xs ++ '\n' :: rest) := by
  cases xs with
  | nil =>
    rintro c ⟨⟩
    decide
  | cons d xs =>
    rintro c ⟨⟩
    have hc := h d List.mem_cons_self
    simp only [isLineBlank, Bool.or_eq_true, beq_iff_eq] at hc
    rcases hc with (rfl | rfl) | rfl <;> decide

theorem Stops.takeWhile_append (h : Stops ys) {p : Char → Bool}
    (hp : ∀ c ∈ [' ', '\t', '\r', '\n'], p c = false) :
    (xs ++ ys).takeWhile p = xs.takeWhile p := by
  induction xs with
  | nil =>
    cases ys with
    | nil => rfl
    | cons c ys => simp [hp c (h c rfl)]
  | cons c xs ih => rw [List.cons_append, List.takeWhile_cons, List.takeWhile_cons, ih]

theorem numericReference?_append {base : Nat} (h : Stops ys) :
    numericReference? base (xs ++ ys) = numericReference? base xs := by
  have hdigits : (xs ++ ys).takeWhile (fun c => (digitValue? base c).isSome) =
      xs.takeWhile fun c => (digitValue? base c).isSome :=
    h.takeWhile_append (by simp; exact ⟨rfl, rfl, rfl, rfl⟩)
  have hle := (List.takeWhile_prefix (l := xs) fun c => (digitValue? base c).isSome).length_le
  simp only [numericReference?, hdigits, List.drop_append_of_le_length hle, List.head?_append]
  cases (xs.drop (xs.takeWhile fun c => (digitValue? base c).isSome).length).head? with
  | some c => rfl
  | none =>
    -- neither the end nor what stops the text is a semicolon
    have hopen : ys.head? ≠ some ';' := fun hhead => absurd (h ';' hhead) (by decide)
    simp [hopen]

/-- No name of a character has a blank or a line feed in it. -/
theorem lookup_eq_none {name : List Char} (hmem : c ∈ name)
    (hc : c ∈ [' ', '\t', '\r', '\n']) : entities.lookup (String.ofList name) = none := by
  have hall : entities.all (fun e => e.1.toList.all Char.isAlphanum) = true := by decide +kernel
  have hstop : ¬ c.isAlphanum := by
    simp only [List.mem_cons, List.not_mem_nil, or_false] at hc
    rcases hc with rfl | rfl | rfl | rfl <;> decide
  refine Option.eq_none_iff_forall_ne_some.mpr fun code hcode => hstop ?_
  obtain ⟨before, after, hsplit, -⟩ := List.lookup_eq_some_iff.mp hcode
  have hname := List.all_eq_true.mp hall (String.ofList name, code) (by rw [hsplit]; simp)
  rw [String.toList_ofList] at hname
  exact List.all_eq_true.mp hname c hmem

theorem namedReference?_append (h : Stops ys) :
    namedReference? (xs ++ ys) = namedReference? xs := by
  unfold namedReference?
  rw [List.take_append, List.takeWhile_append]
  by_cases hclosed : ';' ∈ xs.take 10
  · have hlt : ((xs.take 10).takeWhile (· != ';')).length < (xs.take 10).length := by
      refine Nat.lt_of_le_of_ne (List.takeWhile_prefix _).length_le fun heq => ?_
      have hall := List.takeWhile_eq_self_iff.mp ((List.takeWhile_prefix _).eq_of_length heq)
      exact absurd (hall ';' hclosed) (by decide)
    rw [if_neg (Nat.ne_of_lt hlt), List.length_append, if_neg (by omega), if_neg (by omega)]
  · have hall : (xs.take 10).takeWhile (· != ';') = xs.take 10 := by
      rw [List.takeWhile_eq_self_iff]
      intro c hc
      simp only [bne_iff_ne]
      rintro rfl
      exact hclosed hc
    rw [hall, if_pos rfl, if_pos (Nat.le_refl _)]
    cases hrest : ys.take (10 - xs.length) with
    | nil => simp
    | cons c rest =>
      -- a name that goes on behind `xs` has what stops the text in it
      obtain ⟨tail, rfl⟩ : ∃ tail, ys = c :: tail := by
        obtain ⟨tail, rfl⟩ := hrest ▸ List.take_prefix _ ys
        exact ⟨rest ++ tail, rfl⟩
      have hc := h c rfl
      have hmem : c ∈ (c :: rest).takeWhile (· != ';') := by
        have hne : c ≠ ';' := by
          rintro rfl
          exact absurd hc (by decide)
        simp [hne]
      simp only [lookup_eq_none (List.mem_append_right _ hmem) hc, Option.bind_eq_bind,
        Option.bind_none, ite_self]

/-- What stops a text is no part of a reference in it. -/
theorem reference?_append (h : Stops ys) : reference? (xs ++ ys) = reference? xs := by
  have hhead : ∀ {d : Char}, d ∉ [' ', '\t', '\r', '\n'] → ys.head? ≠ some d := fun hd hys =>
    hd (h _ hys)
  have hnamed : ∀ {cs : List Char}, cs.head? ≠ some '#' → reference? cs = namedReference? cs := by
    intro cs hcs
    unfold reference?
    split <;> simp_all
  have hdecimal : ∀ {cs : List Char}, cs.head? ≠ some 'x' →
      reference? ('#' :: cs) = (numericReference? 10 cs).map fun r => (r.1, r.2 + 1) := by
    intro cs hcs
    unfold reference?
    split <;> simp_all
  by_cases hxs : xs.head? = some '#'
  · obtain ⟨xs, rfl⟩ := List.head?_eq_some_iff.mp hxs
    by_cases hx : xs.head? = some 'x'
    · obtain ⟨xs, rfl⟩ := List.head?_eq_some_iff.mp hx
      show (numericReference? 16 (xs ++ ys)).map _ = (numericReference? 16 xs).map _
      rw [numericReference?_append h]
    · rw [List.cons_append, hdecimal, numericReference?_append h, ← hdecimal hx]
      cases xs with
      | nil => exact hhead (by decide)
      | cons c xs => exact hx
  · rw [hnamed, namedReference?_append h, ← hnamed hxs]
    cases xs with
    | nil => exact hhead (by decide)
    | cons c xs => exact hxs

/-- The character that begins with `c` before `cs`, and how many characters of `cs` belong to it: a
reference is decoded, and all else stands for itself. -/
def glyph (c : Char) (cs : List Char) : Char × Nat :=
  (if c = '&' then reference? cs else none).getD (c, 0)

theorem glyph_append (h : Stops ys) (c : Char) : glyph c (xs ++ ys) = glyph c xs := by
  rw [glyph, reference?_append h, glyph]

theorem glyph_of_blank (h : isLineBlank c = true) (cs : List Char) : glyph c cs = (c, 0) := by
  have hc : c ≠ '&' := by
    rintro rfl
    cases h
  rw [glyph, if_neg hc, Option.getD_none]

theorem glyph_le (c : Char) (cs : List Char) : (glyph c cs).2 ≤ cs.length := by
  unfold glyph
  cases h : (if c = '&' then reference? cs else none) with
  | none => exact Nat.zero_le _
  | some r =>
    obtain ⟨-, h⟩ := Option.ite_none_right_eq_some.mp h
    obtain ⟨front, rest, rfl, hn⟩ := reference?_closesAt h
    rw [Option.getD_some, hn]
    simp

/-! ## Lines -/

/-- A line with its references decoded, from left to right, once its first `skip` characters are
passed over. -/
def decodeFrom : (skip : Nat) → List Char → List Char
  | _, [] => []
  | skip + 1, _ :: cs => decodeFrom skip cs
  | 0, c :: cs => (glyph c cs).1 :: decodeFrom (glyph c cs).2 cs

/-- A line without the blanks at its start, if it was cut there. -/
def opened (cut : Bool) (line : List Char) : List Char :=
  if cut then line.dropWhile isLineBlank else line

/-- Lines without the blanks at their cuts: all but the last are cut at the end, and all but the
first at the start, which is `cut` too or not. -/
def trimmed (cut : Bool) : List (List Char) → List (List Char)
  | [] => []
  | [line] => [opened cut line]
  | line :: next :: rest => (opened cut line).rdropWhile isLineBlank :: trimmed true (next :: rest)

/-- The lines of a text that are left, decoded. -/
def textLines (cut : Bool) (text : List Char) : List (List Char) :=
  ((trimmed cut (text.splitOn '\n')).filter (· ≠ [])).map (decodeFrom 0)

theorem cleanFrom_visible (hblank : isLineBlank c = false) (hfeed : c ≠ '\n') :
    cleanFrom initial seen blanks 0 (c :: cs) =
      (if seen && initial then [' '] else []) ++ blanks.reverse ++
        (glyph c cs).1 :: cleanFrom false true [] (glyph c cs).2 cs := by
  rw [cleanFrom, if_neg (by simp [hblank]), if_neg (by simpa using hfeed), glyph]
  simp only [beq_iff_eq]
  cases (if c = '&' then reference? cs else none) <;> rfl

theorem cleanFrom_last (hfeed : '\n' ∉ line) (skip : Nat) :
    cleanFrom false seen blanks skip line = blanks.reverse ++ decodeFrom skip line := by
  induction line generalizing seen blanks skip with
  | nil => cases skip <;> simp [cleanFrom, decodeFrom]
  | cons c line ih =>
    rw [List.mem_cons, not_or] at hfeed
    cases skip with
    | succ skip => exact ih hfeed.2 skip
    | zero =>
      cases hblank : isLineBlank c with
      | true =>
        rw [cleanFrom, if_pos hblank, decodeFrom, glyph_of_blank hblank, ih hfeed.2]
        simp
      | false =>
        rw [cleanFrom_visible hblank (Ne.symm hfeed.1), decodeFrom, ih hfeed.2]
        simp

/-- Up to its last character that is no blank, a line is decoded, with the blanks before it. -/
theorem cleanFrom_body (hstop : Stops ys) (hfeed : '\n' ∉ line)
    (hlast : ∀ c ∈ line.getLast?, isLineBlank c = false) {skip : Nat} (hskip : skip ≤ line.length)
    (hread : skip < line.length ∨ seen = true ∧ blanks = []) :
    cleanFrom false seen blanks skip (line ++ ys) =
      blanks.reverse ++ decodeFrom skip line ++ cleanFrom false true [] 0 ys := by
  induction line generalizing seen blanks skip with
  | nil =>
    obtain rfl := Nat.le_zero.mp hskip
    obtain ⟨rfl, rfl⟩ := hread.resolve_left (Nat.lt_irrefl _)
    rfl
  | cons c line ih =>
    rw [List.mem_cons, not_or] at hfeed
    have hlast' : ∀ d ∈ line.getLast?, isLineBlank d = false := by
      intro d hd
      apply hlast
      rw [List.getLast?_cons, hd]
      rfl
    cases skip with
    | succ skip =>
      exact ih hfeed.2 hlast' (Nat.le_of_succ_le_succ hskip) (hread.imp_left Nat.lt_of_succ_lt_succ)
    | zero =>
      cases hblank : isLineBlank c with
      | true =>
        -- the buffer is written out later, since the line does not end with a blank
        have hmore : 0 < line.length := by
          cases line with
          | nil => exact absurd (hlast c rfl) (by simp [hblank])
          | cons d line => exact Nat.succ_pos _
        rw [List.cons_append, cleanFrom, if_pos hblank, decodeFrom, glyph_of_blank hblank,
          if_neg (by simp), ih hfeed.2 hlast' (Nat.zero_le _) (.inl hmore)]
        simp
      | false =>
        rw [List.cons_append, cleanFrom_visible hblank (Ne.symm hfeed.1), decodeFrom,
          glyph_append hstop, ih hfeed.2 hlast' (glyph_le c line) (.inr ⟨rfl, rfl⟩)]
        simp

theorem cleanFrom_trail (h : ∀ c ∈ xs, isLineBlank c = true) (rest : List Char) :
    cleanFrom initial seen blanks 0 (xs ++ '\n' :: rest) = cleanFrom true seen [] 0 rest := by
  induction xs generalizing blanks with
  | nil => rfl
  | cons c xs ih =>
    rw [List.cons_append, cleanFrom, if_pos (h c List.mem_cons_self)]
    exact ih fun d hd => h d (List.mem_cons_of_mem c hd)

theorem cleanFrom_lead (line rest : List Char) :
    cleanFrom cut seen [] 0 (line ++ rest) = cleanFrom cut seen [] 0 (opened cut line ++ rest) := by
  cases cut with
  | false => rfl
  | true =>
    induction line with
    | nil => rfl
    | cons c line ih =>
      rw [opened, if_pos rfl] at ih ⊢
      cases hc : isLineBlank c with
      | true =>
        rw [List.dropWhile_cons_of_pos hc, ← ih, List.cons_append, cleanFrom, if_pos hc]
        rfl
      | false => rw [List.dropWhile_cons_of_neg (by simp [hc])]

theorem mem_of_mem_opened (h : c ∈ opened cut line) : c ∈ line := by
  cases cut with
  | false => exact h
  | true => exact (List.dropWhile_suffix _).subset h

/-- A space is written before a line with something on it, if there was one before. -/
theorem cleanFrom_opened (hcut : cut = false → seen = false) (hfeed : '\n' ∉ line)
    (hne : opened cut line ≠ []) (rest : List Char) :
    cleanFrom cut seen [] 0 (line ++ rest) =
      (if seen then [' '] else []) ++ cleanFrom false seen [] 0 (opened cut line ++ rest) := by
  rw [cleanFrom_lead]
  cases cut with
  | false => simp [hcut rfl]
  | true =>
    obtain ⟨c, cs, hline⟩ := List.exists_cons_of_ne_nil hne
    have hmem : c ∈ opened true line := by
      rw [hline]
      exact List.mem_cons_self
    have hc : c ≠ '\n' := by
      rintro rfl
      exact hfeed (mem_of_mem_opened hmem)
    have hblank : isLineBlank c = false := by
      have hhead := List.head?_dropWhile_not isLineBlank line
      rw [show line.dropWhile isLineBlank = c :: cs from hline] at hhead
      simpa using hhead
    rw [hline, List.cons_append, cleanFrom_visible hblank hc, cleanFrom_visible hblank hc]
    simp

/-- One line is trimmed, and decoded if something is left. -/
theorem cleanFrom_line (hcut : cut = false → seen = false) (hfeed : '\n' ∉ line)
    (rest : List Char) :
    cleanFrom cut seen [] 0 (line ++ '\n' :: rest) =
      if (opened cut line).rdropWhile isLineBlank = [] then cleanFrom true seen [] 0 rest
      else (if seen then [' '] else []) ++
        decodeFrom 0 ((opened cut line).rdropWhile isLineBlank) ++
        cleanFrom true true [] 0 rest := by
  split
  · rename_i hnil
    rw [cleanFrom_lead, cleanFrom_trail (List.rdropWhile_eq_nil_iff.mp hnil)]
  · rename_i hne
    have htrail : ∀ c ∈ (opened cut line).rtakeWhile isLineBlank, isLineBlank c = true :=
      fun c hc => List.mem_rtakeWhile_imp hc
    have hlast := List.rdropWhile_last_not isLineBlank (opened cut line) hne
    rw [cleanFrom_opened hcut hfeed (fun hnil => hne (by rw [hnil]; rfl))]
    conv_lhs =>
      rw [← List.rdropWhile_append_rtakeWhile (p := isLineBlank) (l := opened cut line)]
    rw [List.append_assoc, cleanFrom_body (.of_blanks htrail rest), cleanFrom_trail htrail]
    · simp
    · exact fun hmem => hfeed (mem_of_mem_opened ((List.rdropWhile_prefix ..).subset hmem))
    · intro c hc
      rw [List.getLast?_eq_some_getLast hne] at hc
      obtain rfl := Option.some.inj hc
      simpa using hlast
    · exact Nat.zero_le _
    · exact .inl (List.length_pos_iff.mpr hne)

/-- Parts with single spaces between them, and one before them if there were others. -/
def joinFrom (seen : Bool) : List (List Char) → List Char
  | [] => []
  | part :: parts => (if seen then [' '] else []) ++ part ++ joinFrom true parts

theorem joinFrom_false (parts : List (List Char)) :
    joinFrom false parts = [' '].intercalate parts := by
  cases parts with
  | nil => rfl
  | cons part parts =>
    induction parts generalizing part with
    | nil => simp [joinFrom]
    | cons next parts ih =>
      have hnext := ih next
      simp only [joinFrom, Bool.false_eq_true, if_false, if_true, List.nil_append] at hnext ⊢
      rw [List.intercalate_cons_cons, ← hnext]
      simp

theorem cleanFrom_eq_joinFrom (hcut : cut = false → seen = false) (text : List Char) :
    cleanFrom cut seen [] 0 text = joinFrom seen (textLines cut text) := by
  induction hlength : text.length using Nat.strongRecOn generalizing text cut seen with
  | _ n ih =>
    unfold textLines
    by_cases hfeed : '\n' ∈ text
    · obtain ⟨line, rest, rfl, hline⟩ := List.eq_append_cons_of_mem hfeed
      obtain ⟨next, others, hnext⟩ := List.exists_cons_of_ne_nil (List.splitOn_ne_nil '\n' rest)
      have hrest : ∀ seen, cleanFrom true seen [] 0 rest = joinFrom seen (textLines true rest) :=
        fun seen => ih rest.length (by simp [← hlength]; omega) (by simp) rest rfl
      rw [cleanFrom_line hcut hline, List.splitOn_append_cons_self_of_not_mem hline, hnext, trimmed,
        ← hnext]
      split
      · rename_i hnil
        rw [hnil, List.filter_cons_of_neg (by simp), hrest]
        rfl
      · rename_i hne
        rw [List.filter_cons_of_pos (by simpa using hne), List.map_cons, joinFrom, hrest]
        rfl
    · have hlead : cleanFrom cut seen [] 0 (text ++ []) = _ := cleanFrom_lead text []
      rw [List.append_nil, List.append_nil] at hlead
      rw [List.splitOn_eq_singleton hfeed, trimmed]
      by_cases hnil : opened cut text = []
      · rw [hlead, hnil]
        cases cut <;> rfl
      · have hlast := cleanFrom_opened hcut hfeed hnil []
        rw [List.append_nil, List.append_nil,
          cleanFrom_last fun hmem => hfeed (mem_of_mem_opened hmem)] at hlast
        simp [hlast, hnil, joinFrom]

/-- Text between tags is cut at its line feeds. All lines but the first lose the blanks at their
start, all but the last those at their end. The lines that are not empty then are decoded, and
joined by single spaces. -/
theorem clean_eq_joined_lines (text : List Char) :
    clean text = [' '].intercalate (textLines false text) := by
  rw [← joinFrom_false, ← cleanFrom_eq_joinFrom fun _ => rfl, clean]

example : clean "\n  a &amp;lt; \t\n \n&#32;b &bogus\n;c ".toList =
    "a &lt;  b &bogus ;c ".toList := by
  decide +kernel

end Downlevel.Markup
