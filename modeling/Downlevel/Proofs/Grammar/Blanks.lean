import Downlevel.Proofs.Grammar.Spelled

/-!
# Blanks in words and between tokens

The reader of gaps takes one blank for another, as long as neither ends a line, so that the tokens
after a gap stay what they are when a blank in it is replaced (`Cursor.advance_swap`). The reader
of words does not ask what is a blank. It goes on over all that is beyond ASCII, and so over most
blanks (`Lexeme.read_over`); those of ASCII are in no word.
-/

namespace Downlevel

namespace Text

/-- Whether `c` may stand in a gap and ends no line. -/
def isInner (c : Char) : Bool := Gap.isSpace c && !isLineEnd c

/-- The character, or a space in place of another that may stand in a gap and ends no line. -/
def plain (c : Char) : Char := if isInner c then ' ' else c

variable {c d : Char}

theorem isSpace_plain (c : Char) : Gap.isSpace (plain c) = Gap.isSpace c := by
  unfold plain
  split
  · rename_i hinner
    rw [isInner, Bool.and_eq_true] at hinner
    rw [hinner.1]
    rfl
  · rfl

theorem isLineEnd_plain (c : Char) : isLineEnd (plain c) = isLineEnd c := by
  unfold plain
  split
  · rename_i hinner
    rw [isInner, Bool.and_eq_true, Bool.not_eq_true'] at hinner
    rw [hinner.2]
    rfl
  · rfl

theorem eq_of_plain (hd : isInner d = false) (h : plain c = d) : c = d := by
  unfold plain at h
  split at h
  · subst h
    cases hd
  · exact h

theorem eq_cons_of_map_plain {cs ds : List Char} (hd : isInner d = false)
    (h : cs.map plain = d :: ds) : cs = d :: cs.tail := by
  obtain ⟨c, cs', rfl, hc, -⟩ := List.map_eq_cons_iff.mp h
  rw [eq_of_plain hd hc, List.tail_cons]

/-- Blanks that end no line are all the same with plain spaces. -/
theorem map_plain_swap (hc : isInner c = true) (hd : isInner d = true) (u v : List Char) :
    (u ++ c :: v).map plain = (u ++ d :: v).map plain := by
  simp [plain, hc, hd]

end Text

open Text (Point isInner plain eq_of_plain eq_cons_of_map_plain)

/-! ## Gaps -/

namespace Gap

theorem scan_plain (place : Place) (n : Nat) (cs : List Char) :
    scan place n (cs.map plain) = scan place n cs := by
  -- a `/` or `*` that is there with plain spaces was there before
  have hpair : ∀ {c d e : Char} {cs ds : List Char}, isInner c = false → isInner d = false →
      plain e = c → cs.map plain = d :: ds → e = c ∧ cs = d :: cs.tail :=
    fun hc hd he hcs => ⟨eq_of_plain hc he, eq_cons_of_map_plain hd hcs⟩
  fun_induction scan place n cs with
  | case1 n cs ih => exact ih
  | case2 n cs ih => exact ih
  | case3 n c cs hline hblock hspace ih =>
    rw [List.map_cons, scan, Text.isSpace_plain, if_pos hspace, ih]
    · exact fun ds hc hcs => (hpair (by decide) (by decide) hc hcs).elim (hline _)
    · exact fun ds hc hcs => (hpair (by decide) (by decide) hc hcs).elim (hblock _)
  | case4 n c cs hline hblock hspace =>
    rw [List.map_cons, scan, Text.isSpace_plain, if_neg hspace]
    · exact fun ds hc hcs => (hpair (by decide) (by decide) hc hcs).elim (hline _)
    · exact fun ds hc hcs => (hpair (by decide) (by decide) hc hcs).elim (hblock _)
  | case5 n c cs ih => rw [List.map_cons, scan, Text.isLineEnd_plain, ih]
  | case6 start n cs ih => exact ih
  | case7 start n c cs hends ih =>
    rw [List.map_cons, scan, ih]
    exact fun ds hc hcs => (hpair (by decide) (by decide) hc hcs).elim (hends _)
  | case8 => rfl
  | case9 place n hplace =>
    cases place with
    | blockComment start => exact absurd rfl (hplace start)
    | _ => rfl

/-- Behind a token no line is left out for its `#!`. -/
theorem at?_of_ne_zero {p : Point} (h : p.offset ≠ 0) : at? p = scan .between 0 p.rest := by
  unfold at?
  split
  · rename_i hzero _
    exact absurd hzero h
  · rfl

end Gap

open Gap (at? at?_of_ne_zero isSpace scan_plain)

/-! ## The token after a gap -/

namespace Cursor

variable {src src' : Source} {c c' : Cursor} {n : Nat}

/-- The cursors stand behind a token each. -/
structure Behind (c c' : Cursor) : Prop where
  clean : c.error = none
  clean' : c'.error = none
  inType : c.inType = c'.inType
  place : c.stop.offset ≠ 0 ∧ c'.stop.offset ≠ 0

/-- The cursors have read the same, though not in the same place, or have both failed. -/
structure Agrees (c c' : Cursor) : Prop where
  kind : c.kind = c'.kind
  keyword : c.keyword = c'.keyword
  start : c.start.rest = c'.start.rest
  stop : c.stop.rest = c'.stop.rest
  reading : Behind c c' ∨ c.error.isSome = true ∧ c'.error.isSome = true

/-- The cursors stand behind a token, before texts that begin with `u` and differ in the blank after
it. -/
structure Differs (c c' : Cursor) (u : List Char) : Prop extends Behind c c' where
  rest : ∃ a b v, c.stop.rest = u ++ a :: v ∧ c'.stop.rest = u ++ b :: v ∧
    isInner a = true ∧ isInner b = true

theorem fail_agrees (cause cause' : SyntaxError.Cause) (start start' stop stop' : Nat) :
    Agrees (c.fail src cause start stop) (c'.fail src' cause' start' stop') := by
  refine ⟨rfl, rfl, rfl, rfl, .inr ?_⟩
  simp [fail, raise, close]

section

variable (h : Behind c c') (hrest : (c.stop.skip n).rest = (c'.stop.skip n).rest)
include h hrest

theorem Behind.settle (kind : Kind) (keyword : Option Contextual) (m : Nat) :
    Agrees { c with kind, keyword, lastEnd := c.stop, start := c.stop.skip n,
                    stop := (c.stop.skip n).skip m }
      { c' with kind, keyword, lastEnd := c'.stop, start := c'.stop.skip n,
                stop := (c'.stop.skip n).skip m } := by
  refine ⟨rfl, rfl, hrest, congrArg (List.drop m) hrest, .inl ⟨h.clean, h.clean', h.inType, ?_⟩⟩
  have hplace := h.place
  simp only [Point.skip]
  omega

theorem Behind.readIn (hdialect : src.dialect = src'.dialect) (mode : Mode) :
    Agrees (Cursor.readIn src mode { c with lastEnd := c.stop, start := c.stop.skip n })
      (Cursor.readIn src' mode { c' with lastEnd := c'.stop, start := c'.stop.skip n }) := by
  cases mode with
  | code =>
    have hfit : fit src.dialect c.inType = fit src'.dialect c'.inType := by rw [h.inType, hdialect]
    dsimp only [Cursor.readIn, readCode]
    rw [hrest, hfit]
    split
    · exact h.settle hrest .eof none 0
    · split
      · exact fail_agrees ..
      · exact fail_agrees ..
      · exact h.settle hrest _ _ _
  | tag =>
    dsimp only [Cursor.readIn, readTag]
    rw [hrest]
    split
    · exact h.settle hrest .eof none 0
    · split
      · exact h.settle hrest _ none 1
      · split <;> split
        all_goals first
          | exact fail_agrees ..
          | exact h.settle hrest _ none _
  | template =>
    dsimp only [Cursor.readIn, readTemplate]
    rw [hrest]
    split
    · exact h.settle hrest _ none _
    · exact fail_agrees ..
  | child =>
    dsimp only [Cursor.readIn, readChild]
    rw [hrest]
    split
    · exact fail_agrees ..
    all_goals exact h.settle hrest _ none _

end

section

variable (hdialect : src.dialect = src'.dialect)
include hdialect

theorem Behind.afterGap (h : Behind c c') (hgap : at? c.stop = at? c'.stop)
    (hrest : ∀ n, at? c.stop = .ends n → (c.stop.skip n).rest = (c'.stop.skip n).rest)
    {mode : Mode} (hmode : mode = .code ∨ mode = .tag) :
    Agrees (c.advance src mode) (c'.advance src' mode) := by
  rw [advance_eq src mode h.clean, advance_eq src' mode h.clean']
  rcases hmode with rfl | rfl <;> dsimp only [Cursor.afterGap] <;> rw [← hgap] <;> split
  · exact fail_agrees ..
  · exact h.readIn (hrest _ (by assumption)) hdialect .code
  · exact fail_agrees ..
  · exact h.readIn (hrest _ (by assumption)) hdialect .tag

/-- What is read next depends on nothing that was read. -/
theorem Agrees.advance (h : Agrees c c') (mode : Mode) :
    Agrees (c.advance src mode) (c'.advance src' mode) := by
  rcases h.reading with hbehind | ⟨hfailed, hfailed'⟩
  · have hgap : at? c.stop = at? c'.stop := by
      rw [at?_of_ne_zero hbehind.place.1, at?_of_ne_zero hbehind.place.2, h.stop]
    have hrest : ∀ n, (c.stop.skip n).rest = (c'.stop.skip n).rest :=
      fun n => congrArg (List.drop n) h.stop
    have hread := hbehind.readIn (hrest 0) hdialect mode
    cases mode with
    | code => exact hbehind.afterGap hdialect hgap (fun n _ => hrest n) (.inl rfl)
    | tag => exact hbehind.afterGap hdialect hgap (fun n _ => hrest n) (.inr rfl)
    | template | child =>
      rw [advance_eq src _ hbehind.clean, advance_eq src' _ hbehind.clean']
      exact hread
  · unfold Cursor.advance scan
    rw [if_pos hfailed, if_pos hfailed']
    exact ⟨rfl, rfl, rfl, rfl, .inr ⟨hfailed, hfailed'⟩⟩

omit hdialect in
/-- Reads on, in a type or not. -/
def readAs (src : Source) (c : Cursor) (r : Bool × Mode) : Cursor :=
  { c with inType := r.1 }.advance src r.2

theorem Agrees.readAs (h : Agrees c c') (r : Bool × Mode) :
    Agrees (c.readAs src r) (c'.readAs src' r) := by
  have hsame : Agrees { c with inType := r.1 } { c' with inType := r.1 } :=
    ⟨h.kind, h.keyword, h.start, h.stop,
      h.reading.imp_left fun h => ⟨h.clean, h.clean', rfl, h.place⟩⟩
  exact hsame.advance hdialect r.2

/-- When a blank in a gap is replaced, all tokens after it stay what they are, however they are
read. -/
theorem advance_swap {u : List Char} (h : Differs c c' u) (hgap : at? c.stop = .ends n)
    (hwithin : u.length < n) {mode : Mode} (hmode : mode = .code ∨ mode = .tag)
    (reads : List (Bool × Mode)) : Agrees (reads.foldl (readAs src) (c.advance src mode))
      (reads.foldl (readAs src') (c'.advance src' mode)) := by
  obtain ⟨a, b, v, hrest, hrest', ha, hb⟩ := h.rest
  have hsame : at? c.stop = at? c'.stop := by
    rw [at?_of_ne_zero h.place.1, at?_of_ne_zero h.place.2, hrest, hrest',
      ← scan_plain, ← scan_plain _ _ (u ++ b :: v), Text.map_plain_swap ha hb]
  have hdrop : ∀ x : Char, (u ++ x :: v).drop n = v.drop (n - (u.length + 1)) := by
    intro x
    rw [List.append_cons, List.drop_append, List.drop_eq_nil_of_le (by simp; omega)]
    simp
  have hfirst := h.toBehind.afterGap hdialect hsame (fun m hm => by
    cases hgap.symm.trans hm
    rw [Point.skip, Point.skip, hrest, hrest', hdrop, hdrop]) hmode
  generalize c.advance src mode = c₁, c'.advance src' mode = c₁' at hfirst
  induction reads generalizing c₁ c₁' with
  | nil => exact hfirst
  | cons r reads ih => exact ih _ _ (hfirst.readAs hdialect r)

end

end Cursor

/-! ## Words -/

namespace Lexeme

theorem wide_of_isNamePart {c : Char} (hspace : isSpace c = true)
    (hpart : isNamePart c = true) :
    0x80 ≤ c.toNat := by
  have hnarrow : ∀ n < 0x80, isSpace (Char.ofNat n) = true →
      isNamePart (Char.ofNat n) = false := by
    decide
  by_contra hlt
  have hnot := hnarrow c.toNat (by omega)
  rw [Char.ofNat_toNat] at hnot
  rw [hnot hspace] at hpart
  cases hpart

/-- A word goes on over what is beyond ASCII, and with it is a plain name. -/
theorem read_over {word rest : List Char} {d : Char}
    (hword : Text.Worded isNameStart isNamePart word)
    (hwide : 0x80 ≤ d.toNat) :
    ∃ l, read (word ++ d :: rest) = .lexeme l ∧ l.kind = .name ∧ word.length < l.length := by
  have hd : isNamePart d = true := by simp [isNamePart, isNameStart, hwide]
  have hnarrow : (Kind.reservedWords.all fun p => p.1.toList.all (·.toNat < 0x80)) = true := by
    decide +kernel
  have hrun :
      (word ++ d :: rest).takeWhile isNamePart = word ++ d :: rest.takeWhile isNamePart := by
    rw [List.takeWhile_append_of_pos, List.takeWhile_cons_of_pos hd]
    obtain ⟨c, tail, rfl, hc, htail⟩ := hword
    exact List.forall_mem_cons.mpr ⟨by rw [isNamePart, hc, Bool.true_or], htail⟩
  have hbrace : (d :: rest).head? ≠ some '\x7b' := by
    rintro ⟨⟩
    exact absurd hwide (by decide)
  refine ⟨_, read_word hword fun _ => hbrace, ?_, ?_⟩
  · rw [name, hrun]
    refine (classify_name_iff _).mpr fun hmem => ?_
    obtain ⟨p, hp, hword⟩ := List.mem_map.mp hmem
    have hlt := List.all_eq_true.mp (List.all_eq_true.mp hnarrow p hp) d (by simp [hword])
    simp only [decide_eq_true_eq] at hlt
    omega
  · rw [name, hrun]
    simp

end Lexeme

namespace Grammar

variable {text : List Char} {dialect : Dialect} {stream : TokenStream}

/-- The blanks in words are those beyond ASCII, as a word goes on over every such blank. A blank in
a gap may be replaced by another, as long as neither ends a line: the tokens after it stay what they
are. -/
theorem parse_blanks (hparse : parse text dialect = .ok (.ok stream)) :
    (∀ t ∈ stream.tokens, t.kind.isWord = true ∨ t.kind = .privateName →
      ∀ e ∈ t.text text, isSpace e = true → 0x80 ≤ e.toNat) ∧
    (∀ (word rest : List Char) (d : Char), Text.Worded Lexeme.isNameStart Lexeme.isNamePart word →
      0x80 ≤ d.toNat →
      ∃ l, Lexeme.read (word ++ d :: rest) = .lexeme l ∧ l.kind = .name ∧ word.length < l.length) ∧
    ∀ (text' u : List Char) (c c' : Cursor) (n : Nat) (mode : Mode) (reads : List (Bool × Mode)),
      c.Differs c' u → at? c.stop = .ends n → u.length < n → mode = .code ∨ mode = .tag →
      (reads.foldl (Cursor.readAs ⟨text, dialect⟩) (c.advance ⟨text, dialect⟩ mode)).Agrees
        (reads.foldl (Cursor.readAs ⟨text', dialect⟩) (c'.advance ⟨text', dialect⟩ mode)) := by
  refine ⟨fun t ht hkind e he hspace => ?_, fun word rest d hword hwide => ?_, ?_⟩
  · have hspells := parse_spells hparse ht
    refine Lexeme.wide_of_isNamePart hspace ?_
    rcases hkind with hword | hhidden
    · obtain ⟨c, tail, htext, hc, htail⟩ := hspells.word hword
      rcases List.mem_cons.mp (htext ▸ he) with rfl | he
      · rw [Lexeme.isNamePart, hc, Bool.true_or]
      · exact htail e he
    · obtain ⟨tail, htext, htail⟩ := hspells.hidden hhidden
      rcases List.mem_cons.mp (htext ▸ he) with rfl | he
      · exact absurd hspace (by decide)
      · exact htail e he
  · exact Lexeme.read_over hword hwide
  · intro text' u c c' n mode reads h hgap hwithin hmode
    exact Cursor.advance_swap (by rfl) h hgap hwithin hmode reads

/-- A name with a blank in it, which is a no-break space. -/
theorem exists_blank_in_name :
    let text := "let".toList ++ Char.ofNat 0xA0 :: "x;".toList
    ∃ stream t e, parse text {} = .ok (.ok stream) ∧ t ∈ stream.tokens ∧ t.kind.isWord = true ∧
      e ∈ t.text text ∧ isSpace e = true := by
  intro text
  obtain ⟨stream, hparse, t, ht, hword, hblank⟩ : ∃ stream, parse text {} = .ok (.ok stream) ∧
      ∃ t ∈ stream.tokens[0]?, t.kind.isWord = true ∧ (t.text text).any isSpace = true :=
    exists_accepted (by decide +kernel)
  obtain ⟨e, he, hspace⟩ := List.any_eq_true.mp hblank
  exact ⟨stream, t, e, hparse, Array.mem_of_getElem? ht, hword, he, hspace⟩

theorem parse_blanks_name :
    let text := "let".toList ++ Char.ofNat 0xA0 :: "x;".toList
    ∃ stream t e, parse text {} = .ok (.ok stream) ∧ t ∈ stream.tokens ∧ t.kind.isWord = true ∧
      e ∈ t.text text ∧ isSpace e = true ∧ 0x80 ≤ e.toNat := by
  obtain ⟨stream, t, e, hparse, ht, hword, he, hspace⟩ := exists_blank_in_name
  exact ⟨stream, t, e, hparse, ht, hword, he, hspace,
    (parse_blanks hparse).1 t ht (.inl hword) e he hspace⟩

theorem blank_in_name : ¬ ∀ (text : List Char) (dialect : Dialect) (stream : TokenStream),
    parse text dialect = .ok (.ok stream) →
    ∀ t ∈ stream.tokens, t.kind.isWord = true ∨ t.kind = .privateName →
      ∀ e ∈ t.text text, isSpace e = false := by
  intro h
  obtain ⟨stream, t, e, hparse, ht, hword, he, hspace⟩ := exists_blank_in_name
  rw [h _ _ stream hparse t ht (.inl hword) e he] at hspace
  cases hspace

end Grammar

end Downlevel
