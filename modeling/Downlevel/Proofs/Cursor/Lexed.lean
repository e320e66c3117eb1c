import Downlevel.Proofs.Cursor.Advance
import Downlevel.Proofs.Text.Literal

/-!
# The texts of tokens

What the text of a token may be, by its kind (`Kind.Spells`). Text between tags that counts as a
child is not there for the layout alone, names are made of the characters of
names, and no line ends in any token but strings, template pieces and text between tags. Every token
that the cursor comes to is so (`advance_lexed`). A string in a tag has no quote of its own between
its quotes (`advance_tag_quoted`), and elsewhere it is a literal (`advance_strung`).
-/

namespace Downlevel

open Text (Point)

variable {l : Lexeme} {part start : Char → Bool} {rest : List Char}

/-! ## Basic characters -/

namespace Text

/-- Below a bound, only the ranges that begin below it count. -/
theorem inRanges_filter (ranges : List (Nat × Nat)) {c : Char} {bound : Nat} (h : c.toNat < bound) :
    inRanges ranges c = inRanges (ranges.filter (·.1 < bound)) c := by
  rw [inRanges, inRanges, List.any_filter]
  refine List.any_congr rfl fun range => ?_
  by_cases hfirst : range.1 ≤ c.toNat
  · simp [hfirst, Nat.lt_of_le_of_lt hfirst h]
  · simp [hfirst]

theorem isAlphabetic_of_lt {c : Char} (h : c.toNat < 128) : isAlphabetic c = c.isAlpha := by
  have hranges : alphabeticRanges.filter (·.1 < 128) = [(65, 90), (97, 122)] := by decide +kernel
  have hletter : c.isAlpha = (decide (c.val ≥ 'A'.val ∧ c.val ≤ 'Z'.val) ||
      (decide (c.val ≥ 'a'.val) && decide (c.val ≤ 'z'.val))) := rfl
  rw [isAlphabetic, inRanges_filter _ h, hranges, hletter]
  simp [inRanges, UInt32.le_iff_toNat_le]

theorem isNumeric_of_lt {c : Char} (h : c.toNat < 128) : isNumeric c = c.isDigit := by
  have hranges : numericRanges.filter (·.1 < 128) = [(48, 57)] := by decide +kernel
  rw [isNumeric, inRanges_filter _ h, hranges]
  simp [inRanges, Char.isDigit, UInt32.le_iff_toNat_le]

end Text

/-! ## Kinds and texts -/

/-- Line feeds may stand in tokens of the kind. -/
def Kind.Spacious (k : Kind) : Prop := k ∈ [Kind.template, .jsxText, .jsxEmptyText, .string]

instance (k : Kind) : Decidable k.Spacious := inferInstanceAs (Decidable (_ ∈ _))

/-- The kind is that of a word: a name, or a word that may be taken for one. -/
def Kind.isWord (k : Kind) : Bool := k == .name || k.isReserved

/-- The only text of a mark that stands in names. -/
def Kind.mark : Kind → Option Char
  | .dot => some '.'
  | .colon => some ':'
  | _ => none

/-- A character of one class, and after it those of another. -/
def Text.Worded (start part : Char → Bool) (cs : List Char) : Prop :=
  ∃ c rest, cs = c :: rest ∧ start c = true ∧ ∀ d ∈ rest, part d = true

theorem Text.Worded.single {c : Char} (h : start c = true) :
    Text.Worded start part [c] := ⟨c, [], rfl, h, by simp⟩

/-- A text between two quotes of one sort, with no such quote in it. -/
def Text.Quoted (cs : List Char) : Prop :=
  ∃ quote inner, cs = quote :: (inner ++ [quote]) ∧ (quote = '"' ∨ quote = '\'') ∧ quote ∉ inner

/-- A token of the kind may have the text. -/
structure Kind.Spells (k : Kind) (cs : List Char) : Prop where
  text : k = .jsxText → cs ≠ [] ∧ Piece.isLayout cs = false
  line : ¬ k.Spacious → '\n' ∉ cs
  word : k.isWord = true → Text.Worded Lexeme.isNameStart Lexeme.isNamePart cs
  tagName : k = .jsxName → Text.Worded Piece.isTagNameStart Piece.isTagNamePart cs
  mark : ∀ c, k.mark = some c → cs = [c]
  hidden : k = .privateName → ∃ rest, cs = '#' :: rest ∧ ∀ d ∈ rest, Lexeme.isNamePart d = true

/-- Of the text of tokens of the kind, nothing is said but that it is on one line. -/
def Kind.Loose (k : Kind) : Prop :=
  ¬ k.Spacious ∧ k.isWord = false ∧ k ≠ .jsxName ∧ k.mark = none ∧ k ≠ .privateName

instance (k : Kind) : Decidable k.Loose := inferInstanceAs (Decidable (_ ∧ _))

namespace Kind.Spells

variable {k : Kind} {cs : List Char}

theorem of_line (hk : k.Loose) (h : '\n' ∉ cs) : k.Spells cs := by
  obtain ⟨hline, hword, hname, hmark, hhidden⟩ := hk
  refine ⟨?_, fun _ => h, ?_, fun hk => absurd hk hname, ?_, fun hk => absurd hk hhidden⟩
  · rintro rfl
    exact absurd (by decide) hline
  · intro hk
    rw [hword] at hk
    cases hk
  · intro c hc
    rw [hmark] at hc
    cases hc

theorem of_spacious (hk : k.Spacious)
    (htext : k = .jsxText → cs ≠ [] ∧ Piece.isLayout cs = false) : k.Spells cs := by
  have hplain : ∀ k : Kind, k.Spacious →
      k.isWord = false ∧ k ≠ .jsxName ∧ k.mark = none ∧ k ≠ .privateName := by
    intro k hk
    simp only [Spacious, List.mem_cons, List.not_mem_nil, or_false] at hk
    rcases hk with rfl | rfl | rfl | rfl <;> decide
  obtain ⟨hword, hname, hmark, hhidden⟩ := hplain k hk
  refine ⟨htext, fun hline => absurd hk hline, ?_, fun hk => absurd hk hname, ?_,
    fun hk => absurd hk hhidden⟩
  · intro hk
    rw [hword] at hk
    cases hk
  · intro c hc
    rw [hmark] at hc
    cases hc

theorem of_mark {c : Char} (h : k.mark = some c) : k.Spells [c] := by
  unfold Kind.mark at h
  split at h
  iterate 2
    · cases h
      exact ⟨nofun, fun _ => by decide, nofun, nofun, fun c hc => by cases hc; rfl, nofun⟩
  · cases h

theorem line_of_isWord (h : k.isWord = true) :
    ¬ k.Spacious ∧ k ≠ .jsxName ∧ k.mark = none ∧ k ≠ .privateName := by
  cases k <;> first | decide | cases h

theorem not_mem_worded (hstart : start '\n' = false) (hpart : part '\n' = false)
    (h : Text.Worded start part cs) : '\n' ∉ cs := by
  obtain ⟨c, rest, rfl, hc, hrest⟩ := h
  intro hmem
  rcases List.mem_cons.mp hmem with rfl | hmem
  · rw [hstart] at hc
    cases hc
  · rw [hrest _ hmem] at hpart
    cases hpart

theorem of_word (hk : k.isWord = true)
    (h : Text.Worded Lexeme.isNameStart Lexeme.isNamePart cs) : k.Spells cs := by
  obtain ⟨hline, hname, hmark, hhidden⟩ := line_of_isWord hk
  refine ⟨?_, fun _ => not_mem_worded (by decide) (by decide) h, fun _ => h,
    fun hk => absurd hk hname, fun c hc => (nomatch hmark.symm.trans hc),
    fun hk => absurd hk hhidden⟩
  rintro rfl
  exact absurd (by decide) hline

theorem of_tagName (h : Text.Worded Piece.isTagNameStart Piece.isTagNamePart cs) :
    Kind.jsxName.Spells cs :=
  ⟨nofun, fun _ => not_mem_worded (by decide +kernel) (by decide +kernel) h, nofun,
    fun _ => h, nofun, nofun⟩

theorem of_hidden (h : ∀ d ∈ rest, Lexeme.isNamePart d = true) :
    Kind.privateName.Spells ('#' :: rest) := by
  refine ⟨nofun, fun _ => ?_, nofun, nofun, nofun, fun _ => ⟨rest, rfl, h⟩⟩
  intro hmem
  rcases List.mem_cons.mp hmem with hhash | hmem
  · cases hhash
  · cases (h _ hmem).symm.trans (by decide : Lexeme.isNamePart '\n' = false)

end Kind.Spells

/-! ## Lexemes -/

namespace Lexeme

variable {cs : List Char} {n m : Nat}

theorem take_runLength (p : Char → Bool) (cs : List Char) :
    cs.take (runLength p cs) = cs.takeWhile p :=
  List.prefix_iff_eq_take.mp (List.takeWhile_prefix p) |>.symm

theorem take_runLength_succ {p : Char → Bool} (h : runLength p cs < cs.length) :
    ∃ c, cs.take (runLength p cs + 1) = cs.takeWhile p ++ [c] ∧ p c = false := by
  unfold runLength at h ⊢
  induction cs with
  | nil => cases h
  | cons c cs ih =>
    cases hc : p c with
    | false => exact ⟨c, by simp [hc], hc⟩
    | true =>
      rw [List.takeWhile_cons_of_pos hc] at h ⊢
      obtain ⟨d, htake, hd⟩ := ih (Nat.lt_of_succ_lt_succ h)
      exact ⟨d, by simp [htake], hd⟩

theorem not_mem_run {p : Char → Bool} (hp : p '\n' = false) (cs : List Char) :
    '\n' ∉ cs.take (runLength p cs) := by
  rw [take_runLength]
  intro hmem
  rw [List.all_eq_true.mp List.all_takeWhile _ hmem] at hp
  cases hp

theorem not_mem_take_add (h : '\n' ∉ cs.take n) (h' : '\n' ∉ (cs.drop n).take m) :
    '\n' ∉ cs.take (n + m) := by
  rw [List.take_add, List.mem_append]
  exact not_or.mpr ⟨h, h'⟩

theorem not_mem_exponent (cs : List Char) : '\n' ∉ cs.take (exponentLength cs) := by
  unfold exponentLength
  split
  · rename_i mark cs
    split
    · rename_i hmark
      extract_lets sign digits
      split
      · have hfirst : '\n' ∉ (mark :: cs).take 1 := by
          intro hmem
          obtain rfl : '\n' = mark := by simpa using hmem
          exact absurd hmark (by decide)
        have hsign : '\n' ∉ cs.take sign := by
          intro hmem
          unfold sign at hmem
          split at hmem
          · rename_i hsigned
            cases cs with
            | nil => cases hmem
            | cons c cs =>
              obtain rfl : '\n' = c := by simpa using hmem
              cases hsigned
          · cases hmem
        rw [Nat.add_assoc]
        exact not_mem_take_add hfirst (not_mem_take_add hsign (not_mem_run (by decide) _))
      · simp
    · simp
  · simp

theorem radixDigit?_line {mark : Char} {isDigit : Char → Bool}
    (h : radixDigit? mark = some isDigit) : isDigit '\n' = false := by
  unfold radixDigit? at h
  split at h <;> cases h <;> decide

theorem not_mem_take_one {c : Char} (h : cs.head? = some c) (hc : c ≠ '\n') : '\n' ∉ cs.take 1 := by
  cases cs with
  | nil => cases h
  | cons d cs =>
    obtain rfl := Option.some.inj h
    simpa using hc.symm

theorem radixNumber?_line (h : radixNumber? cs = some l) :
    l.kind.Loose ∧ '\n' ∉ cs.take l.length := by
  unfold radixNumber? at h
  split at h
  · rename_i mark digits
    simp only [Option.bind_eq_bind, Option.bind_eq_some_iff] at h
    obtain ⟨isDigit, hdigit, h⟩ := h
    have hmark : '\n' ∉ ('0' :: mark :: digits).take 2 := by
      intro hmem
      obtain rfl : '\n' = mark := by simpa using hmem
      cases hdigit
    have hrun := not_mem_run (p := fun c => isDigit c || c == '_')
      (by simp [radixDigit?_line hdigit]) digits
    generalize runLength (fun c => isDigit c || c == '_') digits = n at h hrun
    split at h
    · rename_i hbig
      obtain rfl := Option.some.inj h
      simp only [Bool.and_eq_true, beq_iff_eq] at hbig
      refine ⟨(by decide : Kind.bigInt.Loose), ?_⟩
      rw [show n + 3 = 2 + (n + 1) by omega]
      exact not_mem_take_add hmark
        (not_mem_take_add hrun (not_mem_take_one hbig.2 (by decide)))
    · split at h
      · obtain rfl := Option.some.inj h
        refine ⟨(by decide : Kind.num.Loose), ?_⟩
        rw [show n + 2 = 2 + n by omega]
        exact not_mem_take_add hmark hrun
      · cases h
  · cases h

theorem decimalNumber?_line (h : decimalNumber? cs = some l) :
    l.kind.Loose ∧ '\n' ∉ cs.take l.length := by
  have hdigits := not_mem_run (p := isDigitPart) (by decide)
  unfold decimalNumber? at h
  split at h
  · rename_i digits
    split at h
    · obtain rfl := Option.some.inj h
      refine ⟨(by decide : Kind.num.Loose), not_mem_take_add ?_ (not_mem_exponent _)⟩
      exact not_mem_take_add (not_mem_take_one rfl (by decide)) (hdigits digits)
    · cases h
  · rename_i c cs _
    split at h
    · dsimp only at h
      have hwhole := hdigits (c :: cs)
      generalize runLength isDigitPart (c :: cs) = n at h hwhole
      split at h <;> obtain rfl := Option.some.inj h
      · rename_i hdrop
        refine ⟨(by decide : Kind.bigInt.Loose), not_mem_take_add hwhole ?_⟩
        rw [hdrop]
        exact not_mem_take_one rfl (by decide)
      · rename_i digits hdrop
        refine ⟨(by decide : Kind.num.Loose), not_mem_take_add ?_ (not_mem_exponent _)⟩
        rw [Nat.add_assoc]
        refine not_mem_take_add hwhole ?_
        rw [hdrop]
        exact not_mem_take_add (not_mem_take_one rfl (by decide)) (hdigits digits)
      · exact ⟨(by decide : Kind.num.Loose), not_mem_take_add hwhole (not_mem_exponent _)⟩
    · cases h
  · cases h

theorem punctuator?_spells (h : punctuator? cs = some l) :
    l.kind.Spells (cs.take l.length) := by
  have hall : ∀ p ∈ punctuators,
      p.2.Loose ∧ '\n' ∉ p.1 ∨ (p.2.mark.map fun c => [c]) = some p.1 := by decide +kernel
  obtain ⟨p, hp, rfl⟩ := Option.map_eq_some_iff.mp h
  have hhead := List.find?_some hp
  obtain ⟨rest, rfl⟩ : p.1 <+: cs := List.isPrefixOf_iff_prefix.mp hhead
  dsimp only
  rw [List.take_left]
  rcases hall p (List.mem_of_find?_eq_some hp) with ⟨hkind, hline⟩ | hmark
  · exact .of_line hkind hline
  · obtain ⟨c, hc, hspelling⟩ := Option.map_eq_some_iff.mp hmark
    rw [← hspelling]
    exact .of_mark hc

theorem classify_isWord (word : String) : (classify word).1.isWord = true :=
  classify_of (P := (·.isWord = true)) rfl (by decide) word

theorem classify_name_iff (word : String) :
    (classify word).1 = .name ↔ word ∉ Kind.reservedWords.map (·.1) := by
  have hnames : ∀ p ∈ Kind.reservedWords, p.2 ≠ .name := by decide
  unfold classify
  split
  · rename_i kind hkind
    obtain ⟨l₁, l₂, hmem, -⟩ := List.lookup_eq_some_iff.mp hkind
    have hentry : (word, kind) ∈ Kind.reservedWords := by rw [hmem]; simp
    exact ⟨fun h => absurd h (hnames _ hentry), fun h =>
      absurd (List.mem_map.mpr ⟨_, hentry, rfl⟩) h⟩
  · rename_i hnone
    refine ⟨fun _ hmem => ?_, fun _ => rfl⟩
    obtain ⟨p, hp, rfl⟩ := List.mem_map.mp hmem
    simpa using List.lookup_eq_none_iff.mp hnone p hp

/-- What begins with a word is read as one, as long as its characters go on. -/
theorem read_word {word : List Char} (hword : Text.Worded isNameStart isNamePart word)
    (hbrace : word = ['$'] → rest.head? ≠ some '\x7b') :
    read (word ++ rest) = .lexeme (name (word ++ rest)) := by
  obtain ⟨c, tail, rfl, hc, htail⟩ := hword
  unfold read
  split
  · rename_i hnil
    cases hnil
  · rename_i after hopening
    cases tail with
    | nil =>
      obtain ⟨rfl, rfl⟩ := List.cons_eq_cons.mp hopening
      exact absurd rfl (hbrace rfl)
    | cons d tail =>
      cases hopening
      exact absurd (htail '\x7b' List.mem_cons_self) (by decide)
  · rename_i first after _ hfirst
    obtain ⟨rfl, rfl⟩ := List.cons_eq_cons.mp hfirst
    rw [if_pos hc]

theorem worded_run {c : Char} (hstart : start c = true) (hpart : part c = true) :
    Text.Worded start part ((c :: rest).take (runLength part (c :: rest))) := by
  rw [take_runLength, List.takeWhile_cons_of_pos hpart]
  exact ⟨c, _, rfl, hstart, fun d hd => List.all_eq_true.mp List.all_takeWhile d hd⟩

theorem number?_line (h : number? cs = some l) :
    l.kind.Loose ∧ '\n' ∉ cs.take l.length := by
  rcases Option.or_eq_some_iff.mp h with hradix | ⟨-, hdecimal⟩
  · exact radixNumber?_line hradix
  · exact decimalNumber?_line hdecimal

/-- What is read in code may be the text of a token of its kind. -/
theorem read_spells (h : read cs = .lexeme l) : l.kind.Spells (cs.take l.length) := by
  cases leads_of_read h with
  | substitution => exact .of_line (by decide) (by simp)
  | @name c _ hstart =>
    have hpart : isNamePart c = true := by simp [isNamePart, hstart]
    exact .of_word (classify_isWord _) (worded_run hstart hpart)
  | hidden rest =>
    show Kind.privateName.Spells (('#' :: rest).take (1 + runLength isNamePart rest))
    rw [Nat.add_comm, List.take_succ_cons, take_runLength]
    exact .of_hidden (List.all_eq_true.mp List.all_takeWhile)
  | string =>
    have htext : Kind.string ≠ .jsxText := by decide
    exact .of_spacious (by decide : Kind.string.Spacious) (absurd · htext)
  | number hnumber => exact .of_line (number?_line hnumber).1 (number?_line hnumber).2
  | punctuator hpunctuator => exact punctuator?_spells hpunctuator

theorem read_string (h : read cs = .lexeme l) (hstring : l.kind = .string) :
    Text.Literal.isString (cs.take l.length) = true := by
  cases leads_of_read h with
  | substitution => cases hstring
  | @name c rest =>
    have hword := classify_isWord (String.ofList ((c :: rest).takeWhile isNamePart))
    rw [show (classify _).1 = .string from hstring] at hword
    cases hword
  | hidden => cases hstring
  | string hquote hbody =>
    obtain ⟨hle, htake⟩ := Text.Literal.stringBody_take hbody
    rw [List.take_succ_cons, Text.Literal.isString_iff (by simpa using hquote), htake,
      List.length_take, Nat.min_eq_left hle]
  | number hnumber =>
    have hloose := (number?_line hnumber).1
    rw [hstring] at hloose
    exact absurd hloose (by decide)
  | punctuator hpunctuator =>
    obtain ⟨p, hp, rfl⟩ := Option.map_eq_some_iff.mp hpunctuator
    have hall : ∀ p ∈ punctuators, p.2 ≠ .string := by decide +kernel
    exact absurd hstring (hall p (List.mem_of_find?_eq_some hp))

end Lexeme

/-! ## The cursor -/

namespace Cursor

/-- The text of the current token fits its kind. -/
def Lexed (c : Cursor) : Prop :=
  ∃ n, c.stop = c.start.skip n ∧ c.kind.Spells (c.start.rest.take n)

variable {src : Source} {c : Cursor}

theorem fit_spells (dialect : Dialect) (inType : Bool) {cs : List Char} (hpos : 0 < l.length)
    (h : l.kind.Spells (cs.take l.length)) :
    (fit dialect inType cs l).1.Spells (cs.take (fit dialect inType cs l).2) := by
  rcases fit_cases dialect inType cs l with heq | ⟨hl, k, hk, heq⟩ <;> rw [heq]
  · exact h
  · have hloose : ∀ k ∈ [Kind.braceL, .bitOr, .question, .lessThan, .greaterThan], k.Loose := by
      decide
    refine .of_line (hloose k hk) fun hmem => h.line ?_ (List.mem_of_mem_take (i := 1) ?_)
    · revert hl
      generalize l.kind = kind
      revert kind
      decide
    · rwa [List.take_take, Nat.min_eq_left hpos]

theorem readCode_lexed (h : (readCode src c).error = none) : (readCode src c).Lexed := by
  unfold readCode at h ⊢
  split at h
  · exact ⟨0, rfl, .of_line (by decide : Kind.eof.Loose) (by simp)⟩
  · split at h
    · exact (not_failed h).elim
    · exact (not_failed h).elim
    · rename_i l hl
      exact ⟨_, rfl, fit_spells src.dialect c.inType (Lexeme.read_real hl).pos
        (Lexeme.read_spells hl)⟩

theorem tagPunctuation?_spells {ch : Char} {kind : Kind} (h : tagPunctuation? ch = some kind) :
    kind.Spells [ch] := by
  unfold tagPunctuation? at h
  split at h <;> cases h <;>
    first | exact .of_line (by decide) (by decide) | exact .of_mark rfl

/-- An attribute value ends with the first quote like the one that opens it. -/
theorem attributeValue?_quoted {quote : Char} {cs : List Char} {n : Nat}
    (h : Piece.attributeValue? quote cs = some n) :
    ∃ inner, cs.take n = inner ++ [quote] ∧ quote ∉ inner := by
  unfold Piece.attributeValue? at h
  dsimp only at h
  split at h
  · rename_i hlt
    obtain rfl := Option.some.inj h
    obtain ⟨last, htake, hlast⟩ := Lexeme.take_runLength_succ hlt
    obtain rfl : last = quote := by simpa using hlast
    refine ⟨_, htake, fun hmem => ?_⟩
    exact absurd (List.all_eq_true.mp List.all_takeWhile _ hmem) (by simp)
  · cases h

theorem readTag_lexed (h : (readTag src c).error = none) : (readTag src c).Lexed := by
  obtain ⟨kind, n, hreads, heq⟩ := readTag_eq h
  rw [heq]
  refine ⟨n, rfl, (?_ : kind.Spells (c.start.rest.take n))⟩
  generalize c.start.rest = cs at hreads ⊢
  cases hreads with
  | ended => exact .of_line (by decide) (by simp)
  | mark hkind => exact tagPunctuation?_spells hkind
  | value => exact .of_spacious (by decide) nofun
  | name hstart => exact .of_tagName (Lexeme.worded_run hstart (isTagNamePart_of_start hstart))

theorem readChild_lexed (h : (readChild src c).error = none) : (readChild src c).Lexed := by
  unfold readChild at h ⊢
  split at h
  · exact (not_failed h).elim
  · rename_i hrest
    refine ⟨1, rfl, .of_line (by decide : Kind.jsxTagStart.Loose) ?_⟩
    exact Lexeme.not_mem_take_one (congrArg List.head? hrest) (by decide)
  · rename_i hrest
    refine ⟨1, rfl, .of_line (by decide : Kind.braceL.Loose) ?_⟩
    exact Lexeme.not_mem_take_one (congrArg List.head? hrest) (by decide)
  · rename_i hnil htag hbrace
    have htake : c.start.rest.take (Piece.elementText c.start.rest).length =
        Piece.elementText c.start.rest := Lexeme.take_runLength _ _
    refine ⟨_, rfl, ?_⟩
    show Kind.Spells (if _ then _ else _) (c.start.rest.take _)
    rw [htake]
    split
    · exact .of_spacious (by decide) nofun
    · rename_i hlayout
      exact .of_spacious (by decide) fun _ =>
        ⟨elementText_ne_nil hnil htag hbrace, by simpa using hlayout⟩

theorem advance_lexed {mode : Mode} (h : (c.advance src mode).error = none) :
    (c.advance src mode).Lexed := by
  obtain ⟨_, -, h, heq⟩ := advance_reads h
  rw [heq]
  cases mode with
  | code => exact readCode_lexed h
  | tag => exact readTag_lexed h
  | template =>
    obtain ⟨hsettled, hkind, -⟩ := readTemplate_settled h
    obtain ⟨n, hstop⟩ := hsettled.stop
    refine ⟨n, hstop, .of_spacious (hkind ▸ by decide) fun htext => ?_⟩
    cases hkind.symm.trans htext
  | child => exact readChild_lexed h

/-- The text of the current token is as `P` says, if the token is a string. -/
def Strung (P : List Char → Prop) (c : Cursor) : Prop :=
  c.kind = .string → ∃ n, c.stop = c.start.skip n ∧ P (c.start.rest.take n)

theorem readTag_quoted (h : (readTag src c).error = none) : (readTag src c).Strung Text.Quoted := by
  obtain ⟨kind, n, hreads, heq⟩ := readTag_eq h
  rw [heq]
  refine fun (hstring : kind = .string) => ⟨n, rfl, (?_ : Text.Quoted (c.start.rest.take n))⟩
  generalize c.start.rest = cs at hreads ⊢
  cases hreads with
  | ended => cases hstring
  | mark hkind =>
    unfold tagPunctuation? at hkind
    split at hkind <;> cases hkind <;> cases hstring
  | @value ch _ _ hquote hvalue =>
    obtain ⟨inner, htake, hinner⟩ := attributeValue?_quoted hvalue
    rw [List.take_succ_cons, htake]
    exact ⟨ch, inner, rfl, by simpa using hquote, hinner⟩
  | name => cases hstring

theorem advance_tag_quoted (h : (c.advance src .tag).error = none) :
    (c.advance src .tag).Strung Text.Quoted := by
  obtain ⟨_, -, h, heq⟩ := advance_reads h
  exact heq ▸ readTag_quoted h

/-- What is read in code is cut down to less only if it is no string. -/
theorem fit_string {dialect : Dialect} {inType : Bool} {cs : List Char}
    (h : (fit dialect inType cs l).1 = .string) :
    l.kind = .string ∧ (fit dialect inType cs l).2 = l.length := by
  rcases fit_cases dialect inType cs l with heq | ⟨-, k, hk, heq⟩ <;> rw [heq] at h ⊢
  · exact ⟨h, rfl⟩
  · rw [show k = .string from h] at hk
    exact absurd hk (by decide)

theorem readCode_strung (h : (readCode src c).error = none) :
    (readCode src c).Strung (Text.Literal.isString · = true) := by
  unfold readCode at h ⊢
  split at h
  · exact nofun
  · split at h
    · exact (not_failed h).elim
    · exact (not_failed h).elim
    · rename_i l hl
      intro hkind
      obtain ⟨hstring, hlength⟩ := fit_string hkind
      exact ⟨_, rfl, hlength ▸ Lexeme.read_string hl hstring⟩

theorem readChild_strung (P : List Char → Prop) : (readChild src c).Strung P := by
  unfold readChild
  split
  iterate 3 exact nofun
  intro hkind
  dsimp only [settle] at hkind
  split at hkind <;> cases hkind

/-- Outside of tags, strings are literals. -/
theorem advance_strung {mode : Mode} (h : (c.advance src mode).error = none) (hmode : mode ≠ .tag) :
    (c.advance src mode).Strung (Text.Literal.isString · = true) := by
  obtain ⟨_, -, h, heq⟩ := advance_reads h
  rw [heq]
  cases mode with
  | tag => exact absurd rfl hmode
  | code => exact readCode_strung h
  | template =>
    intro hkind
    cases hkind.symm.trans (readTemplate_settled h).2.1
  | child => exact readChild_strung _

/-! ## Tokens that are read again -/

theorem regexBody_line {inClass : Bool} {n m : Nat} {cs : List Char}
    (h : Piece.regexBody inClass n cs = (m, true)) : n ≤ m ∧ '\n' ∉ cs.take (m - n) := by
  fun_induction Piece.regexBody inClass n cs with
  | case1 => cases h
  | case2 inClass n c cs hline ih =>
    obtain ⟨hle, hmem⟩ := ih h
    refine ⟨by omega, ?_⟩
    rw [show m - n = m - (n + 2) + 2 by omega]
    have hc : '\n' ≠ c := by
      rintro rfl
      exact hline rfl
    simp [hc, hmem]
  | case3 => cases h
  | case4 => cases h
  | case5 inClass n c cs hescape hline hslash hclose =>
    cases h
    refine ⟨by omega, ?_⟩
    have hc : '\n' ≠ c := by
      rintro rfl
      exact hline rfl
    simp [hc]
  | case6 inClass n c cs hescape hline hslash hclose ih =>
    obtain ⟨hle, hmem⟩ := ih h
    refine ⟨by omega, ?_⟩
    have hc : '\n' ≠ c := by
      rintro rfl
      exact hline rfl
    rw [show m - n = m - (n + 1) + 1 by omega]
    simp [hc, hmem]
  | case7 => cases h

theorem not_mem_take_one_of_lexed (h : c.Lexed) (hk : ¬ c.kind.Spacious)
    (hwide : c.start.offset < c.stop.offset) : '\n' ∉ c.start.rest.take 1 := by
  obtain ⟨n, hstop, hspells⟩ := h
  have hpos : 0 < n := by
    rcases Nat.eq_zero_or_pos n with rfl | hpos
    · rw [hstop, skip_zero] at hwide
      exact absurd hwide (Nat.lt_irrefl _)
    · exact hpos
  intro hmem
  refine hspells.line hk (List.mem_of_mem_take (i := 1) ?_)
  rwa [List.take_take, Nat.min_eq_left hpos]

theorem Lexed.recast {k : Kind} (h : c.Lexed) (hline : ¬ c.kind.Spacious) (hk : k.Loose) :
    ({ c with kind := k } : Cursor).Lexed := by
  obtain ⟨n, hstop, hspells⟩ := h
  exact ⟨n, hstop, .of_line hk (hspells.line hline)⟩

theorem Lexed.recastName (h : c.Lexed) (hword : c.kind.isWord = true) :
    ({ c with kind := .name } : Cursor).Lexed := by
  obtain ⟨n, hstop, hspells⟩ := h
  exact ⟨n, hstop, .of_word rfl (hspells.word hword)⟩

theorem asRegex_lexed {c' : Cursor} (hread : c.asRegex? src = some c') (h : c'.error = none)
    (hlexed : c.Lexed) (hk : ¬ c.kind.Spacious) (hwide : c.start.offset < c.stop.offset) :
    c'.Lexed := by
  have hfirst := not_mem_take_one_of_lexed hlexed hk hwide
  obtain ⟨body, hbody, rfl⟩ := Option.map_eq_some_iff.mp hread
  obtain rfl := afterByte?_eq hbody
  dsimp only at h ⊢
  split at h
  · rename_i hclosed
    rw [if_pos hclosed, skip_skip, skip_skip]
    obtain ⟨-, hline⟩ := regexBody_line (Prod.ext rfl hclosed)
    refine ⟨_, rfl, .of_line (by decide : Kind.regexp.Loose) ?_⟩
    show '\n' ∉ c.start.rest.take _
    refine Lexeme.not_mem_take_add hfirst (Lexeme.not_mem_take_add hline ?_)
    exact Lexeme.not_mem_run (by decide +kernel) _
  · exact (not_failed h).elim

end Cursor

end Downlevel
