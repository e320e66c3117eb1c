import Mathlib.Tactic.Common
import Downlevel.Cursor.Basic
import Downlevel.Proofs.Text.Offset

/-!
# Reading the next token

What every move of the cursor keeps to, whatever the mode: the new token starts at or after the end
of the old one, and it is as long as it says. Only a template piece can be empty, and the end of the
input is met only where nothing is left to read (`Moved`). Kinds with one spelling are spelled that
way (`Kind.spelling`). The error that a move finds stays, so that all of this is said of moves that
end without one.
-/

namespace Downlevel

open Text (Point)

variable {c : Cursor} {cs : List Char} {src : Source} {l : Lexeme} {mode : Mode}

/-- A kind of token that always has text. -/
def Kind.Solid (k : Kind) : Prop := k ≠ .eof ∧ k ≠ .template

instance (k : Kind) : Decidable k.Solid := inferInstanceAs (Decidable (_ ∧ _))

/-- A kind of token that has text and is read in code. Names in a tag and its end are read in the
tag only. -/
def Kind.OfCode (k : Kind) : Prop := k.Solid ∧ k ≠ .jsxTagEnd ∧ k ≠ .jsxName

instance (k : Kind) : Decidable k.OfCode := inferInstanceAs (Decidable (_ ∧ _))

/-- How a token is spelled that lowering may write itself. -/
def Kind.spelling : Kind → Option (List Char)
  | .parenR => some [')']
  | .arrow => some ['=', '>']
  | _ => none

/-- How a token begins that may be read again from its first character on. -/
def Kind.initial : Kind → Option Char
  | .slash => some '/'
  | .shiftL => some '<'
  | _ => none

/-! ## Lexemes -/

namespace Lexeme

/-- The lexeme is one of code at the head of `cs`, and not empty. -/
structure Real (cs : List Char) (l : Lexeme) : Prop where
  ofCode : l.kind.OfCode
  pos : 0 < l.length
  spelled : ∀ word, l.kind.spelling = some word → word <+: cs ∧ l.length = word.length
  headed : ∀ c, l.kind.initial = some c → cs.head? = some c

theorem runLength_pos {p : Char → Bool} {c : Char} (h : p c = true) :
    0 < runLength p (c :: cs) := by
  rw [runLength, List.takeWhile_cons_of_pos h]
  exact Nat.succ_pos _

theorem classify_of {P : Kind → Prop} (hname : P .name) (hall : ∀ p ∈ Kind.reservedWords, P p.2)
    (word : String) : P (classify word).1 := by
  unfold classify
  split
  · rename_i kind h
    obtain ⟨l₁, l₂, hmem, -⟩ := List.lookup_eq_some_iff.mp h
    exact hall (word, kind) (by rw [hmem]; simp)
  · exact hname

theorem classify_ofCode (word : String) :
    (classify word).1.OfCode ∧ (classify word).1.spelling = none ∧
    (classify word).1.initial = none :=
  classify_of (P := fun k => k.OfCode ∧ k.spelling = none ∧ k.initial = none) (by decide)
    (by decide)
    word

theorem name_real {c : Char} (h : isNameStart c = true) : (name (c :: cs)).Real (c :: cs) := by
  refine ⟨(classify_ofCode _).1, ?_, fun _ hword => ?_, fun _ hhead => ?_⟩
  · have hpart : isNamePart c = true := by simp [isNamePart, h]
    exact runLength_pos hpart
  · rw [show (name (c :: cs)).kind.spelling = none from (classify_ofCode _).2.1] at hword
    cases hword
  · rw [show (name (c :: cs)).kind.initial = none from (classify_ofCode _).2.2] at hhead
    cases hhead

theorem radixNumber?_real (h : radixNumber? cs = some l) : l.Real cs := by
  unfold radixNumber? at h
  split at h
  · simp only [Option.bind_eq_bind, Option.bind_eq_some_iff] at h
    obtain ⟨isDigit, -, h⟩ := h
    split at h
    · obtain rfl := Option.some.inj h
      exact ⟨(by decide : Kind.bigInt.OfCode), Nat.succ_pos _, nofun, nofun⟩
    · split at h
      · obtain rfl := Option.some.inj h
        exact ⟨(by decide : Kind.num.OfCode), Nat.succ_pos _, nofun, nofun⟩
      · cases h
  · cases h

theorem decimalNumber?_real (h : decimalNumber? cs = some l) : l.Real cs := by
  unfold decimalNumber? at h
  split at h
  · split at h
    · obtain rfl := Option.some.inj h
      exact ⟨(by decide : Kind.num.OfCode), by dsimp only; omega, nofun, nofun⟩
    · cases h
  · rename_i c cs _
    split at h
    · rename_i hdigit
      have hpos : 0 < runLength isDigitPart (c :: cs) :=
        runLength_pos (by simp [isDigitPart, hdigit])
      dsimp only at h
      split at h <;> obtain rfl := Option.some.inj h
      · exact ⟨(by decide : Kind.bigInt.OfCode), Nat.succ_pos _, nofun, nofun⟩
      · exact ⟨(by decide : Kind.num.OfCode), by dsimp only; omega, nofun, nofun⟩
      · exact ⟨(by decide : Kind.num.OfCode), Nat.add_pos_left hpos _, nofun, nofun⟩
    · cases h
  · cases h

theorem punctuator?_real (h : punctuator? cs = some l) : l.Real cs := by
  have hall : ∀ p ∈ punctuators, p.2.OfCode ∧ 0 < p.1.length ∧ p.2.spelling.all (· == p.1) ∧
      p.2.initial.all (some · == p.1.head?) := by
    decide +kernel
  obtain ⟨p, hp, rfl⟩ := Option.map_eq_some_iff.mp h
  obtain ⟨hcode, hpos, hspelled, hinitial⟩ := hall p (List.mem_of_find?_eq_some hp)
  have hhead := List.find?_some hp
  obtain ⟨rest, rfl⟩ : p.1 <+: cs := List.isPrefixOf_iff_prefix.mp hhead
  refine ⟨hcode, hpos, fun word hword => ?_, fun c hc => ?_⟩
  · rw [show p.2.spelling = some word from hword] at hspelled
    obtain rfl : word = p.1 := by simpa using hspelled
    exact ⟨List.prefix_append _ _, rfl⟩
  · rw [show p.2.initial = some c from hc] at hinitial
    have hhead : some c = p.1.head? := by simpa using hinitial
    rw [List.head?_append, ← hhead]
    rfl

/-- What the text begins with where code is read, by what it begins with. -/
inductive Leads : List Char → Lexeme → Prop where
  | substitution (rest : List Char) :
      Leads ('$' :: '\x7b' :: rest) { kind := .dollarBraceL, length := 2 }
  | name {c : Char} {rest : List Char} (h : isNameStart c = true) :
      Leads (c :: rest) (name (c :: rest))
  | hidden (rest : List Char) :
      Leads ('#' :: rest) { kind := .privateName, length := 1 + runLength isNamePart rest }
  | string {c : Char} {rest : List Char} {n : Nat} (hquote : (c == '"' || c == '\'') = true)
      (hbody : stringBody c rest = (n, true)) :
      Leads (c :: rest) { kind := .string, length := n + 1 }
  | number {cs : List Char} {l : Lexeme} (h : number? cs = some l) : Leads cs l
  | punctuator {cs : List Char} {l : Lexeme} (h : punctuator? cs = some l) : Leads cs l

theorem leads_of_read (h : read cs = .lexeme l) : Leads cs l := by
  unfold read at h
  repeat' split at h
  all_goals cases h
  · exact .substitution _
  · exact .name ‹_›
  · rename_i hhash _
    obtain rfl := beq_iff_eq.mp hhash
    exact .hidden _
  · rename_i hquote _ _ _ hbody hclosed
    exact .string hquote (hclosed ▸ hbody)
  · rename_i hfound
    rcases Option.or_eq_some_iff.mp hfound with hnumber | ⟨-, hpunctuator⟩
    · exact .number hnumber
    · exact .punctuator hpunctuator

theorem read_real (h : read cs = .lexeme l) : l.Real cs := by
  cases leads_of_read h with
  | substitution => exact ⟨by decide, by decide, nofun, nofun⟩
  | name hstart => exact name_real hstart
  | hidden =>
    exact ⟨(by decide : Kind.privateName.OfCode), by dsimp only; omega, nofun, nofun⟩
  | string => exact ⟨(by decide : Kind.string.OfCode), Nat.succ_pos _, nofun, nofun⟩
  | number hnumber =>
    rcases Option.or_eq_some_iff.mp hnumber with hradix | ⟨-, hdecimal⟩
    · exact radixNumber?_real hradix
    · exact decimalNumber?_real hdecimal
  | punctuator hpunctuator => exact punctuator?_real hpunctuator

end Lexeme

namespace Cursor

/-- A lexeme is left as it was read, or cut down to what its first character stands for. -/
theorem fit_cases (dialect : Dialect) (inType : Bool) (cs : List Char) (l : Lexeme) :
    fit dialect inType cs l = (l.kind, l.length) ∨
      l.kind ∈ [.braceBarL, .braceBarR, .questionDot, .shiftL, .shiftR, .relational, .assign] ∧
        ∃ k ∈ [Kind.braceL, .bitOr, .question, .lessThan, .greaterThan],
          fit dialect inType cs l = (k, 1) := by
  unfold fit
  repeat' split
  all_goals simp [*]

theorem fit_real (dialect : Dialect) (inType : Bool) (h : l.Real cs) : Lexeme.Real cs
      { kind := (fit dialect inType cs l).1, length := (fit dialect inType cs l).2 } := by
  rcases fit_cases dialect inType cs l with heq | ⟨-, k, hk, heq⟩
  · rw [heq]
    exact ⟨h.ofCode, h.pos, h.spelled, h.headed⟩
  · have hall : ∀ k ∈ [Kind.braceL, .bitOr, .question, .lessThan, .greaterThan],
        k.OfCode ∧ k.spelling = none ∧ k.initial = none := by decide
    obtain ⟨hcode, hspelling, hinitial⟩ := hall k hk
    rw [heq]
    exact ⟨hcode, Nat.one_pos, fun word hword => (nomatch hspelling.symm.trans hword),
      fun c hc => (nomatch hinitial.symm.trans hc)⟩

/-! ## Moves -/

/-- The cursor stands on a token whose text begins where it starts. -/
structure Scanned (c : Cursor) : Prop where
  stop : ∃ n, c.stop = c.start.skip n
  /-- the end of the input is where nothing is left -/
  ended : c.kind = .eof → c.start.rest = [] ∧ c.stop = c.start
  wide : c.kind.Solid → c.start.offset < c.stop.offset
  spelled : ∀ word, c.kind.spelling = some word →
    word <+: c.start.rest ∧ c.stop = c.start.skip word.length

/-- The cursor `c'` stands on the token after that of `c`. -/
structure Moved (c c' : Cursor) : Prop extends Scanned c' where
  lastEnd : c'.lastEnd = c.stop
  inType : c'.inType = c.inType
  depth : c'.depth = c.depth
  start : ∃ n, c'.start = c.stop.skip n
  headed : ∀ ch, c'.kind.initial = some ch → c'.start.rest.head? = some ch

theorem not_failed {cause : SyntaxError.Cause} {start stop : Nat}
    (h : (c.fail src cause start stop).error = none) : False := by
  have herror : c.error.or (some _) = none := h
  cases hc : c.error <;> simp [hc] at herror

theorem offset_lt_skip {p : Point} {n : Nat} (hrest : p.rest ≠ []) (hn : 0 < n) :
    p.offset < (p.skip n).offset := by
  obtain ⟨c, cs, hcs⟩ := List.exists_cons_of_ne_nil hrest
  obtain ⟨m, rfl⟩ : ∃ m, n = m + 1 := ⟨n - 1, by omega⟩
  have hpos : 0 < c.utf8Size := c.utf8Size_pos
  simp only [Point.skip, hcs, List.take_succ_cons, Text.size_cons]
  omega

/-- A token of kind `kind` was read at the start of `c`, and nothing but the token changed. -/
structure Settled (c c' : Cursor) : Prop extends Scanned c' where
  lastEnd : c'.lastEnd = c.lastEnd
  inType : c'.inType = c.inType
  depth : c'.depth = c.depth
  start : c'.start = c.start
  headed : ∀ ch, c'.kind.initial = some ch → c'.start.rest.head? = some ch

theorem skip_zero (p : Point) : p.skip 0 = p := rfl

theorem skip_skip (p : Point) (n m : Nat) : (p.skip n).skip m = p.skip (n + m) := by
  simp [Point.skip, List.take_add, Nat.add_assoc]

theorem afterByte?_eq {p q : Point} (h : p.afterByte? = some q) : q = p.skip 1 := by
  unfold Point.afterByte? at h
  split at h
  · split at h
    · exact (Option.some.inj h).symm
    · cases h
  · cases h

theorem settle_settled {kind : Kind} {n : Nat} (hrest : c.start.rest ≠ [])
    (hn : 0 < n) (hkind : kind ≠ .eof) (hspelling : kind.spelling = none)
    (hinitial : ∀ ch, kind.initial = some ch → c.start.rest.head? = some ch) :
    Settled c (c.settle kind (c.start.skip n)) :=
  ⟨⟨⟨n, rfl⟩, fun h => absurd h hkind, fun _ => offset_lt_skip hrest hn,
    fun _ hword => (nomatch hspelling.symm.trans hword)⟩, rfl, rfl, rfl, rfl, hinitial⟩

theorem settle_eof_settled (hrest : c.start.rest = []) : Settled c (c.settle .eof c.start) :=
  ⟨⟨⟨0, rfl⟩, fun _ => ⟨hrest, rfl⟩, fun h => absurd rfl h.1, nofun⟩, rfl, rfl, rfl, rfl, nofun⟩

theorem readCode_settled (h : (readCode src c).error = none) :
    Settled c (readCode src c) ∧ (readCode src c).kind ≠ .template ∧
      (readCode src c).kind ≠ .jsxTagEnd ∧ (readCode src c).kind ≠ .jsxName := by
  unfold readCode at h ⊢
  split at h
  · rename_i hrest
    exact ⟨settle_eof_settled hrest, Kind.noConfusion, Kind.noConfusion, Kind.noConfusion⟩
  · rename_i ch cs hrest
    split at h
    · exact (not_failed h).elim
    · exact (not_failed h).elim
    · rename_i l hl
      have hreal := fit_real src.dialect c.inType (Lexeme.read_real hl)
      refine ⟨⟨⟨⟨_, rfl⟩, fun heq => absurd heq hreal.ofCode.1.1, fun _ => ?_,
        fun word hword => ?_⟩, rfl, rfl, rfl, rfl, hreal.headed⟩, hreal.ofCode.1.2, hreal.ofCode.2⟩
      · exact offset_lt_skip (by rw [hrest]; exact List.cons_ne_nil _ _) hreal.pos
      · obtain ⟨hhead, hlength⟩ := hreal.spelled word hword
        exact ⟨hhead, congrArg c.start.skip hlength⟩

theorem tagPunctuation?_solid {ch : Char} {kind : Kind} (h : tagPunctuation? ch = some kind) :
    kind.Solid ∧ kind.spelling = none ∧ ∀ c, kind.initial = some c → ch = c := by
  unfold tagPunctuation? at h
  split at h <;> cases h <;> exact ⟨by decide, by decide, by rintro _ ⟨⟩ <;> rfl⟩

theorem isTagNamePart_of_start {ch : Char} (h : Piece.isTagNameStart ch = true) :
    Piece.isTagNamePart ch = true := by
  simp only [Piece.isTagNameStart, Bool.or_eq_true] at h
  simp only [Piece.isTagNamePart, Text.isAlphanumeric, Bool.or_eq_true]
  tauto

/-- In a tag, a token of the kind and the length is read from the text. -/
inductive ReadsTag : List Char → Kind → Nat → Prop where
  | ended : ReadsTag [] .eof 0
  | mark {ch : Char} {rest : List Char} {kind : Kind} (h : tagPunctuation? ch = some kind) :
      ReadsTag (ch :: rest) kind 1
  | value {ch : Char} {rest : List Char} {n : Nat} (hquote : (ch == '"' || ch == '\'') = true)
      (h : Piece.attributeValue? ch rest = some n) : ReadsTag (ch :: rest) .string (n + 1)
  | name {ch : Char} {rest : List Char} (h : Piece.isTagNameStart ch = true) :
      ReadsTag (ch :: rest) .jsxName (Lexeme.runLength Piece.isTagNamePart (ch :: rest))

theorem readTag_eq (h : (readTag src c).error = none) : ∃ kind n,
    ReadsTag c.start.rest kind n ∧ readTag src c = c.settle kind (c.start.skip n) := by
  revert h
  unfold readTag
  split
  · rename_i hrest
    exact fun _ => ⟨_, 0, hrest ▸ .ended, rfl⟩
  · rename_i hrest
    rw [hrest]
    repeat' split
    all_goals intro h
    · exact ⟨_, 1, .mark ‹_›, rfl⟩
    · exact ⟨_, _, .value ‹_› ‹_›, rfl⟩
    · exact (not_failed h).elim
    · exact ⟨_, _, .name ‹_›, rfl⟩
    · exact (not_failed h).elim

theorem readTag_settled (h : (readTag src c).error = none) :
    Settled c (readTag src c) ∧ (readTag src c).kind ≠ .template := by
  obtain ⟨kind, n, hreads, heq⟩ := readTag_eq h
  rw [heq]
  have hne := @settle_settled c kind n
  generalize hrest : c.start.rest = cs at hreads hne
  cases hreads with
  | ended => exact ⟨settle_eof_settled hrest, Kind.noConfusion⟩
  | mark hkind =>
    obtain ⟨hsolid, hspelling, hinitial⟩ := tagPunctuation?_solid hkind
    exact ⟨hne nofun (by decide) hsolid.1 hspelling fun c hc => congrArg some (hinitial c hc),
      hsolid.2⟩
  | value => exact ⟨hne nofun (Nat.succ_pos _) Kind.noConfusion rfl nofun, Kind.noConfusion⟩
  | name hstart =>
    have hpart := isTagNamePart_of_start hstart
    exact ⟨hne nofun (Lexeme.runLength_pos hpart) Kind.noConfusion rfl nofun, Kind.noConfusion⟩

theorem elementText_ne_nil {cs : List Char} (hnil : cs ≠ []) (htag : ∀ rest, cs ≠ '<' :: rest)
    (hbrace : ∀ rest, cs ≠ '{' :: rest) : Piece.elementText cs ≠ [] := by
  obtain ⟨ch, rest, rfl⟩ := List.exists_cons_of_ne_nil hnil
  have hlt : ch ≠ '<' := fun heq => htag rest (by rw [heq])
  have hb : ch ≠ '{' := fun heq => hbrace rest (by rw [heq])
  rw [Piece.elementText, List.takeWhile_cons_of_pos (by simp [hlt, hb])]
  exact List.cons_ne_nil _ _

theorem readChild_settled (h : (readChild src c).error = none) :
    Settled c (readChild src c) ∧ (readChild src c).kind ≠ .template := by
  unfold readChild at h ⊢
  split at h
  · exact (not_failed h).elim
  iterate 2
    · rename_i hrest
      exact ⟨settle_settled (by rw [hrest]; exact List.cons_ne_nil _ _) (by decide)
        Kind.noConfusion rfl nofun, Kind.noConfusion⟩
  · rename_i hnil htag hbrace
    have hpos := List.length_pos_iff.mpr (elementText_ne_nil hnil htag hbrace)
    dsimp only
    split <;> exact ⟨settle_settled hnil hpos Kind.noConfusion rfl nofun, Kind.noConfusion⟩

/-! ## Template pieces -/

/-- What ends a template piece: a backquote, or the start of an expression. -/
def PieceEnd (cs : List Char) : Prop := ∃ r, cs = '\x60' :: r ∨ cs = '$' :: '{' :: r

theorem pieceEnd_of_template? {n m : Nat} (h : Piece.template? n cs = some m) :
    n ≤ m ∧ PieceEnd (cs.drop (m - n)) := by
  fun_induction Piece.template? n cs with
  | case1 n c cs ih =>
    obtain ⟨hle, hend⟩ := ih h
    refine ⟨by omega, ?_⟩
    rw [show m - n = m - (n + 2) + 2 by omega]
    exact hend
  | case2 n cs =>
    obtain rfl := Option.some.inj h
    exact ⟨Nat.le_refl _, cs, .inr (by simp)⟩
  | case3 n c cs hescape hbrace hquote =>
    obtain rfl := Option.some.inj h
    rw [beq_iff_eq] at hquote
    exact ⟨Nat.le_refl _, cs, .inl (by simp [hquote])⟩
  | case4 n c cs hescape hbrace hquote ih =>
    obtain ⟨hle, hend⟩ := ih h
    refine ⟨by omega, ?_⟩
    rw [show m - n = m - (n + 1) + 1 by omega]
    exact hend
  | case5 n => cases h

theorem readTemplate_settled (h : (readTemplate src c).error = none) :
    Settled c (readTemplate src c) ∧ (readTemplate src c).kind = .template ∧
      PieceEnd (readTemplate src c).stop.rest := by
  unfold readTemplate at h ⊢
  split at h
  · rename_i n hn
    exact ⟨⟨⟨⟨n, rfl⟩, Kind.noConfusion, fun hsolid => absurd rfl hsolid.2, nofun⟩,
      rfl, rfl, rfl, rfl, nofun⟩, rfl, (pieceEnd_of_template? hn).2⟩
  · exact (not_failed h).elim

theorem gap_of_pieceEnd {p : Point} (h : PieceEnd p.rest) : Gap.at? p = .ends 0 := by
  obtain ⟨r, h | h⟩ := h
  all_goals
    unfold Gap.at?
    rw [h]
    split
    · rename_i heq
      cases heq
    · rfl

/-! ## All modes -/

theorem afterGap_cases {read : Cursor → Cursor} (h : (c.afterGap src read).error = none) :
    ∃ n, Gap.at? c.stop = .ends n ∧
      c.afterGap src read = read { c with start := c.stop.skip n } := by
  unfold afterGap at h ⊢
  split at h
  · exact (not_failed h).elim
  · rename_i n hn
    exact ⟨n, hn, rfl⟩

theorem Settled.moved {c' : Cursor} {n : Nat}
    (h : Settled { c with lastEnd := c.stop, start := c.stop.skip n } c') : Moved c c' :=
  ⟨h.toScanned, h.lastEnd, h.inType, h.depth, ⟨n, h.start⟩, h.headed⟩

theorem error_of_advance (h : (c.advance src mode).error = none) : c.error = none := by
  unfold advance scan at h
  split at h
  · exact h
  · rename_i hnone
    simpa using hnone

theorem advance_eq (src : Source) (mode : Mode) (h : c.error = none) : c.advance src mode =
      match mode with
      | .code => afterGap src { c with lastEnd := c.stop } (readCode src)
      | .tag => afterGap src { c with lastEnd := c.stop } (readTag src)
      | .template => readTemplate src { c with lastEnd := c.stop, start := c.stop }
      | .child => readChild src { c with lastEnd := c.stop, start := c.stop } := by
  unfold advance scan
  exact if_neg (by simp [h])

/-- What is read in a mode from where the cursor starts. -/
def readIn (src : Source) : Mode → Cursor → Cursor
  | .code => readCode src
  | .tag => readTag src
  | .template => readTemplate src
  | .child => readChild src

theorem readIn_settled (h : (readIn src mode c).error = none) :
    Settled c (readIn src mode c) := by
  cases mode with
  | code => exact (readCode_settled h).1
  | tag => exact (readTag_settled h).1
  | template => exact (readTemplate_settled h).1
  | child => exact (readChild_settled h).1

section

variable (h : (c.advance src mode).error = none)
include h

/-- A move that finds no error reads on after a gap, if after anything. -/
theorem advance_reads : ∃ n, (n = 0 ∨ Gap.at? c.stop = .ends n) ∧
      (readIn src mode { c with lastEnd := c.stop, start := c.stop.skip n }).error = none ∧
      c.advance src mode =
        readIn src mode { c with lastEnd := c.stop, start := c.stop.skip n } := by
  have hread := advance_eq src mode (error_of_advance h)
  rw [hread] at h ⊢
  cases mode with
  | code | tag =>
    obtain ⟨n, hn, heq⟩ := afterGap_cases h
    exact ⟨n, .inr hn, (congrArg error heq).symm.trans h, heq⟩
  | template | child => exact ⟨0, .inl rfl, h, rfl⟩

/-- A move that finds no error goes to the next token. -/
theorem advance_moved : Moved c (c.advance src mode) := by
  obtain ⟨n, -, h, heq⟩ := advance_reads h
  exact heq ▸ (readIn_settled h).moved

/-- Template pieces are read in their own mode only. -/
theorem kind_of_advance (hmode : mode ≠ .template) : (c.advance src mode).kind ≠ .template := by
  obtain ⟨n, -, h, heq⟩ := advance_reads h
  rw [heq]
  cases mode with
  | code => exact (readCode_settled h).2.1
  | tag => exact (readTag_settled h).2
  | template => exact absurd rfl hmode
  | child => exact (readChild_settled h).2

end

theorem kind_of_advance_code (h : (c.advance src .code).error = none) :
    (c.advance src .code).kind ≠ .jsxTagEnd ∧ (c.advance src .code).kind ≠ .jsxName := by
  obtain ⟨n, -, h, heq⟩ := advance_reads h
  exact heq ▸ (readCode_settled h).2.2

theorem kind_of_advance_child (h : (c.advance src .child).error = none) :
    (c.advance src .child).kind ∈ [Kind.jsxTagStart, .braceL, .jsxText, .jsxEmptyText] := by
  have hread := advance_eq src .child (error_of_advance h)
  rw [hread] at h ⊢
  dsimp only at h ⊢
  unfold readChild at h ⊢
  split at h
  · exact (not_failed h).elim
  all_goals dsimp only [settle]
  · decide
  · decide
  · split <;> decide

/-- A template piece follows the token before it, and ends where it has to. -/
theorem advance_template (h : (c.advance src .template).error = none) :
    (c.advance src .template).kind = .template ∧ (c.advance src .template).start = c.stop ∧
      PieceEnd (c.advance src .template).stop.rest := by
  have hread := advance_eq src .template (error_of_advance h)
  rw [hread] at h ⊢
  obtain ⟨hsettled, hkind, hend⟩ := readTemplate_settled h
  exact ⟨hkind, hsettled.start, hend⟩

/-- What ends a template piece follows it directly. -/
theorem start_of_pieceEnd (hend : PieceEnd c.stop.rest)
    (h : (c.advance src .code).error = none) : (c.advance src .code).start = c.stop := by
  obtain ⟨n, hn, h, heq⟩ := advance_reads h
  obtain rfl : n = 0 := hn.elim id fun hn =>
    (Gap.ends.inj ((gap_of_pieceEnd hend).symm.trans hn)).symm
  exact heq ▸ (readIn_settled h).start

theorem advance_eof (herror : c.error = none) (hrest : c.stop.rest = []) :
    (c.advance src .code).kind = .eof := by
  have hgap : Gap.at? c.stop = .ends 0 := by
    unfold Gap.at?
    rw [hrest]
    split
    · rename_i hhashbang
      cases hhashbang
    · rfl
  rw [advance_eq src .code herror]
  simp only [afterGap, hgap, skip_zero]
  unfold readCode
  simp [hrest, settle]

theorem fit_inType {dialect : Dialect} {inType : Bool} {k : Kind}
    (h : (fit dialect inType cs l).1 = k) (hk : k = .name ∨ k = .colon ∨ k = .kwClass) (b : Bool) :
    fit dialect b cs l = fit dialect inType cs l := by
  unfold fit at h ⊢
  grind

/-- Whether the reader is inside a type matters for nothing but how a lexeme fits. -/
theorem advance_fit (src : Source) (c : Cursor) :
    ((c.advance src .code).kind = .eof ∧
      ∀ b, { c with inType := b }.advance src .code = { c.advance src .code with inType := b }) ∨
    ∃ (l : Lexeme) (p : Point), ∀ b, { c with inType := b }.advance src .code =
      { c with
        inType := b, kind := (fit src.dialect b p.rest l).1, keyword := l.keyword, lastEnd := c.stop
        start := p, stop := p.skip (fit src.dialect b p.rest l).2 } := by
  cases herror : c.error with
  | some e => exact .inl (by simp [advance, scan, herror, close])
  | none =>
    cases hgap : Gap.at? c.stop with
    | openComment n => exact .inl (by simp [advance, scan, herror, afterGap, hgap, fail, raise,
        close])
    | ends n =>
      cases hrest : (c.stop.skip n).rest with
      | nil => exact .inl (by simp [advance, scan, herror, afterGap, hgap, readCode, hrest, settle])
      | cons ch cs =>
        cases hread : Lexeme.read (c.stop.skip n).rest with
        | unknown | openString m =>
          rw [hrest] at hread
          exact .inl (by
            simp [advance, scan, herror, afterGap, hgap, readCode, hrest, hread, fail, raise,
              close])
        | lexeme l =>
          rw [hrest] at hread
          exact .inr ⟨l, c.stop.skip n, fun b => by
            simp [advance, scan, afterGap, hgap, readCode, hrest, hread]⟩

/-- A name, a colon or `class` is read in a type as elsewhere. -/
theorem advance_inType {k : Kind}
    (h : (c.advance src .code).kind = k) (hk : k = .name ∨ k = .colon ∨ k = .kwClass) (b : Bool) :
    { c with inType := b }.advance src .code = { c.advance src .code with inType := b } := by
  rcases advance_fit src c with ⟨-, hsame⟩ | ⟨l, p, hread⟩
  · exact hsame b
  · have hplain := hread c.inType
    rw [show { c with inType := c.inType } = c from rfl] at hplain
    rw [hplain] at h ⊢
    rw [hread b, fit_inType h hk b]

theorem asRegex_eq {c' : Cursor} (hread : c.asRegex? src = some c')
    (h : c'.error = none) : ∃ n, 0 < n ∧ c' = c.settle .regexp (c.start.skip n) := by
  obtain ⟨body, hbody, rfl⟩ := Option.map_eq_some_iff.mp hread
  obtain rfl := afterByte?_eq hbody
  dsimp only at h ⊢
  split at h
  · rename_i hclosed
    rw [if_pos hclosed, skip_skip, skip_skip]
    exact ⟨_, by omega, rfl⟩
  · exact (not_failed h).elim

end Cursor

end Downlevel
