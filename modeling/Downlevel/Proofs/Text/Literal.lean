import Downlevel.Proofs.Text.LineIndex
import Downlevel.Json.Printer
import Downlevel.Markup.Entity
import Downlevel.Text.Quoted
import Downlevel.Token.Lexeme

/-!
# The values of string literals

The value of a string literal of a script is a list of 16-bit units: escapes stand for what they
name, every other character for itself (`Literal.value?`). A text in JSON quotes has the text for
its value (`value?_quote`). A literal that is not escaped has a value shorter than what stands in
its quotes as soon as a backslash does (`length_valueFrom`).
-/

namespace Downlevel.Text

open Lexeme (stringBody)

variable {cs : List Char} {n : Nat} {c : Char} {us : List Nat}

/-! ## Units -/

/-- The 16-bit units of a code point. -/
def codeUnits (code : Nat) : List Nat :=
  if code < 0x10000 then [code]
  else [0xD800 + (code - 0x10000) / 0x400, 0xDC00 + (code - 0x10000) % 0x400]

/-- The 16-bit units of a text. -/
def utf16 (cs : List Char) : List Nat := cs.flatMap fun c => codeUnits c.toNat

theorem length_codeUnits (c : Char) : (codeUnits c.toNat).length = units c := by
  unfold codeUnits units
  split <;> rfl

theorem length_codeUnits_le (code : Nat) : (codeUnits code).length ≤ 2 := by
  unfold codeUnits
  split <;> simp

@[simp]
theorem utf16_nil : utf16 [] = [] := rfl

@[simp]
theorem utf16_cons (c : Char) (cs : List Char) : utf16 (c :: cs) = codeUnits c.toNat ++ utf16 cs :=
  rfl

theorem length_utf16 (cs : List Char) : (utf16 cs).length = unitSize cs := by
  induction cs with
  | nil => rfl
  | cons c cs ih => rw [utf16_cons, List.length_append, length_codeUnits, ih, unitSize]

theorem length_le_unitSize (cs : List Char) : cs.length ≤ unitSize cs := by
  induction cs with
  | nil => exact Nat.le_refl 0
  | cons c cs ih =>
    have hone : 1 ≤ units c := by
      unfold units
      split <;> decide
    rw [List.length_cons, unitSize]
    omega

/-! ## Escapes -/

namespace Literal

/-- The number that digits of a base stand for. -/
def number? (base : Nat) (digits : List Char) : Option Nat :=
  digits.foldlM (fun n c => (Markup.digitValue? base c).map (n * base + ·)) 0

/-- The unit that just so many hexadecimal digits at the head of a text name, and how many
characters an escape takes with them and the letter before them. -/
def hex? (count : Nat) (cs : List Char) : Option (List Nat × Nat) :=
  if cs.length < count then none
  else (number? 16 (cs.take count)).map fun n => ([n], count + 1)

/-- The code point that stands in braces, after the opening one. -/
def braced? (cs : List Char) : Option (List Nat × Nat) :=
  let digits := cs.takeWhile (· != '}')
  if digits.isEmpty || digits.length == cs.length then none
  else ((number? 16 digits).filter (· ≤ 0x10FFFF)).map fun n => (codeUnits n, digits.length + 3)

/-- The octal digits at the head of a text that name one unit below 256. -/
def octalDigits (cs : List Char) : List Char :=
  let digits := (cs.takeWhile fun c => (Markup.digitValue? 8 c).isSome).take 3
  if (number? 8 digits).any (· < 0x100) then digits else digits.take 2

/-- Whether a line ends at the character. After a backslash, it stands for nothing. -/
def isContinued (c : Char) : Bool := c ∈ ['\n', '\r', '\u2028', '\u2029']

/-- What is named after a backslash: the units, and how many characters name them. -/
def escape? : List Char → Option (List Nat × Nat)
  | [] => none
  | 'b' :: _ => some ([0x08], 1)
  | 't' :: _ => some ([0x09], 1)
  | 'n' :: _ => some ([0x0A], 1)
  | 'v' :: _ => some ([0x0B], 1)
  | 'f' :: _ => some ([0x0C], 1)
  | 'r' :: _ => some ([0x0D], 1)
  | 'x' :: cs => hex? 2 cs
  | 'u' :: '{' :: cs => braced? cs
  | 'u' :: cs => hex? 4 cs
  | '\r' :: '\n' :: _ => some ([], 2)
  | c :: cs =>
    if isContinued c then some ([], 1)
    else if (Markup.digitValue? 8 c).isSome then
      let digits := octalDigits (c :: cs)
      (number? 8 digits).map fun n => ([n], digits.length)
    else some (codeUnits c.toNat, 1)

/-- The value of what stands in quotes, from some place on. The first `skip` characters belong to an
escape that is read. -/
def valueFrom : (skip : Nat) → List Char → Option (List Nat)
  | _, [] => some []
  | skip + 1, _ :: cs => valueFrom skip cs
  | 0, c :: cs =>
    if c == '\\' then (escape? cs).bind fun e => (valueFrom e.2 cs).map (e.1 ++ ·)
    else (valueFrom 0 cs).map (codeUnits c.toNat ++ ·)

/-- Whether a text is a string literal and nothing else. -/
def isString (literal : List Char) : Bool :=
  match Lexeme.read literal with
  | .lexeme l => l.kind == .string && l.length == literal.length
  | _ => false

/-- The value of a string literal. -/
def value? (literal : List Char) : Option (List Nat) :=
  if isString literal then valueFrom 0 (unquoted literal) else none

/-! ## Quotes -/

variable {quote : Char} {inner : List Char}

theorem unquoted_literal (quote : Char) (inner : List Char) :
    unquoted (quote :: (inner ++ [quote])) = inner := by
  rw [unquoted, List.drop_one, List.tail_cons, List.dropLast_concat]

/-- A literal ends where the string that its quote opens is closed. -/
theorem isString_iff (hquote : quote = '"' ∨ quote = '\'') :
    isString (quote :: inner) = true ↔ stringBody quote inner = (inner.length, true) := by
  have hread : Lexeme.read (quote :: inner) =
      if (stringBody quote inner).2 then
        .lexeme { kind := .string, length := (stringBody quote inner).1 + 1 }
      else .openString ((stringBody quote inner).1 + 1) := by
    rcases hquote with rfl | rfl <;> rfl
  rw [isString, hread]
  cases hclosed : (stringBody quote inner).2 with
  | false => simp [Prod.ext_iff, hclosed]
  | true => simp [Prod.ext_iff, hclosed]

/-! ## Text in JSON quotes -/

theorem digitValue?_hexDigit (h : n < 16) :
    Markup.digitValue? 16 (Json.hexDigit n) = some n := by
  revert n
  decide

theorem hex?_control (h : n < 0x20) (cs : List Char) :
    hex? 4 ('0' :: '0' :: Json.hexDigit (n / 16) :: Json.hexDigit (n % 16) :: cs) =
      some ([n], 5) := by
  have hzero : Markup.digitValue? 16 '0' = some 0 := by decide
  have hhigh := digitValue?_hexDigit (n := n / 16) (by omega)
  have hlow := digitValue?_hexDigit (n := n % 16) (by omega)
  have hsum : n / 16 * 16 + n % 16 = n := by omega
  simp [hex?, number?, hzero, hhigh, hlow, hsum]

theorem valueFrom_escape (cs : List Char) (h : escape? cs = some (us, n)) :
    valueFrom 0 ('\\' :: cs) = (valueFrom n cs).map (us ++ ·) := by
  rw [valueFrom, if_pos (beq_self_eq_true _), h, Option.bind_some]

theorem valueFrom_cons (hc : c ≠ '\\') (cs : List Char) :
    valueFrom 0 (c :: cs) = (valueFrom 0 cs).map (codeUnits c.toNat ++ ·) := by
  rw [valueFrom, if_neg (by simpa using hc)]

theorem valueFrom_escapeChar (c : Char) (cs : List Char) :
    valueFrom 0 (Json.escapeChar c ++ cs) =
      (valueFrom 0 cs).map (codeUnits c.toNat ++ ·) := by
  unfold Json.escapeChar
  split
  iterate 7 rfl
  rename_i hslash _ _ _ _ _
  split
  · rename_i hcontrol
    have hunits : codeUnits c.toNat = [c.toNat] := if_pos (by omega)
    rw [hunits]
    exact valueFrom_escape ('u' :: '0' :: '0' :: _) (hex?_control hcontrol cs)
  · exact valueFrom_cons hslash cs

theorem stringBody_escape (quote : Char) (hc : c ≠ '\r') (cs : List Char) :
    stringBody quote ('\\' :: c :: cs) =
      ((stringBody quote cs).1 + 2, (stringBody quote cs).2) := by
  rw [Lexeme.stringBody.eq_2 _ _ _ (fun _ h => absurd h hc)]

/-- A character that is neither a quote nor a backslash nor a line end is one of a string. -/
theorem stringBody_cons (hquote : c ≠ quote) (hslash : c ≠ '\\') (hfeed : c ≠ '\n')
    (hreturn : c ≠ '\r') (cs : List Char) :
    stringBody quote (c :: cs) =
      ((stringBody quote cs).1 + 1, (stringBody quote cs).2) := by
  rw [Lexeme.stringBody.eq_3]
  · simp [hquote, hslash, hfeed, hreturn]
  · exact fun _ h => absurd h hslash
  · exact fun _ _ h => absurd h hslash

/-- A string is closed where it ends, whatever follows it. -/
theorem stringBody_take (h : stringBody quote cs = (n, true)) :
    n ≤ cs.length ∧ stringBody quote (cs.take n) = (n, true) := by
  fun_induction stringBody quote cs generalizing n with
  | case1 cs m closed hbody ih =>
    cases h
    obtain ⟨hle, htake⟩ := ih hbody
    exact ⟨by simpa using hle, by simp [stringBody, htake]⟩
  | case2 c cs hreturn m closed hbody ih =>
    cases h
    obtain ⟨hle, htake⟩ := ih hbody
    refine ⟨by simpa using hle, ?_⟩
    rw [List.take_succ_cons, List.take_succ_cons, Lexeme.stringBody.eq_2, htake]
    intro rest hc hcut
    cases cs with
    | nil => simp at hcut
    | cons d cs =>
      cases m with
      | zero => cases hcut
      | succ m => exact hreturn cs hc (by simp_all)
  | case3 c cs _ _ hquote =>
    cases h
    exact ⟨by simp, by simp [Lexeme.stringBody.eq_3, hquote]⟩
  | case4 => cases h
  | case5 c cs _ _ hquote hplain m closed hbody ih =>
    cases h
    obtain ⟨hle, htake⟩ := ih hbody
    simp only [Bool.or_eq_true, beq_iff_eq, not_or] at hquote hplain
    refine ⟨by simpa using hle, ?_⟩
    rw [List.take_succ_cons, stringBody_cons hquote hplain.1.1 hplain.1.2 hplain.2, htake]
  | case6 => cases h

theorem hexDigit_plain (h : n < 16) : Json.hexDigit n ≠ '"' ∧ Json.hexDigit n ≠ '\\' ∧
    Json.hexDigit n ≠ '\n' ∧ Json.hexDigit n ≠ '\r' := by
  revert n
  decide

theorem stringBody_escapeChar (c : Char) (cs : List Char) :
    stringBody '"' (Json.escapeChar c ++ cs) =
      ((stringBody '"' cs).1 + (Json.escapeChar c).length,
        (stringBody '"' cs).2) := by
  unfold Json.escapeChar
  split
  iterate 7 rfl
  rename_i hquote hslash hfeed hreturn _ _ _
  split
  · rename_i hcontrol
    obtain ⟨hq, hs, hf, hr⟩ := hexDigit_plain (n := c.toNat / 16) (by omega)
    obtain ⟨hq', hs', hf', hr'⟩ := hexDigit_plain (n := c.toNat % 16) (by omega)
    show stringBody '"' ('\\' :: 'u' :: '0' :: '0' :: Json.hexDigit (c.toNat / 16) ::
      Json.hexDigit (c.toNat % 16) :: cs) = _
    rw [stringBody_escape _ (by decide), stringBody_cons (by decide) (by decide) (by decide)
      (by decide), stringBody_cons (by decide) (by decide) (by decide) (by decide),
      stringBody_cons hq hs hf hr, stringBody_cons hq' hs' hf' hr']
    rfl
  · exact stringBody_cons hquote hslash hfeed hreturn cs

/-- The value of a literal is the text in which its characters are written so that none closes it
and each stands for itself. -/
theorem value?_escaped {escape : Char → List Char} (hquote : quote = '"' ∨ quote = '\'')
    (hbody : ∀ c ∈ cs, ∀ rest, stringBody quote (escape c ++ rest) =
      ((stringBody quote rest).1 + (escape c).length, (stringBody quote rest).2))
    (hvalue : ∀ c ∈ cs, ∀ rest, valueFrom 0 (escape c ++ rest) =
      (valueFrom 0 rest).map (codeUnits c.toNat ++ ·)) :
    value? (quote :: (cs.flatMap escape ++ [quote])) = some (utf16 cs) := by
  have hboth : stringBody quote (cs.flatMap escape ++ [quote]) =
      ((cs.flatMap escape ++ [quote]).length, true) ∧
      valueFrom 0 (cs.flatMap escape) = some (utf16 cs) := by
    induction cs with
    | nil => exact ⟨by rcases hquote with rfl | rfl <;> rfl, rfl⟩
    | cons c cs ih =>
      rw [List.forall_mem_cons] at hbody hvalue
      obtain ⟨hclosed, hread⟩ := ih hbody.2 hvalue.2
      rw [List.flatMap_cons, List.append_assoc, hbody.1, hvalue.1, hclosed, hread]
      exact ⟨Prod.ext (by simp only [List.length_append]; omega) rfl, rfl⟩
  rw [value?, if_pos ((isString_iff hquote).mpr hboth.1), unquoted_literal, hboth.2]

/-- The value of a text in JSON quotes is the text. -/
theorem value?_quote (s : String) : value? (Json.quote s).toList = some (utf16 s.toList) := by
  have hquoted : (Json.quote s).toList = '"' :: (s.toList.flatMap Json.escapeChar ++ ['"']) := by
    simp [Json.quote]
  rw [hquoted]
  exact value?_escaped (.inl rfl) (fun c _ => stringBody_escapeChar c)
    fun c _ => valueFrom_escapeChar c

/-- The value of a text in single quotes is the text. -/
theorem value?_quoted (s : String) : value? (quoted s).toList = some (utf16 s.toList) := by
  have hquoted : (quoted s).toList = '\'' :: (s.toList.flatMap quoteChar ++ ['\'']) := by
    simp [quoted]
  rw [hquoted]
  refine value?_escaped (.inr rfl) (fun c _ rest => ?_) fun c _ rest => ?_
  · unfold quoteChar
    split
    iterate 4 rfl
    rename_i hquote hslash hfeed hreturn
    exact stringBody_cons hquote hslash hfeed hreturn rest
  · unfold quoteChar
    split
    iterate 4 rfl
    rename_i hslash _ _
    exact valueFrom_cons hslash rest

/-! ## Text that is not escaped -/

/-- The value of a literal without escapes is what stands in its quotes. -/
theorem value?_plain (hquote : quote = '"' ∨ quote = '\'') (hinner : quote ∉ inner)
    (hslash : '\\' ∉ inner) (hfeed : '\n' ∉ inner) (hreturn : '\r' ∉ inner) :
    value? (quote :: (inner ++ [quote])) = some (utf16 inner) := by
  have hne : ∀ {c d : Char}, d ∉ inner → c ∈ inner → c ≠ d := fun hd hc h => hd (h ▸ hc)
  have hplain : value? (quote :: (inner.flatMap (fun c => [c]) ++ [quote])) = some (utf16 inner) :=
    value?_escaped hquote
      (fun c hc => stringBody_cons (hne hinner hc) (hne hslash hc) (hne hfeed hc) (hne hreturn hc))
      fun c hc => valueFrom_cons (hne hslash hc)
  rwa [List.flatMap_singleton'] at hplain

/-- A string with a line end that is not escaped is not closed by its quote. -/
theorem stringBody_open (hinner : quote ∉ inner) (hslash : '\\' ∉ inner) (hreturn : '\r' ∈ inner)
    (cs : List Char) : (stringBody quote (inner ++ cs)).2 = false := by
  induction inner with
  | nil => cases hreturn
  | cons c inner ih =>
    simp only [List.mem_cons, not_or] at hinner hslash
    rw [List.cons_append, Lexeme.stringBody.eq_3 _ _ _ (fun _ h => absurd h.symm hslash.1)
      (fun _ _ h => absurd h.symm hslash.1)]
    rw [if_neg (by simpa using Ne.symm hinner.1)]
    split
    · rfl
    · rename_i hplain
      rcases List.mem_cons.mp hreturn with rfl | hmem
      · exact absurd rfl hplain
      · exact ih hinner.2 hslash.2 hmem

theorem length_octalDigits (hc : (Markup.digitValue? 8 c).isSome) (cs : List Char) :
    0 < (octalDigits (c :: cs)).length ∧
      (octalDigits (c :: cs)).length ≤ (c :: cs).length := by
  unfold octalDigits
  extract_lets digits
  have hdigits : digits = c :: (cs.takeWhile fun c => (Markup.digitValue? 8 c).isSome).take 2 := by
    simp [digits, hc]
  have hle : (cs.takeWhile fun c => (Markup.digitValue? 8 c).isSome).length ≤ cs.length :=
    (List.takeWhile_prefix _).length_le
  rw [hdigits]
  split <;> simp <;> omega

/-- An escape has no more units than the characters that name it. -/
theorem length_escape? (h : escape? cs = some (us, n)) :
    us.length ≤ unitSize (cs.take n) := by
  -- all escapes but that of a character that needs none have at most as many units as characters
  have hfew : us.length ≤ n → n ≤ cs.length → us.length ≤ unitSize (cs.take n) := by
    intro hle hn
    refine Nat.le_trans ?_ (length_le_unitSize _)
    rwa [List.length_take, Nat.min_eq_left hn]
  have hhex : ∀ {count : Nat} {c : Char} {ds : List Char}, cs = c :: ds →
      hex? count ds = some (us, n) → us.length ≤ n ∧ n ≤ cs.length := by
    intro count c ds hcs hhex
    unfold hex? at hhex
    split at hhex
    · cases hhex
    · obtain ⟨_, -, heq⟩ := Option.map_eq_some_iff.mp hhex
      cases heq
      simp only [hcs, List.length_cons, List.length_nil]
      omega
  unfold escape? at h
  split at h
  · cases h
  iterate 6
    · cases h
      exact hfew (by simp) (by simp)
  · exact hfew (hhex rfl h).1 (hhex rfl h).2
  · rename_i ds
    unfold braced? at h
    extract_lets digits at h
    split at h
    · cases h
    · rename_i hclosed
      obtain ⟨code, -, heq⟩ := Option.map_eq_some_iff.mp h
      cases heq
      have hle : digits.length ≤ ds.length := (List.takeWhile_prefix _).length_le
      simp only [Bool.or_eq_true, not_or, beq_iff_eq] at hclosed
      have hunits := length_codeUnits_le code
      refine hfew (by omega) ?_
      simp only [List.length_cons]
      omega
  · exact hfew (hhex rfl h).1 (hhex rfl h).2
  · cases h
    exact hfew (by simp) (by simp)
  · rename_i c ds _ _ _ _ _ _ _ _ _ _
    split at h
    · cases h
      exact hfew (by simp) (by simp)
    · split at h
      · rename_i hoctal
        obtain ⟨_, -, heq⟩ := Option.map_eq_some_iff.mp h
        cases heq
        exact hfew (length_octalDigits hoctal ds).1 (length_octalDigits hoctal ds).2
      · cases h
        simp [unitSize, length_codeUnits]

/-- Text has no more units than characters stand for it, and less if one of them is a backslash. -/
theorem length_valueFrom {skip : Nat} (h : valueFrom skip cs = some us) :
    us.length ≤ unitSize (cs.drop skip) ∧
      ('\\' ∈ cs.drop skip → us.length < unitSize (cs.drop skip)) := by
  fun_induction valueFrom skip cs generalizing us with
  | case1 skip =>
    cases h
    simp
  | case2 skip c cs ih => exact ih h
  | case3 c cs hslash ih =>
    obtain ⟨e, hescape, h⟩ := Option.bind_eq_some_iff.mp h
    obtain ⟨rest, hrest, rfl⟩ := Option.map_eq_some_iff.mp h
    have hfirst := length_escape? hescape
    have hle := (ih e hrest).1
    have hsplit := unitSize_append (cs.take e.2) (cs.drop e.2)
    rw [List.take_append_drop] at hsplit
    have hone : units '\\' = 1 := rfl
    rw [beq_iff_eq.mp hslash, List.drop_zero, List.length_append, unitSize, hone]
    constructor
    · omega
    · intro _
      omega
  | case4 c cs hslash ih =>
    obtain ⟨rest, hrest, rfl⟩ := Option.map_eq_some_iff.mp h
    obtain ⟨hle, hlt⟩ := ih hrest
    rw [List.drop_zero] at hle hlt ⊢
    rw [List.length_append, length_codeUnits, unitSize]
    refine ⟨by omega, fun hmem => ?_⟩
    have hmem : '\\' ∈ cs := by
      rcases List.mem_cons.mp hmem with rfl | hmem
      · exact absurd rfl hslash
      · exact hmem
    have := hlt hmem
    omega

/-- The value of a literal is what stands in its quotes just if there is no backslash. -/
theorem value?_eq_iff {literal : List Char} (h : isString literal = true) :
    value? literal = some (utf16 (unquoted literal)) ↔ '\\' ∉ unquoted literal := by
  rw [value?, if_pos h]
  constructor
  · intro hvalue hmem
    have hlt := (length_valueFrom hvalue).2 hmem
    rw [length_utf16] at hlt
    exact Nat.lt_irrefl _ hlt
  · generalize unquoted literal = cs
    intro hslash
    induction cs with
    | nil => rfl
    | cons c cs ih =>
      rw [List.mem_cons, not_or] at hslash
      rw [valueFrom_cons (Ne.symm hslash.1), ih hslash.2]
      rfl

/-- The value of a literal that is copied is what stands in its quotes only if nothing in them is
escaped and no line ends there. -/
theorem value?_copied (hquote : quote = '"' ∨ quote = '\'') (hinner : quote ∉ inner)
    (h : value? (quote :: (inner ++ [quote])) = some (utf16 inner)) :
    '\\' ∉ inner ∧ '\r' ∉ inner := by
  have hstring : isString (quote :: (inner ++ [quote])) = true := by
    by_contra hnone
    rw [value?, if_neg hnone] at h
    cases h
  have hslash := value?_eq_iff hstring
  rw [unquoted_literal] at hslash
  refine ⟨hslash.mp h, fun hreturn => ?_⟩
  have hopen := stringBody_open hinner (hslash.mp h) hreturn [quote]
  rw [(isString_iff hquote).mp hstring] at hopen
  cases hopen

end Literal

end Downlevel.Text
