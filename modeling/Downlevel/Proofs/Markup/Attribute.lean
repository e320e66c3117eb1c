import Downlevel.Markup.Text
import Downlevel.Proofs.Text.Literal

/-!
# The values of attributes

What the text in the quotes of an attribute stands for (`Stands`), which is what `attributeValue`
computes (`stands_iff`). A literal that is put in other quotes has this value
(`attributeLiteral?_holds`). One that stays as it is has it just if there is no backslash in it and
no carriage return (`copied_holds_iff`): those mean something else in a script.
-/

namespace Downlevel.Markup

open Text (isBlank utf16)

/-- The text in the quotes of an attribute stands for a value: a line feed is folded with the blanks
after it into one space, references are decoded, and every other character stands for itself. -/
inductive Stands : List Char → List Char → Prop where
  | nil : Stands [] []
  | fold {blanks rest value : List Char} (hne : blanks ≠ [])
      (hblanks : ∀ c ∈ blanks, isBlank c = true) (hrest : rest.head?.any isBlank = false)
      (h : Stands rest value) : Stands ('\n' :: (blanks ++ rest)) (' ' :: value)
  | reference {cs value : List Char} {d : Char} {n : Nat} (href : reference? cs = some (d, n))
      (h : Stands (cs.drop n) value) : Stands ('&' :: cs) (d :: value)
  | plain {c : Char} {cs value : List Char} (hfeed : c = '\n' → cs.head?.any isBlank = false)
      (href : c = '&' → reference? cs = none) (h : Stands cs value) : Stands (c :: cs) (c :: value)

/-! ## Computing values -/

theorem attributeFrom_skip (folding : Bool) (n : Nat) (cs : List Char) :
    attributeFrom folding n cs = attributeFrom folding 0 (cs.drop n) := by
  induction cs generalizing n with
  | nil => simp [attributeFrom]
  | cons c cs ih =>
    cases n with
    | zero => rfl
    | succ n => exact ih n

theorem attributeFrom_blanks {blanks rest : List Char} (hblanks : ∀ c ∈ blanks, isBlank c = true)
    (hrest : rest.head?.any isBlank = false) :
    attributeFrom true 0 (blanks ++ rest) = attributeValue rest := by
  induction blanks with
  | nil =>
    cases rest with
    | nil => rfl
    | cons c rest =>
      have hc : isBlank c = false := hrest
      simp [attributeValue, attributeFrom, hc]
  | cons c blanks ih =>
    have hc := hblanks c List.mem_cons_self
    rw [List.cons_append, attributeFrom, if_pos (by simp [hc])]
    exact ih fun d hd => hblanks d (List.mem_cons_of_mem c hd)

theorem attributeValue_fold {cs : List Char} (h : cs.head?.any isBlank = true) :
    attributeValue ('\n' :: cs) = ' ' :: attributeFrom true 0 cs := by
  simp [attributeValue, attributeFrom, h]

theorem attributeValue_reference {cs : List Char} {d : Char} {n : Nat}
    (h : reference? cs = some (d, n)) :
    attributeValue ('&' :: cs) = d :: attributeValue (cs.drop n) := by
  rw [attributeValue, attributeValue, ← attributeFrom_skip]
  simp [attributeFrom, h]

theorem attributeValue_plain {c : Char} {cs : List Char}
    (hfeed : c = '\n' → cs.head?.any isBlank = false) (href : c = '&' → reference? cs = none) :
    attributeValue (c :: cs) = c :: attributeValue cs := by
  have hline : (c == '\n' && cs.head?.any isBlank) = false := by
    by_cases hc : c = '\n'
    · rw [hfeed hc, Bool.and_false]
    · simp [hc]
  have hnone : (if c = '&' then reference? cs else none) = none := by
    split
    · exact href ‹_›
    · rfl
  simp [attributeValue, attributeFrom, hline, hnone]

theorem Stands.eq {cs value : List Char} (h : Stands cs value) : attributeValue cs = value := by
  induction h with
  | nil => rfl
  | @fold blanks rest value hne hblanks hrest _ ih =>
    obtain ⟨c, blanks, rfl⟩ := List.exists_cons_of_ne_nil hne
    have hhead : (c :: blanks ++ rest).head?.any isBlank = true := hblanks c List.mem_cons_self
    rw [attributeValue_fold hhead, attributeFrom_blanks hblanks hrest, ih]
  | reference href _ ih => rw [attributeValue_reference href, ih]
  | plain hfeed href _ ih => rw [attributeValue_plain hfeed href, ih]

theorem stands_attributeValue (cs : List Char) : Stands cs (attributeValue cs) := by
  -- on the length of the text, since references and folded lines are passed at once
  induction hlength : cs.length using Nat.strongRecOn generalizing cs with
  | _ n ih =>
    subst hlength
    cases cs with
    | nil => exact .nil
    | cons c cs =>
      by_cases hfold : c = '\n' ∧ cs.head?.any isBlank = true
      · obtain ⟨rfl, hhead⟩ := hfold
        have hblanks : ∀ d ∈ cs.takeWhile isBlank, isBlank d = true := fun d hd =>
          List.all_eq_true.mp List.all_takeWhile d hd
        have hrest : (cs.dropWhile isBlank).head?.any isBlank = false := by
          cases hdrop : cs.dropWhile isBlank with
          | nil => rfl
          | cons d rest =>
            have hne : cs.dropWhile isBlank ≠ [] := by
              rw [hdrop]
              exact List.cons_ne_nil _ _
            have hhead := List.head_dropWhile_not isBlank hne
            simpa [hdrop] using hhead
        have hne : cs.takeWhile isBlank ≠ [] := by
          cases cs with
          | nil => cases hhead
          | cons d cs => simp [show isBlank d = true from hhead]
        have hlt : (cs.dropWhile isBlank).length < ('\n' :: cs).length :=
          Nat.lt_succ_of_le (List.dropWhile_suffix _).length_le
        have hstands := Stands.fold hne hblanks hrest (ih _ hlt _ rfl)
        rwa [← attributeFrom_blanks hblanks hrest, List.takeWhile_append_dropWhile,
          ← attributeValue_fold hhead] at hstands
      · have hfeed : c = '\n' → cs.head?.any isBlank = false := fun hc =>
          Bool.eq_false_iff.mpr fun hhead => hfold ⟨hc, hhead⟩
        by_cases href : c = '&' ∧ (reference? cs).isSome = true
        · obtain ⟨rfl, hsome⟩ := href
          obtain ⟨⟨d, n⟩, href⟩ := Option.isSome_iff_exists.mp hsome
          have hlt : (cs.drop n).length < ('&' :: cs).length :=
            Nat.lt_succ_of_le (List.drop_suffix n cs).length_le
          rw [attributeValue_reference href]
          exact .reference href (ih _ hlt _ rfl)
        · have href : c = '&' → reference? cs = none := fun hc =>
            Option.not_isSome_iff_eq_none.mp fun hsome => href ⟨hc, hsome⟩
          rw [attributeValue_plain hfeed href]
          exact .plain hfeed href (ih _ (Nat.lt_succ_self _) _ rfl)

/-- Text without line feeds and references stands for itself. -/
theorem attributeValue_self {cs : List Char} (hfeed : '\n' ∉ cs) (href : '&' ∉ cs) :
    attributeValue cs = cs := by
  induction cs with
  | nil => rfl
  | cons c cs ih =>
    simp only [List.mem_cons, not_or] at hfeed href
    rw [attributeValue_plain (fun hc => absurd hc.symm hfeed.1) (fun hc => absurd hc.symm href.1),
      ih hfeed.2 href.2]

/-! ## Literals -/

/-- The code is one string literal with the value, and line feeds after it. -/
def Holds (code value : List Char) : Prop :=
  ∃ literal n, code = literal ++ List.replicate n '\n' ∧
    Text.Literal.value? literal = some (utf16 value)

variable {quote : Char} {inner : List Char}

theorem attributeLiteral?_eq_none :
    attributeLiteral? (quote :: (inner ++ [quote])) = none ↔ '\n' ∉ inner ∧ '&' ∉ inner := by
  rw [attributeLiteral?, Text.Literal.unquoted_literal]
  simp

/-- A literal in other quotes has the value of the attribute. -/
theorem attributeLiteral?_holds {code : String}
    (h : attributeLiteral? (quote :: (inner ++ [quote])) = some code) :
    Holds code.toList (attributeValue inner) := by
  rw [attributeLiteral?, Text.Literal.unquoted_literal] at h
  split at h
  · obtain rfl := Option.some.inj h
    have hvalue := Text.Literal.value?_quote (String.ofList (attributeValue inner))
    rw [String.toList_ofList] at hvalue
    refine ⟨_, inner.count '\n', ?_, hvalue⟩
    rw [String.toList_append, String.toList_ofList, Text.lineFeeds, List.filter_beq]
  · cases h

/-- A literal that stays as it is has the value of the attribute just if there is no backslash and
no carriage return in it. -/
theorem copied_holds_iff (hquote : quote = '"' ∨ quote = '\'') (hinner : quote ∉ inner)
    (hnone : attributeLiteral? (quote :: (inner ++ [quote])) = none) :
    Holds (quote :: (inner ++ [quote])) (attributeValue inner) ↔ '\\' ∉ inner ∧ '\r' ∉ inner := by
  obtain ⟨hfeed, href⟩ := attributeLiteral?_eq_none.mp hnone
  rw [attributeValue_self hfeed href]
  constructor
  · rintro ⟨literal, n, hcode, hvalue⟩
    -- the code ends with a quote, so that there are no line feeds after the literal
    have hn : n = 0 := by
      cases n with
      | zero => rfl
      | succ n =>
        have hlast := congrArg List.getLast? hcode
        rw [List.replicate_succ', ← List.append_assoc, ← List.cons_append, List.getLast?_concat,
          List.getLast?_concat] at hlast
        rcases hquote with rfl | rfl <;> cases hlast
    rw [hn, List.replicate_zero, List.append_nil] at hcode
    rw [← hcode] at hvalue
    exact Text.Literal.value?_copied hquote hinner hvalue
  · rintro ⟨hslash, hreturn⟩
    exact ⟨_, 0, (List.append_nil _).symm,
      Text.Literal.value?_plain hquote hinner hslash hfeed hreturn⟩

end Downlevel.Markup
