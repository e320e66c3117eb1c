import Downlevel.Grammar.Parser
import Downlevel.Proofs.Cursor.Poised

/-!
# The course of a parse

`Course text s t` is what holds between a state and any state that parsing leads to from it, whether
the text is well formed or not. Tokens that were taken stay in their places. The credit of the
cursor does not grow, and it falls only where something happened that cannot happen without end: a
token was taken that is not the end of the input, or the error was set (`Progress`). Once the error
is set, nothing but the end of the input is taken (`Spent`). No error that was raised is undone.
-/

namespace Downlevel.Grammar

variable {text : List Char} {s t u : State}

/-- From `s` to `t` a token was taken that is not the end of the input, or the error was set. -/
def Progress (s t : State) : Prop :=
  s.cursor.error = none ∧ t.cursor.error.isSome ∨
    ∃ (i : Nat) (tok : Token), s.tokens.size ≤ i ∧ t.tokens[i]? = some tok ∧ tok.kind ≠ .eof

/-- From `s` to `t` the error is the same, and only the end of the input was taken. -/
structure Spent (text : List Char) (s t : State) : Prop where
  error : t.cursor.error = s.cursor.error
  tokens : ∀ (i : Nat) (tok : Token), s.tokens.size ≤ i → t.tokens[i]? = some tok →
    tok.kind = .eof ∧ tok.span = ⟨Text.size text, Text.size text⟩

/-- What holds between a state and one that it leads to. -/
structure Course (text : List Char) (s t : State) : Prop where
  spans : ∀ (i : Nat) (tok : Token), s.tokens[i]? = some tok →
    ∃ tok' : Token, t.tokens[i]? = some tok' ∧ tok'.kind = tok.kind ∧ tok'.span = tok.span
  poised : s.cursor.Poised text → t.cursor.Poised text
  credit : s.cursor.Poised text → t.cursor.credit ≤ s.cursor.credit
  progress : s.cursor.Poised text → t.cursor.credit < s.cursor.credit → Progress s t
  spent : s.cursor.Poised text → s.cursor.error.isSome → Spent text s t
  raises : s.cursor.Poised text → s.cursor.Raises text t.cursor

namespace Course

theorem size_le (h : Course text s t) : s.tokens.size ≤ t.tokens.size := by
  by_contra hlt
  have hin : t.tokens.size < s.tokens.size := by omega
  obtain ⟨tok, htok, -⟩ := h.spans t.tokens.size _ (Array.getElem?_eq_getElem hin)
  rw [Array.getElem?_eq_none (Nat.le_refl _)] at htok
  cases htok

theorem failed (h : Course text s t) (hs : s.cursor.Poised text) (hfailed : s.cursor.error.isSome) :
    t.cursor.error.isSome := by
  rw [(h.spent hs hfailed).error]
  exact hfailed

theorem refl (s : State) : Course text s s where
  spans _ tok htok := ⟨tok, htok, rfl, rfl⟩
  poised hs := hs
  credit _ := Nat.le_refl _
  progress _ hlt := absurd hlt (Nat.lt_irrefl _)
  spent _ _ :=
    { error := rfl
      tokens := fun i tok hi htok => by
        rw [Array.getElem?_eq_none hi] at htok
        cases htok }
  raises _ := Cursor.raises_of_eq rfl rfl

theorem trans (h : Course text s t) (h' : Course text t u) : Course text s u where
  spans i tok htok := by
    obtain ⟨tok', htok', hkind, hspan⟩ := h.spans i tok htok
    obtain ⟨tok'', htok'', hkind', hspan'⟩ := h'.spans i tok' htok'
    exact ⟨tok'', htok'', hkind'.trans hkind, hspan'.trans hspan⟩
  poised hs := h'.poised (h.poised hs)
  credit hs := Nat.le_trans (h'.credit (h.poised hs)) (h.credit hs)
  progress hs hlt := by
    have ht := h.poised hs
    by_cases hfirst : t.cursor.credit < s.cursor.credit
    · rcases h.progress hs hfirst with ⟨hclean, hfailed⟩ | ⟨i, tok, hi, htok, hkind⟩
      · exact .inl ⟨hclean, h'.failed ht hfailed⟩
      · obtain ⟨tok', htok', hkind', -⟩ := h'.spans i tok htok
        exact .inr ⟨i, tok', hi, htok', by rw [hkind']; exact hkind⟩
    · have hsecond : u.cursor.credit < t.cursor.credit := by
        have := h.credit hs
        omega
      rcases h'.progress ht hsecond with ⟨hclean, hfailed⟩ | ⟨i, tok, hi, htok, hkind⟩
      · refine .inl ⟨?_, hfailed⟩
        cases herror : s.cursor.error with
        | none => rfl
        | some e =>
          have hfailed' := h.failed hs (by rw [herror]; rfl)
          rw [hclean] at hfailed'
          cases hfailed'
      · exact .inr ⟨i, tok, Nat.le_trans h.size_le hi, htok, hkind⟩
  spent hs hfailed := by
    have hfirst := h.spent hs hfailed
    have hsecond := h'.spent (h.poised hs) (h.failed hs hfailed)
    refine ⟨hsecond.error.trans hfirst.error, fun i tok hi htok => ?_⟩
    by_cases hit : i < t.tokens.size
    · have hget := Array.getElem?_eq_getElem hit
      obtain ⟨tok', htok', hkind, hspan⟩ := h'.spans i _ hget
      rw [htok] at htok'
      cases htok'
      rw [hkind, hspan]
      exact hfirst.tokens i _ hi hget
    · exact hsecond.tokens i tok (by omega) htok
  raises hs := (h.raises hs).trans (h'.raises (h.poised hs))

theorem of_turned {c : Cursor} (h : s.cursor.Poised text → s.cursor.Turned text c) :
    Course text s { s with cursor := c } where
  spans _ tok htok := ⟨tok, htok, rfl, rfl⟩
  poised hs := (h hs).poised
  credit hs := by
    rcases (h hs).same with ⟨-, hcredit⟩ | ⟨-, hfailed⟩
    · exact Nat.le_of_eq hcredit
    · show c.credit ≤ _
      rw [Cursor.credit_of_failed (h hs).poised hfailed]
      exact Nat.zero_le _
  progress hs hlt := by
    rcases (h hs).same with ⟨-, hcredit⟩ | hfailed
    · exact absurd hcredit (Nat.ne_of_lt hlt)
    · exact .inl hfailed
  spent hs hfailed := by
    refine ⟨?_, fun i tok hi htok => ((refl s).spent hs hfailed).tokens i tok hi htok⟩
    rcases (h hs).same with ⟨herror, -⟩ | ⟨hclean, -⟩
    · exact herror
    · rw [hclean] at hfailed
      cases hfailed
  raises hs := (h hs).raises

theorem of_poised (hspans : ∀ (i : Nat) (tok : Token), s.tokens[i]? = some tok →
      ∃ tok' : Token, t.tokens[i]? = some tok' ∧ tok'.kind = tok.kind ∧ tok'.span = tok.span)
    (h : s.cursor.Poised text → Course text s t) : Course text s t :=
  ⟨hspans, fun hs => (h hs).poised hs, fun hs => (h hs).credit hs, fun hs => (h hs).progress hs,
    fun hs => (h hs).spent hs, fun hs => (h hs).raises hs⟩

theorem around (s : State) (inType : Bool) (depth : Nat) :
    Course text s { s with cursor := { s.cursor with inType, depth } } :=
  of_turned fun hs => ⟨⟨hs.start, hs.stop, hs.le, hs.wide, hs.ended, hs.failed⟩,
    Cursor.raises_of_eq rfl rfl, .inl ⟨rfl, rfl⟩⟩

theorem of_tokens {tokens : Array Token} (hsize : tokens.size = s.tokens.size)
    (h : ∀ (i : Nat) (tok : Token), s.tokens[i]? = some tok →
      ∃ tok' : Token, tokens[i]? = some tok' ∧ tok'.kind = tok.kind ∧ tok'.span = tok.span) :
    Course text s { s with tokens } where
  spans := h
  poised hs := hs
  credit _ := Nat.le_refl _
  progress _ hlt := absurd hlt (Nat.lt_irrefl _)
  spent _ _ := by
    refine ⟨rfl, fun i tok hi htok => ?_⟩
    rw [Array.getElem?_eq_none (by show tokens.size ≤ i; omega)] at htok
    cases htok
  raises _ := Cursor.raises_of_eq rfl rfl

theorem of_scopes (scopes : Array Scope) (h : Course text s t) :
    Course text s { t with scopes } :=
  ⟨h.spans, h.poised, h.credit, h.progress, fun hs hfailed =>
    ⟨(h.spent hs hfailed).error, (h.spent hs hfailed).tokens⟩, h.raises⟩

theorem took {source : Source} (mode : Mode) (s : State) :
    Course source.text s
      { s with
        tokens := s.tokens.push s.cursor.token
        cursor := s.cursor.advance source mode } where
  spans i tok htok := by
    refine ⟨tok, ?_, rfl, rfl⟩
    obtain ⟨hi, -⟩ := Array.getElem?_eq_some_iff.mp htok
    show (s.tokens.push _)[i]? = _
    rw [Array.getElem?_push, if_neg (by omega)]
    exact htok
  poised hs := Cursor.advance_poised hs.stop
  credit hs := Cursor.credit_advance_le hs
  progress hs hlt := by
    by_cases heof : s.cursor.kind = .eof
    · -- nothing is left but to fail
      have hcredit : s.cursor.credit ≤ 1 := by
        rw [Cursor.credit, heof, (hs.ended heof).1, if_neg Kind.noConfusion]
        split <;> simp
      have hzero : (s.cursor.advance source mode).credit = 0 := by
        have hlt' : (s.cursor.advance source mode).credit < s.cursor.credit := hlt
        omega
      refine .inl ⟨?_, Cursor.failed_of_credit hzero⟩
      cases herror : s.cursor.error with
      | none => rfl
      | some e =>
        rw [Cursor.credit_of_failed hs (by rw [herror]; rfl)] at hlt
        cases hlt
    · exact .inr ⟨s.tokens.size, s.cursor.token, Nat.le_refl _, Array.getElem?_push_size, heof⟩
  spent hs hfailed := by
    have heof := hs.failed hfailed
    refine ⟨?_, fun i tok hi htok => ?_⟩
    · obtain ⟨e, he⟩ := Option.isSome_iff_exists.mp hfailed
      rw [he]
      exact Cursor.advance_error he
    · have hpush : (s.tokens.push s.cursor.token)[i]? = some tok := htok
      rw [Array.getElem?_push] at hpush
      split at hpush
      · cases hpush
        exact ⟨heof, Cursor.span_of_eof hs heof⟩
      · rw [Array.getElem?_eq_none hi] at hpush
        cases hpush
  raises hs := Cursor.advance_raises hs.stop

end Course

end Downlevel.Grammar
