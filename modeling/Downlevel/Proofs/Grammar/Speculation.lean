import Downlevel.Proofs.Grammar.Kept

/-!
# Speculation

Arrow functions, type arguments, function types and mapped types are told from what they look like
by trying them, and some decisions are made by reading ahead. Going back drops what came later and
nothing else, so that a trace would stay wherever something was noted on an older token. No rule of
the grammar does that (`grammar_keeping`), and what was tried in vain or only looked at has not
happened: cursor, tokens with all notes on them, and scopes are as before.
-/

namespace Downlevel.Grammar

variable {α : Type} {ctx : Context} {s t : State} {p : Parser α}

/-- When the parser answers `false`, nothing has happened. -/
def Undone (ctx : Context) (p : Parser Bool) : Prop := ∀ s t, p ctx s = .ok (false, t) → t = s

/-- Whatever the parser answers, nothing has happened; and it answers wherever the reader may
stand. -/
structure Traceless (ctx : Context) (p : Parser α) : Prop where
  unchanged : ∀ s a t, p ctx s = .ok (a, t) → t = s
  answers : ∀ s, Placed ctx.source.text s → ∃ a, p ctx s = .ok (a, s)

/-! ## Attempts -/

theorem attempt_undone {p : Parser Bool} [∀ n, Keeps ctx n n p] : Undone ctx (attempt p) := by
  intro s t hrun
  rcases attempt_ok (keepsAt_here s) hrun with ⟨hno, -⟩ | ⟨-, heq⟩
  · cases hno
  · exact heq

section Attempts

variable (k : Knot) [k.Keeping ctx]

theorem tryArrow_undone : Undone ctx (tryArrow k) := attempt_undone

theorem tryGenericArrow_undone : Undone ctx (tryGenericArrow k) := attempt_undone

theorem tryTypeArguments_undone (callOnly : Bool) : Undone ctx (tryTypeArguments k callOnly) :=
  attempt_undone

theorem tryFunctionType_undone : Undone ctx (tryFunctionType k) := attempt_undone

theorem tryMappedType_undone : Undone ctx (tryMappedType k) := by
  intro s t hrun
  obtain ⟨_, _, ⟨⟩, hrun⟩ := bind_ok hrun
  split at hrun
  · exact attempt_undone s t hrun
  · cases hrun
    rfl

end Attempts

/-! ## Reading ahead -/

/-- What was read ahead for an answer is forgotten, and the answer is kept. -/
theorem peek_of_ok [∀ n, Keeps ctx n n p] {a : α} (hp : p ctx s = .ok (a, t)) :
    peek p ctx s = .ok (a, s) := by
  rw [peek_eq, bind_of_ok hp]
  show Except.ok (a, t.back s.snapshot) = _
  rw [((keepsAt_here s).above a t hp).restored]

theorem peek_traceless [∀ n, Keeps ctx n n p]
    (hp : ∀ s, Placed ctx.source.text s → ∃ a t, p ctx s = .ok (a, t)) :
    Traceless ctx (peek p) where
  unchanged s a t hrun := (peek_ok (keepsAt_here s) hrun).1
  answers s hs := by
    obtain ⟨a, t, hpa⟩ := hp s hs
    exact ⟨a, peek_of_ok hpa⟩

theorem bind_answers {β : Type} {g : α → Parser β} {a : α} (hp : p ctx s = .ok (a, t))
    (hg : ∃ b u, g a ctx t = .ok (b, u)) : ∃ b u, (p >>= g) ctx s = .ok (b, u) := by
  obtain ⟨b, u, hgb⟩ := hg
  exact ⟨b, u, (bind_of_ok hp).trans hgb⟩

theorem lineBreakBefore_of_placed (hs : Placed ctx.source.text s) :
    ∃ b, lineBreakBefore ctx s = .ok (b, s) := by
  obtain ⟨b, hb⟩ := Cursor.lineBreakBefore?_isSome hs.cursor
  refine ⟨b, ?_⟩
  show demand _ s.cursor.lineBreakBefore? ctx s = _
  rw [hb]
  rfl

theorem eat_total (ctx : Context) (s : State) (k : Kind) : ∃ b t, eat k ctx s = .ok (b, t) := by
  refine bind_answers rfl ?_
  split
  · exact ⟨_, _, rfl⟩
  · exact ⟨_, _, rfl⟩

theorem lookahead_traceless : Traceless ctx lookahead := by
  refine peek_traceless fun s hs => bind_answers rfl (bind_answers rfl ?_)
  have htook : Above ctx.source.text 0 s
      ⟨s.cursor.advance ctx.source .code, s.tokens.push s.cursor.token, s.scopes⟩ :=
    above_took .code (Nat.zero_le _)
  obtain ⟨b, hb⟩ := lineBreakBefore_of_placed (htook.placed hs)
  exact bind_answers hb ⟨_, _, rfl⟩

theorem isIndexSignature_traceless : Traceless ctx isIndexSignature := by
  refine peek_traceless fun s _ => bind_answers rfl ?_
  obtain ⟨b, t, hname⟩ := eat_total ctx _ .name
  refine bind_answers hname ?_
  split
  · exact ⟨_, _, rfl⟩
  · exact ⟨_, _, rfl⟩

theorem Traceless.of_look (hp : ∀ s, ∃ a, p ctx s = .ok (a, s)) :
    Traceless ctx p where
  unchanged s a t hrun := by
    obtain ⟨b, hb⟩ := hp s
    rw [hb] at hrun
    cases hrun
    rfl
  answers s _ := hp s

theorem Traceless.bind {β : Type} {g : α → Parser β} (hp : Traceless ctx p)
    (hg : ∀ a, Traceless ctx (g a)) : Traceless ctx (p >>= g) where
  unchanged s b u hrun := by
    obtain ⟨a, t, hpa, hgb⟩ := bind_ok hrun
    obtain rfl := hp.unchanged s a t hpa
    exact (hg a).unchanged _ b u hgb
  answers s hs := by
    obtain ⟨a, ha⟩ := hp.answers s hs
    obtain ⟨b, hb⟩ := (hg a).answers s hs
    exact ⟨b, (bind_of_ok ha).trans hb⟩

theorem Traceless.pure (a : α) : Traceless ctx (Pure.pure a) := .of_look fun _ => ⟨a, rfl⟩

theorem isTypeSpecifier_traceless : Traceless ctx isTypeSpecifier := by
  refine .bind (.of_look fun _ => ⟨_, rfl⟩) fun typed => .bind (.of_look fun _ => ⟨_, rfl⟩)
    fun word => ?_
  split
  · exact .pure _
  refine lookahead_traceless.bind fun ahead => ?_
  split
  · exact .pure _
  · exact .pure _
  · split
    · exact peek_traceless fun s _ => ⟨_, _, rfl⟩
    · exact .pure _
  · exact .pure _
  · exact .pure _

/-- A speculation that fails leaves no trace, and neither does reading ahead: the whole state is
what it was, for every source and dialect and however deeply the rules nest. -/
theorem speculation_leaves_no_trace (ctx : Context) (n : Nat) :
    (Undone ctx (tryArrow (grammar n)) ∧ Undone ctx (tryGenericArrow (grammar n)) ∧
      (∀ callOnly, Undone ctx (tryTypeArguments (grammar n) callOnly)) ∧
      Undone ctx (tryFunctionType (grammar n)) ∧ Undone ctx (tryMappedType (grammar n))) ∧
    Traceless ctx lookahead ∧ Traceless ctx isIndexSignature ∧ Traceless ctx isTypeSpecifier :=
  ⟨⟨tryArrow_undone _, tryGenericArrow_undone _, tryTypeArguments_undone _,
    tryFunctionType_undone _,
    tryMappedType_undone _⟩, lookahead_traceless, isIndexSignature_traceless,
    isTypeSpecifier_traceless⟩

/-- Parentheses that hold an assignment are taken for parameters with a default value up to their
end, where no arrow follows. -/
theorem arrow_undone_at_group :
    let ctx := Context.of "(a = b)".toList {}
    let s := State.first ctx.source
    ∃ t, tryArrow (grammar 12) ctx s = .ok (false, t) ∧ t = s := by
  intro ctx s
  have hfalse : (tryArrow (grammar 12) ctx s).toOption.map (·.1) = some false := by decide +kernel
  cases hrun : tryArrow (grammar 12) ctx s with
  | error e => simp [hrun, Except.toOption] at hfalse
  | ok r =>
    obtain ⟨b, t⟩ := r
    obtain rfl : b = false := by simpa [hrun, Except.toOption] using hfalse
    exact ⟨t, rfl, (speculation_leaves_no_trace ctx 12).1.1 s t hrun⟩

end Downlevel.Grammar
