import Downlevel.Proofs.Grammar.Goes
import Downlevel.Proofs.Grammar.Kept

/-!
# Parts, annotations and patterns

What the rules of the grammar promise one another (`Knot.Sure`), and that the productions keep it
which all larger ones use. Expressions and statements take a token at least. Types are parsed only
where they may be written, and an element is one together with the `>` on which it ends.
-/

namespace Downlevel.Grammar

open State
open Token (At Sided)
open Phrase (Spans)

variable {ctx : Context} {k : Knot} {s : State} {h : Prop} {inner : Parser Unit} {t : State}

/-- The statement since `s` begins like a default export. -/
def Defaulted (s t : State) : Prop :=
  (At t.tokens s.tokens.size .kwExport ∧ At t.tokens (s.tokens.size + 1) .kwDefault) ∨
    At t.tokens s.tokens.size .atSign

/-- The `<` of an element, at `start`, was taken last. -/
structure Begun (start : Nat) (s : State) : Prop where
  size : start + 1 = s.tokens.size
  opened : At s.tokens start .jsxTagStart
  sided : Sided s.tokens s.cursor.inType start

/-- The element that begins at `start` is read up to its last `>`, the current token. On which side
of the types it is says `b`. -/
structure Ended (b : Bool) (start : Nat) (t : State) : Prop where
  kind : t.cursor.kind = .jsxTagEnd
  element : Spans t.taken .element start (t.tokens.size + 1)
  sided : Sided t.tokens b start

/-- What the parsers of all rules keep to. -/
structure Knot.Sure (ctx : Context) (k : Knot) : Prop where
  keeping : k.Keeping ctx
  statement : ∀ s h, Goes ctx s h k.statement fun kind t =>
    s.tokens.size < t.tokens.size ∧ (kind = .exportDefault → Defaulted s t)
  assignment : ∀ noIn, Grows ctx (k.assignment noIn)
  operators : ∀ min noIn, Steady ctx (k.operators min noIn)
  unary : Grows ctx k.unary
  atom : Grows ctx k.atom
  type : ctx.source.dialect.typed = true → Steady ctx k.type
  plainType : ctx.source.dialect.typed = true → Steady ctx k.plainType
  typeOperator : ctx.source.dialect.typed = true → Steady ctx k.typeOperator
  bindingAtom : ∀ binding, Steady ctx (k.bindingAtom binding)
  element : ∀ start s h, (h → Begun start s) →
    Moves ctx s h (k.element start) fun _ t => Ended s.cursor.inType start t

namespace Knot.Sure

variable (hk : k.Sure ctx)
include hk

theorem statement_grows : Grows ctx k.statement :=
  fun s h => (hk.statement s h).mono id fun _ _ _ _ hq => hq.1

theorem value_grows (noIn : Bool) : Grows ctx (k.value noIn) := (hk.assignment noIn).discard

theorem value (noIn : Bool) : Steady ctx (k.value noIn) := (hk.value_grows noIn).steady

theorem expression_grows (noIn : Bool) : Grows ctx (k.expression noIn) :=
  separatedBy_grows (by decide) (hk.value_grows noIn)

theorem expression (noIn : Bool) : Steady ctx (k.expression noIn) :=
  (hk.expression_grows noIn).steady

end Knot.Sure

/-! ## Templates -/

/-- A token, the template piece after it, and the token of the kind `e` that ends the piece. -/
structure Pieced (e : Kind) (s t : State) : Prop where
  first : At t.tokens s.tokens.size s.cursor.kind
  piece : At t.tokens (s.tokens.size + 1) .template
  last : At t.tokens (s.tokens.size + 2) e
  size : t.tokens.size = s.tokens.size + 3
  outside : t.Outside

theorem pieced_took (hpiece : (s.took ctx .template).cursor.kind = .template)
    (hend : ((s.took ctx .template).took ctx .code).cursor.kind = .backQuote ∨
      ((s.took ctx .template).took ctx .code).cursor.kind = .dollarBraceL)
    (hclean : (((s.took ctx .template).took ctx .code).took ctx .code).Clean) :
    Pieced ((s.took ctx .template).took ctx .code).cursor.kind s
      (((s.took ctx .template).took ctx .code).took ctx .code) := by
  have hfirst := at_took ctx s .template
  have hsecond := at_took ctx (s.took ctx .template) .code
  have hlast := at_took ctx ((s.took ctx .template).took ctx .code) .code
  simp only [took_tokens_size] at hsecond hlast
  rw [hpiece] at hsecond
  have hpass : ((s.took ctx .template).took ctx .code).Passable .code := by
    rcases hend with hend | hend
    · exact .of_kind hend (by decide)
    · exact .of_kind hend (by decide)
  exact ⟨(hfirst.mono (.push _ _)).mono (.push _ _), hsecond.mono (.push _ _), hlast,
    by simp only [took_tokens_size], hpass.outside hclean⟩

/-- A template piece is taken together with the tokens around it. -/
theorem piece_moves {β : Type} {g : Kind → Parser β} {R : β → State → Prop}
    (hpass : h → s.Passable .code)
    (hends : ∀ e, e = .backQuote ∨ e = .dollarBraceL → ∃ f, g e = (next >>= f) ∧
      ∀ t, Moves ctx t (h ∧ Pieced e s t) (f ()) R)
    (hother : ∀ e, ¬ (e = .backQuote ∨ e = .dollarBraceL) → ∀ t, Stops ctx t (g e)) :
    Moves ctx s h (advance .template >>= fun _ => next >>= fun _ => kind >>= g) R := by
  intro b u hrun hclean
  change g ((s.took ctx .template).took ctx .code).cursor.kind ctx
    ((s.took ctx .template).took ctx .code) = .ok (b, u) at hrun
  by_cases hend : ((s.took ctx .template).took ctx .code).cursor.kind = .backQuote ∨
      ((s.took ctx .template).took ctx .code).cursor.kind = .dollarBraceL
  · obtain ⟨f, hf, hgoes⟩ := hends _ hend
    rw [hf] at hrun
    obtain ⟨hclean', hgo⟩ := hgoes (((s.took ctx .template).took ctx .code).took ctx .code) b u
      hrun hclean
    have hclean₁ := Cursor.error_of_advance (Cursor.error_of_advance hclean')
    refine ⟨Cursor.error_of_advance hclean₁, fun hsound hh => ?_⟩
    have hrun₁ := Run.piece (hpass hh).live (hpass hh).unnamed hend hclean'
    have hpiece := (Cursor.advance_template hclean₁).1
    obtain ⟨hrun₂, hr⟩ := hgo (hrun₁.sound hsound) ⟨hh, pieced_took hpiece hend hclean'⟩
    exact ⟨hrun₁.trans hrun₂, hr⟩
  · exact absurd hclean (hother _ hend _ b u hrun)

/-- The current token of the state `s` was taken, and code after it. -/
def Heads (s t : State) : Prop :=
  At t.tokens s.tokens.size s.cursor.kind ∧
    Spans t.tokens .code (s.tokens.size + 1) t.tokens.size

theorem heads_of_adds {mode : Mode} (hadds : Adds .code (s.took ctx mode) t)
    (hrun : Run ctx (s.took ctx mode) t) : Heads s t := by
  rw [Adds, took_tokens_size] at hadds
  exact ⟨(at_took _ _ mode).mono hrun.extends, hadds⟩

theorem Pieced.heads (ht : Pieced .backQuote s t) : Heads s t := by
  refine ⟨ht.first, .plain ht.piece (by decide) (.plain ht.last (by decide) ?_)⟩
  rw [ht.size]
  exact .nil _

theorem Pieced.heads_of_inner {t₁ u : State} (ht : Pieced .dollarBraceL s t)
    (hinner : Adds .code t t₁) (hext : Token.Extends t.tokens t₁.tokens)
    (hext₁ : Token.Extends t₁.tokens u.tokens) (hbrace : t₁.cursor.kind = .braceR)
    (hrest : Heads t₁ u) : Heads s u := by
  have hext' := hext.trans hext₁
  obtain ⟨hclose, hcode⟩ := hrest
  rw [hbrace] at hclose
  rw [Adds, ht.size] at hinner
  exact ⟨ht.first.mono hext', .plain (ht.piece.mono hext') (by decide)
    (.group .dollarBrace (ht.last.mono hext') (hinner.mono hext₁) hclose hcode)⟩

theorem templateRounds_moves (hinner : Steady ctx inner) (n : Nat) (hpass : h → s.Passable .code) :
    Moves ctx s h (advance .template >>= fun _ => repeatUpTo (templateRound inner) n)
      fun _ t => Heads s t ∧ t.Outside := by
  -- a round begins on a piece, where no other parser stands, so the rounds are taken together with
  -- the move that reads the piece
  induction n generalizing s h with
  | zero => rintro _ _ ⟨⟩
  | succ n ih =>
    unfold repeatUpTo templateRound
    simp only [bind_assoc]
    refine piece_moves hpass ?_ ?_
    · rintro e (rfl | rfl)
      · exact ⟨_, bind_assoc .., fun t => .pure fun _ hh => ⟨hh.2.heads, hh.2.outside⟩⟩
      · refine ⟨_, bind_assoc .., fun t => ?_⟩
        rw [bind_assoc]
        refine Moves.bind (Moves.pre (hinner t (h ∧ Pieced .dollarBraceL s t))
          fun hh => ⟨hh, hh.2.outside⟩) fun _ t₁ => ?_
        rw [bind_assoc]
        refine .look rfl ?_
        split
        · rename_i hbrace
          have hkind : t₁.cursor.kind = .braceR := beq_iff_eq.mp hbrace
          refine (ih fun _ => .of_kind hkind (by decide)).mono id ?_
          rintro _ u ⟨⟨-, hpiece⟩, hrun, honward, -⟩ hrun₁ ⟨hheads, houtside⟩
          exact ⟨hpiece.heads_of_inner honward.adds hrun.extends hrun₁.extends hkind hheads,
            houtside⟩
        · exact .expecting fun _ => .pure fun _ => False.elim
    · intro e he t
      split
      · exact absurd (.inl rfl) he
      · exact absurd (.inr rfl) he
      · rw [bind_assoc]
        exact expecting_stops.bind fun _ _ => Moves.pure fun _ => False.elim

theorem template_takes (hinner : Steady ctx inner) :
    Takes ctx (template inner) := by
  intro s h hplain
  refine (templateRounds_moves hinner ctx.budget fun hh => hh.2.passable (hplain hh.1).ne_eof).mono
    id ?_
  rintro _ t hh hrun ⟨⟨hfirst, hcode⟩, houtside⟩
  exact ⟨⟨hrun, .plain hfirst (hplain hh.1) hcode, houtside⟩, hfirst.lt_size⟩

/-! ## Parts -/

section Parts

variable (hk : k.Sure ctx)
include hk

theorem callArguments_grows : Grows ctx (callArguments k) :=
  Encloses.grows .paren (commaList_encloses (by decide)
    ((skip_steady (by decide)).bind fun _ => hk.value _))

theorem callArguments_steady : Steady ctx (callArguments k) := (callArguments_grows hk).steady

theorem propertyName_grows : Grows ctx (propertyName k) := by
  intro s h
  unfold propertyName
  refine .kind ?_
  split
  · rename_i hkind
    exact (next_takes.bind fun _ => (hk.value _).bind fun _ =>
      expect_steady (by decide)).of_kind hkind
      (by decide)
  iterate 4
    · rename_i hkind
      exact next_takes.of_kind hkind (by decide)
  · exact identifierName_grows s h

theorem propertyName_steady : Steady ctx (propertyName k) := (propertyName_grows hk).steady

theorem decorator_goes (hplain : h → s.cursor.kind.Plain) :
    Goes ctx s h (decorator k) fun _ t => At t.tokens s.tokens.size s.cursor.kind := by
  refine .nextMarking hplain (.seeing ?_)
  extract_lets rest
  have hrest : ∀ r, Steady ctx (rest r) := fun _ =>
    .ifSeeingAt (callArguments_grows hk).takesAt (.pure _)
  split
  · rename_i hparen
    have hgroup : Encloses ctx .parenR
        (k.expression >>= fun _ => expect .parenR >>= fun r => rest r) :=
      (hk.expression _).inside fun _ => (expect_encloses (by decide)).bind hrest
    exact .of_takesAt (hgroup.takesAt .paren) fun _ => beq_iff_eq.mp hparen
  · exact (identifier_steady.bind fun _ => dottedNames_steady.bind hrest) _ _

/-- Decorators begin with their mark. Where there is none, nothing happens. -/
theorem decorators_goes : Goes ctx s h (decorators k) fun _ t =>
    (s.cursor.kind = .atSign → At t.tokens s.tokens.size .atSign) ∧
      (s.cursor.kind ≠ .atSign → t = s) := by
  have hround : Steady ctx (seeing .atSign >>= fun b =>
      if b = true then decorator k >>= fun _ => pure true else pure false) := by
    refine .ifSeeing (by decide) (fun s h hplain => ?_) (.pure _)
    exact (decorator_goes hk hplain).bind fun _ _ => .pure fun _ hh => hh.2.2.lt_size
  refine .read ?_
  cases ctx.budget with
  | zero => exact .throw _
  | succ n =>
    unfold repeatUpTo
    rw [bind_assoc]
    refine .seeing ?_
    split
    · rename_i hat
      have hkind : s.cursor.kind = .atSign := beq_iff_eq.mp hat
      rw [bind_assoc]
      refine (decorator_goes hk fun _ => plain_of_kind hkind (by decide)).bind fun _ t => ?_
      refine (repeatUpTo_steady hround n t _).mono id fun _ u hh hrun _ => ⟨fun _ => ?_, ?_⟩
      · rw [← hkind]
        exact hh.2.2.mono hrun.extends
      · exact fun hno => absurd hkind hno
    · rename_i hat
      exact .pure fun _ _ => ⟨fun hkind => absurd (beq_iff_eq.mpr hkind) hat, fun _ => rfl⟩

theorem decorators_steady : Steady ctx (decorators k) := fun _ _ => (decorators_goes hk).weaken

theorem initializer_steady (noIn : Bool) : Steady ctx (initializer k noIn) := by
  intro s h
  unfold initializer
  refine .seeing ?_
  split
  · rename_i heq
    exact .of_takes (nextWithRhs_takes (hk.value _)) fun _ => plain_of_seeing heq (by decide)
  · exact .done

theorem defaultValue_steady : Steady ctx (defaultValue k) := fun s h =>
  .eat (by decide) (fun _ => hk.value _ _ _) fun _ => .done

end Parts

/-! ## Annotations -/

section Annotations

variable (hk : k.Sure ctx) (htyped : ctx.source.dialect.typed = true)
include hk htyped

theorem typeAnnotation_takes : Takes ctx ( typeAnnotation k) :=
  typeContext_takes htyped (next_takes.bind fun _ => hk.type htyped)

theorem typeOrPredicate_steady : Steady ctx (typeOrPredicate k) := by
  intro s h
  unfold typeOrPredicate
  refine .lookahead fun ahead hkind hword => .seeingWord ?_
  split
  · rename_i hcond
    refine .next (fun _ => by grind [plain_of_isWord]) (.next (fun _ => ?_) ?_)
    · rw [took_cursor]
      grind
    · exact .eatWord (fun _ => hk.type htyped _ _) fun _ => .done
  · refine .seeingAny ?_
    split
    · rename_i hcond
      refine .next (fun _ => by grind) (.next (fun _ => ?_) ?_)
      · rw [took_cursor]
        grind [Lookahead.isWord]
      · exact hk.type htyped _ _
    · exact hk.type htyped s h

theorem returnAnnotation_takes : Takes ctx ( returnAnnotation k) :=
  typeContext_takes htyped (next_takes.bind fun _ => typeOrPredicate_steady hk htyped)

theorem typeParameters_takes : Takes ctx (typeParameters k) := by
  refine typeContext_takes htyped (next_takes.bind fun _ => commaList_steady (by decide) ?_)
  refine Steady.bind (whileTrue_steady (fun s => s.cursor.kind.Plain) ?_ fun s => next_goes id) ?_
  · intro s h
    refine .seeingAny (.seeingWord (.beforeAny (.pure fun _ _ hmodifier => ?_)))
    grind [plain_of_seeingAny, plain_of_isWord]
  intro _ s h
  refine .flow (.seeing (.optional (fun hplus => ?_) ?_))
  · exact next_goes fun _ => by grind
  refine identifier_steady.bind fun _ s h => .flow (.seeing (.optional₂ (fun hcolon => ?_) ?_))
  · exact .of_takes (next_takes.bind fun _ => hk.type htyped) fun _ => by grind
  refine (eat_steady (by decide)).bind fun b s h => .optional (fun _ => hk.type htyped s h) ?_
  refine (eat_steady (by decide)).bind fun b => ?_
  split
  · exact hk.type htyped
  · exact .pure _

theorem typeArguments_takes : Takes ctx (typeArguments k) :=
  typeContext_takes htyped
    (next_takes.bind fun _ => commaList_steady (by decide) (hk.type htyped))

omit hk htyped in
theorem splitShift_goes (hplain : h → s.cursor.kind.Plain) :
    Goes ctx s h splitShift fun _ t => t.cursor.kind.Plain := by
  refine .seeing ?_
  split
  · rename_i hshift
    refine reread_goes (fun hh => (hplain hh).ne_eof) ?_ ?_
    · intro c hc hclean
      obtain ⟨stop, -, rfl⟩ := Option.map_eq_some_iff.mp hc
      exact hclean
    · intro c hc hclean hsound hh
      obtain ⟨stop, hstop, rfl⟩ := Option.map_eq_some_iff.mp hc
      obtain rfl := Cursor.afterByte?_eq hstop
      have hkind : s.cursor.kind = .shiftL := beq_iff_eq.mp hshift
      have hline : ¬ s.cursor.kind.Spacious := by rw [hkind]; decide
      have hsolid := solid_of_kind hkind (by decide)
      have hfirst : s.cursor.Lexed → '\n' ∉ s.cursor.start.rest.take 1 := fun hlexed =>
        Cursor.not_mem_take_one_of_lexed hlexed hline (hsound.standing.wide hsolid)
      exact ⟨⟨rfl, rfl, rfl, rfl, hclean,
        ⟨(by decide : Kind.lessThan.Solid), rfl, nofun, nofun, nofun, nofun, nofun, nofun, nofun⟩,
        ⟨1, rfl⟩,
        Cursor.offset_lt_skip (hsound.rest_ne_nil (hplain hh).ne_eof) (by decide),
        fun hlexed => ⟨1, rfl, .of_line (by decide : Kind.lessThan.Loose) (hfirst hlexed)⟩⟩,
        (by decide : Kind.lessThan.Plain)⟩
  · exact .pure fun _ => hplain

theorem tryTypeArguments_goes {callOnly : Bool}
    (hplain : h → s.cursor.kind.Plain) :
    Goes ctx s h (tryTypeArguments k callOnly) fun _ _ => True := by
  have := hk.keeping
  refine Goes.weaken (attempt_goes (Q := fun _ _ => True) ?_)
  refine (splitShift_goes hplain).bind fun _ t => ?_
  exact .of_takes ((typeArguments_takes hk htyped).bind fun _ s h =>
    .failed (.seeingAny .done)) fun hh => hh.2.2

end Annotations

section Patterns

variable (hk : k.Sure ctx)
include hk

theorem optionalAnnotation_steady : Steady ctx ( optionalAnnotation k) := by
  intro s h
  refine .typed (.seeing ?_)
  split
  · exact .of_takes (typeAnnotation_takes hk (by grind)) fun _ => by grind
  · exact .done

theorem optionalReturnAnnotation_steady : Steady ctx ( optionalReturnAnnotation k) := by
  intro s h
  refine .typed (.seeing ?_)
  split
  · exact .of_takes (returnAnnotation_takes hk (by grind)) fun _ => by grind
  · exact .done

theorem bindingElement_steady (binding : Binding) : Steady ctx (bindingElement k binding) := by
  refine (skip_steady (by decide)).bind fun _ => (hk.bindingAtom binding).bind fun _ s h =>
    .typed ?_
  extract_lets rest
  have hrest : Steady ctx (rest ()) := defaultValue_steady hk
  split
  · rename_i htyped
    refine .seeing (.optional (fun hquestion => ?_) ?_)
    · exact .of_takes (nextAsType_takes htyped) fun _ => plain_of_seeing hquestion (by decide)
    · exact .ifSeeing (by decide) ((typeAnnotation_takes hk htyped).bind fun _ => hrest) hrest
  · exact hrest s h

theorem objectPattern_takes (binding : Binding) :
    TakesAt ctx .braceL (objectPattern k binding) := by
  refine Encloses.takesAt .brace (commaList_encloses (by decide) fun s h => ?_)
  refine .eat (by decide) (fun _ => hk.bindingAtom binding _ _) fun _ => ?_
  refine .seeing (.beforeAny ?_)
  split
  · exact .declarationRole fun _ => identifier_steady.bind (fun _ => defaultValue_steady hk) s h
  · exact ((propertyName_steady hk).bind fun _ => (expect_steady (by decide)).bind fun _ =>
      (hk.bindingAtom binding).bind fun _ => defaultValue_steady hk) s h

theorem arrayPattern_takes (binding : Binding) : Takes ctx (arrayPattern k binding) := by
  refine next_takes.bind fun _ => untilClose_steady (by decide) fun s h => ?_
  refine .eat (by decide) (fun _ => .done) fun _ => ?_
  exact ((bindingElement_steady hk binding).bind fun _ =>
    .unlessSeeing (expect_steady (by decide)) (.pure _)) s h

theorem bindingAtom_steady (binding : Binding) : Steady ctx (bindingAtom k binding) := by
  intro s h
  refine .kind ?_
  split
  · exact .declarationRole fun _ => identifier_steady s h
  · rename_i hkind
    exact ((arrayPattern_takes hk binding).of_kind hkind (by decide)).weaken
  · rename_i hkind
    exact .of_takesAt (objectPattern_takes hk binding) fun _ => hkind
  · exact expecting_goes

theorem thisParameter_goes {start : Nat} (htyped : ctx.source.dialect.typed = true)
    (hplain : s.cursor.kind.Plain) (hcolon : (s.took ctx .code).cursor.kind.Plain) :
    Goes ctx s (s.Anchored start) (thisParameter k start) fun _ _ => True := by
  refine .next (fun _ => hplain) (Goes.pre ?_ fun hh => hh.2.anchored hh.1)
  refine .keep (.of_takes (typeAnnotation_takes hk htyped) fun _ => hcolon) fun _ t => .seeing ?_
  exact .keepOptional (fun _ => expect_steady (by decide) _ _) fun _ =>
    markTypeFrom_goes (fun _ => htyped) id

theorem functionParameters_grows : Grows ctx (functionParameters k) := by
  refine Encloses.grows .paren (untilClose_encloses (by decide) fun s h => ?_)
  refine .position ((Goes.keep (decorators_steady hk s _) fun _ t => ?_).pre And.right)
  refine .typescript (.seeing (.beforeAny ?_))
  split
  · rename_i hthis
    refine thisParameter_goes hk (by grind [Dialect.typed]) (by grind) ?_
    rw [took_cursor]
    grind
  · refine .typescript (.optional (fun hts => ?_) ?_)
    · refine whileTrue_steady (fun s => s.cursor.kind.Plain) (fun s h => ?_)
        (fun s => .of_takes (nextAsType_takes (by grind [Dialect.typed])) id) t _
      exact .seeingAnyWord (.beforeAny (.pure fun _ _ hword => by grind [plain_of_anyWord]))
    · exact (bindingElement_steady hk .functionScoped).bind fun _ =>
        .unlessSeeing (expect_steady (by decide)) (.pure _)

theorem functionParameters_steady : Steady ctx (functionParameters k) :=
  (functionParameters_grows hk).steady

end Patterns

end Downlevel.Grammar
