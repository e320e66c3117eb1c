import Downlevel.Proofs.Grammar.Part

/-!
# Functions, expressions and classes go on without error

A function or a member without a body belongs to a type from its first token on, so its first token
has to be one where a type may begin: not the end of a template piece.
-/

namespace Downlevel.Grammar

open State

variable {ctx : Context} {k : Knot} {s : State} {h : Prop} (hk : k.Sure ctx) {optionalName : Bool}
  {start : Nat}
include hk

/-! ## Functions -/

theorem block_grows {isFunction : Bool} : Grows ctx (block k isFunction) :=
  inScope_grows (Encloses.grows .brace (untilClose_encloses (by decide)
    hk.statement_grows.steady.discard))

theorem block_steady {isFunction : Bool} : Steady ctx (block k isFunction) :=
  (block_grows hk).steady

theorem method_goes {bodyless : Bool} :
    Goes ctx s (s.Anchored start) (method k start bodyless) fun _ _ => True := by
  refine (inScope_goes (Q := fun _ _ => True) ?_).weaken
  refine Goes.pre ?_ (·.deeper)
  refine .typed (.seeing (.keepOptional (fun hless => ?_) fun t => ?_))
  · exact .of_takes (typeParameters_takes hk (by grind)) fun _ => by grind
  refine .keep (functionParameters_steady hk _ _) fun _ t =>
    .keep (optionalReturnAnnotation_steady hk _ _) fun _ t => .seeing ?_
  split
  · exact block_steady hk _ _
  refine .typescript (.canEnd fun b => ?_)
  split
  · exact .keep (skip_steady (by decide) _ _) fun _ t =>
      markTypeFrom_goes (fun _ => by grind [Dialect.typed]) id
  · exact expecting_goes

theorem functionStatement_goes (hplain : h → s.cursor.kind.Plain) (hstart : h → s.Anchored start) :
    Goes ctx s h (functionStatement k start optionalName)
      fun _ t => s.tokens.size < t.tokens.size := by
  refine (next_takes s h hplain).taking fun _ t =>
    Goes.pre ?_ fun hh => hh.2.anchored (hstart hh.1)
  refine .keep (skip_steady (by decide) _ _) fun _ t => .seeing ?_
  split
  · exact .declarationRole fun role => .keep (identifier_steady _ _) fun _ t => method_goes hk
  split
  · exact method_goes hk
  · exact expecting_goes

theorem functionExpression_goes (hplain : h → s.cursor.kind.Plain) (hstart : h → s.Anchored start) :
    Goes ctx s h (functionExpression k start) fun _ t => s.tokens.size < t.tokens.size := by
  refine (next_takes s h hplain).taking fun _ t =>
    Goes.pre ?_ fun hh => hh.2.anchored (hstart hh.1)
  refine .keep (skip_steady (by decide) _ _) fun _ t => .seeing ?_
  split
  · refine (inScope_goes (Q := fun _ _ => True) ?_).weaken
    refine Goes.pre ?_ (·.deeper)
    exact .keep (identifier_steady _ _) fun _ t => method_goes hk
  · exact method_goes hk

/-! ## Arrow functions -/

theorem arrowBody_takes : Takes ctx (arrowBody k) :=
  next_takes.bind fun _ => .ifSeeingAt (block_grows hk).takesAt (hk.value _)

theorem nameArrow_grows : Grows ctx (nameArrow k) := by
  refine inScope_grows (identifier_grows.bind fun _ s h => .seeing ?_)
  split
  · exact .expecting fun t => .of_takes ((arrowBody_takes hk).bind fun _ => .pure _) False.elim
  · exact .of_takes ((arrowBody_takes hk).bind fun _ => .pure _) fun _ => by grind

theorem tryArrow_goes : Goes ctx s h (tryArrow k) (Tried s) := by
  have := hk.keeping
  refine attempt_tried (inScope_grows ((functionParameters_grows hk).bind fun _ =>
    (optionalReturnAnnotation_steady hk).bind fun _ s h =>
      .failed (.seeing (.lineBreakBefore fun _ => ?_))) s h)
  split
  · exact .done
  · exact .of_takes ((arrowBody_takes hk).bind fun _ => .pure _) fun _ => by grind

theorem tryArrow_steady : Steady ctx (tryArrow k) := fun _ _ => (tryArrow_goes hk).weaken

theorem tryGenericArrow_goes (htyped : ctx.source.dialect.typed = true)
    (hplain : h → s.cursor.kind.Plain) : Goes ctx s h (tryGenericArrow k) (Tried s) := by
  have := hk.keeping
  refine attempt_tried (((typeParameters_takes hk htyped).bind fun _ s h =>
    .failed (.seeing ?_)) s h hplain)
  split
  · exact tryArrow_steady hk _ _
  · exact .done

/-! ## Object and array literals -/

omit hk in
theorem memberModifier_steady : Steady ctx memberModifier := by
  intro s h
  refine .eat (by decide) (fun _ => .done) fun _ => .seeingAnyWord ?_
  split
  · refine .lookahead fun _ _ _ => .seeingWord ?_
    split
    · exact .of_takes (next_takes.bind fun _ => (skip_steady (by decide)).bind fun _ => .pure _)
        fun _ => by grind [plain_of_anyWord]
    · exact .done
  · exact .done

theorem objectMember_steady (close : Kind) : Steady ctx (objectMember k close) := by
  intro s h
  refine .position ((Goes.keep (memberModifier_steady _ _) fun modified t => ?_).pre And.right)
  refine .seeing (.beforeAny ?_)
  split
  · exact identifier_steady.bind (fun _ => defaultValue_steady hk) _ _
  refine .seeing ?_
  extract_lets rest
  have hrest : ∀ r t, Goes ctx t (t.Anchored s.tokens.size) (rest r) fun _ _ => True := by
    intro r t
    refine .seeingAny ?_
    split
    · exact method_goes hk
    · exact (expect_steady (by decide)).bind (fun _ => hk.value _) _ _
  split
  · exact .keep (identifier_steady _ _) hrest
  · exact .keep (propertyName_steady hk _ _) hrest

theorem objectLiteral_goes (hopen : s.cursor.kind = .braceL ∨ s.cursor.kind = .braceBarL) :
    Goes ctx s h (objectLiteral k) fun _ t => s.tokens.size < t.tokens.size := by
  refine .seeing ?_
  have hpair := Kind.pair_of_brace hopen
  generalize (if (s.cursor.kind == .braceBarL) = true then Kind.braceBarR else .braceR) = close
    at hpair ⊢
  refine (Encloses.takesAt hpair ?_).of_kind rfl
  refine commaList_encloses hpair.live.2 fun s h => ?_
  exact .eat (by decide) (fun _ => hk.value _ _ _) fun _ => objectMember_steady hk close s h

theorem arrayLiteral_takes : Takes ctx (arrayLiteral k) := by
  refine next_takes.bind fun _ => untilClose_steady (by decide) fun s h => ?_
  refine .eat (by decide) (fun _ => .done) fun _ => ?_
  exact ((skip_steady (by decide)).bind fun _ => (hk.value _).bind fun _ =>
    .unlessSeeing (expect_steady (by decide)) (.pure _)) s h

/-! ## Members and calls -/

omit hk in
theorem memberName_steady : Steady ctx memberName :=
  .ifSeeing (by decide) next_takes identifierName_steady

theorem computedMember_takes : Takes ctx (computedMember k) :=
  next_takes.bind fun _ => (hk.expression _).bind fun _ => expect_steady (by decide)

theorem optionalMember_takes : Takes ctx (optionalMember k) := by
  refine next_takes.bind fun _ s h => .kind ?_
  split
  · exact (callArguments_steady hk).bind (fun _ => .pure _) s h
  · rename_i hkind
    exact (((computedMember_takes hk).bind fun _ => .pure _).of_kind hkind (by decide)).weaken
  · rename_i hkind
    refine .typescript ?_
    split
    · refine (tryTypeArguments_goes hk (by grind [Dialect.typed])
        fun _ => plain_of_kind hkind (by decide)).bind fun b t => ?_
      split
      · exact .done
      · exact (unexpected_goes (Q := fun _ _ => True)).bind fun _ _ => .done
    · exact memberName_steady.bind (fun _ => .pure _) s h
  · exact memberName_steady.bind (fun _ => .pure _) s h

theorem subscripts_steady (noCalls : Bool) : Steady ctx (subscripts k noCalls) := by
  refine repeatWhile_steady fun s h => .kind ?_
  split
  · rename_i hkind
    exact ((next_takes.bind fun _ => memberName_steady.bind fun _ => .pure _).of_kind
      hkind (by decide)).weaken
  · rename_i hkind
    exact ((optionalMember_takes hk).of_kind hkind (by decide)).weaken
  · rename_i hkind
    exact (((computedMember_takes hk).bind fun _ => .pure _).of_kind hkind (by decide)).weaken
  · split
    · exact .done
    · exact (callArguments_steady hk).bind (fun _ => .pure _) s h
  · rename_i hkind
    exact (((template_takes (hk.expression _)).bind fun _ => .pure _).of_kind hkind
      (by decide)).weaken
  · rename_i hkind
    refine .typescript (.lineBreakBefore fun _ => ?_)
    split
    · exact (((nextAsType_takes (by grind [Dialect.typed])).bind fun _ => .pure _).of_kind
        hkind (by decide)).weaken
    · exact .done
  iterate 2
    · rename_i hkind
      refine .typescript ?_
      split
      · exact tryTypeArguments_goes hk (by grind [Dialect.typed])
          fun _ => plain_of_kind hkind (by decide)
      · exact .done
  · exact .done

theorem newExpression_takes : Takes ctx (newExpression k) := by
  refine next_takes.bind fun _ s h => ?_
  refine .eat (by decide) (fun _ => identifierName_steady _ _) fun _ => ?_
  refine (hk.atom.steady.discard.bind fun _ => (subscripts_steady hk true).bind fun _ s h => ?_) s h
  refine .typescript (.seeingAny (.optional (fun hless => ?_) ?_))
  · exact discard_goes (tryTypeArguments_goes hk (by grind [Dialect.typed]) fun _ => by grind)
  · exact .ifSeeingAt (callArguments_grows hk).takesAt (.pure _)

/-! ## Operators -/

omit hk in
theorem plain_of_precedence {kind : Kind} {n : Int} (h : kind.precedence? = some n) :
    kind.Plain := by
  cases kind <;> first | decide | cases h

omit hk in
theorem plain_of_isAssignment {kind : Kind} (h : kind.isAssignment = true) : kind.Plain := by
  cases kind <;> first | decide | cases h

theorem operators_steady (min : Int) (noIn : Bool) : Steady ctx (operators k min noIn) := by
  refine repeatWhile_steady fun s h =>
    .typescript (.seeingAnyWord (.lineBreakBefore fun _ => ?_))
  split
  · refine .of_takes ((typeContext_takes (by grind [Dialect.typed]) (next_takes.bind fun _ s h =>
      ?_)).bind fun _ => .pure _) fun _ => by grind [plain_of_anyWord]
    exact .eat (by decide) (fun _ => .done) fun _ => hk.type (by grind [Dialect.typed]) s h
  refine .kind ?_
  split
  · exact .done
  rename_i precedence hprecedence
  split
  · exact .done
  refine .of_takes (next_takes.bind fun _ => hk.unary.steady.bind fun b s h => ?_)
    fun _ => plain_of_precedence hprecedence
  exact .optional (fun _ => hk.operators _ _ _ _) (.pure _)

theorem unary_grows : Grows ctx (unary k) := by
  intro s h
  have hoperand : Takes ctx (next >>= fun _ => discard k.unary >>= fun _ => pure false) :=
    next_takes.bind fun _ => hk.unary.steady.discard.bind fun _ => .pure _
  refine .typescript (.dialect (.seeing ?_))
  split
  · exact ((typeArguments_takes hk (by grind [Dialect.typed])).bind fun _ => hk.unary.steady) s h
      fun _ => by grind
  refine .seeingAny ?_
  split
  · rename_i hbegins
    exact hoperand s h fun _ => plain_of_seeingAny hbegins (by decide)
  refine .seeingWord (.nextKind ?_)
  split
  · exact hoperand s h fun _ => by grind [plain_of_isWord]
  refine hk.atom.bind (fun b => ?_) s h
  split
  · exact .pure _
  · exact (subscripts_steady hk false).bind fun _ s h =>
      .seeing (.lineBreakBefore fun _ => .optional (fun _ => next_goes fun _ => by grind) (.pure _))

theorem conditional_grows (noIn : Bool) : Grows ctx (conditional k noIn) := by
  refine (unary_grows hk).bind fun b => ?_
  split
  · exact .pure _
  · refine (operators_steady hk _ _).bind fun _ => (eat_steady (by decide)).bind fun b => ?_
    split
    · exact (hk.value _).bind fun _ => (expect_steady (by decide)).bind fun _ =>
        (hk.value _).bind fun _ => .pure _
    · exact .pure _

theorem yieldExpression_takes (noIn : Bool) : Takes ctx (yieldExpression k noIn) := by
  refine next_takes.bind fun _ s h => .lineBreakBefore fun _ => .seeingAny ?_
  split
  · exact (skip_steady (by decide)).bind (fun _ => hk.value _) s h
  · exact .done

theorem assignment_grows (noIn : Bool) : Grows ctx (assignment k noIn) := by
  intro s h
  refine .seeing ?_
  split
  · rename_i hyield
    exact ((yieldExpression_takes hk noIn).bind fun _ => .pure _) s h
      fun _ => plain_of_seeing hyield (by decide)
  refine .typescript (.seeing ?_)
  extract_lets _ rest
  have hrest : ∀ r, Grows ctx (rest r) := by
    intro r
    refine (conditional_grows hk noIn).bind fun b => ?_
    split
    · exact .pure _
    intro s h
    refine .kind ?_
    split
    · rename_i hassign
      exact .of_takes ((nextWithRhs_takes (hk.value _)).bind fun _ => .pure _)
        fun _ => plain_of_isAssignment hassign
    · exact .done
  split
  · refine (tryGenericArrow_goes hk (by grind [Dialect.typed]) fun _ => by grind).bind
      fun b t => ?_
    split
    · exact .pure fun _ hh => hh.2.2.grows (by assumption)
    · refine (hrest () t _).mono id fun _ u hh _ hlt => ?_
      rwa [hh.2.2.eq (by assumption)] at hlt
  · exact hrest () s h

/-! ## Classes -/

omit hk in
theorem Goes.isModifier {β : Type} {R : β → State → Prop} {g : Bool → Parser β}
    (hg : ∀ b, Goes ctx s h (g b) R) : Goes ctx s h (Grammar.isModifier >>= g) R := by
  unfold Grammar.isModifier
  rw [bind_assoc]
  exact .nextKind (hg _)

omit hk in
theorem isIndexSignature_ok {t : State} {b : Bool} (hrun : isIndexSignature ctx s = .ok (b, t)) :
    t = s ∧ (b = true → (s.cursor.advance ctx.source .code).kind = .name ∧
      ((s.cursor.advance ctx.source .code).advance ctx.source .code).kind = .colon) := by
  obtain ⟨rfl, u, hahead⟩ := peek_ok (keepsAt_here s) hrun
  obtain ⟨_, _, ⟨⟩, hahead⟩ := bind_ok hahead
  obtain ⟨named, v, hname, hahead⟩ := bind_ok hahead
  rcases eat_ok hname with ⟨rfl, hkind, rfl⟩ | ⟨rfl, -, -⟩
  · cases hahead
    exact ⟨rfl, fun hcolon => ⟨hkind, beq_iff_eq.mp hcolon⟩⟩
  · cases hahead
    exact ⟨rfl, nofun⟩

omit hk in
/-- A member is erased only where types may be written. -/
theorem classModifier_goes :
    Goes ctx s h classModifier fun found _ =>
      found = some true → ctx.source.dialect.typed = true := by
  refine .typescript (.seeingAnyWord ?_)
  split
  · have htyped : ctx.source.dialect.typed = true := by grind [Dialect.typed]
    refine .isModifier fun _ => ?_
    split
    · refine .seeingAnyWord ((nextAsType_takes htyped _ _ fun _ => ?_).bind fun _ t =>
        .pure fun _ _ _ => htyped)
      grind [plain_of_anyWord]
    · exact .pure fun _ _ _ => htyped
  refine .seeingAnyWord ?_
  split
  · refine .isModifier fun _ => ?_
    split
    · refine (next_goes fun _ => ?_).bind fun _ t => .pure fun _ _ hfound => by cases hfound
      grind [plain_of_anyWord]
    · exact .pure fun _ _ hfound => by cases hfound
  · exact .pure fun _ _ hfound => by cases hfound

omit hk in
theorem classModifiers_goes (n : Nat) :
    Goes ctx s h (classModifiers n) fun erased _ =>
      erased = true → ctx.source.dialect.typed = true := by
  induction n generalizing s h with
  | zero => exact .throw _
  | succ n ih =>
    refine classModifier_goes.bind fun found t => ?_
    split
    · exact .pure fun _ _ herased => by cases herased
    · rename_i erases
      refine ih.bind fun erased u => .pure fun _ hh herased => ?_
      grind

/-- The key of an index signature is read in a type, where it is the same token as outside. -/
theorem indexSignature_goes (htyped : ctx.source.dialect.typed = true)
    (hbracket : s.cursor.kind = .bracketL)
    (hkey : (s.cursor.advance ctx.source .code).kind = .name)
    (hcolon : ((s.cursor.advance ctx.source .code).advance ctx.source .code).kind = .colon) :
    Goes ctx s h (indexSignature k) fun _ _ => True := by
  have hread := Cursor.advance_inType hkey (.inl rfl) true
  refine (typeContext_goes (Q := fun _ _ => True) htyped ?_).weaken
  refine .next (fun _ => plain_of_kind hbracket (by decide)) (.next (fun _ => ?_) ?_)
  · rw [took_cursor]
    exact plain_of_kind (s := (s.typing true).took ctx .code)
      ((congrArg (·.kind) hread).trans hkey) (by decide)
  refine .of_takes ((typeAnnotation_takes hk htyped).bind fun _ =>
    (expect_steady (by decide)).bind fun _ => (skip_steady (by decide)).bind fun _ s h =>
    .seeing (.optional (fun hcolon => ?_) fun s h => ?_)) fun _ => ?_
  · exact .of_takes (typeAnnotation_takes hk htyped) fun _ => plain_of_seeing hcolon (by decide)
  · exact .eat (by decide) (fun _ => .done) fun _ => skip_steady (by decide) _ _
  · rw [took_cursor, took_cursor]
    show (({ s.cursor with inType := true }.advance ctx.source .code).advance ctx.source .code).kind
      |>.Plain
    rw [hread, Cursor.advance_inType hcolon (.inr (.inl rfl)) true, hcolon]
    decide

theorem fieldOrMethod_goes :
    Goes ctx s (s.Anchored start) (fieldOrMethod k start) fun _ _ => True := by
  refine .seeingAnyWord (.isModifier fun _ => .seeingWord (.lookahead fun _ _ _ =>
    .keepOptional (fun hword => ?_) fun t => ?_))
  · exact next_goes fun _ => by grind [plain_of_anyWord]
  refine .keep (skip_steady (by decide) _ _) fun _ t =>
    .keep (propertyName_steady hk _ _) fun _ t =>
    .typed (.seeingAny (.keepOptional (fun hmark => ?_) fun t => .seeingAny ?_))
  · exact .of_takes (nextAsType_takes (by grind)) fun _ => by grind
  split
  · exact method_goes hk
  · exact (optionalAnnotation_steady hk).bind (fun _ => (initializer_steady hk _).bind fun _ =>
      semicolon_steady) _ _

theorem classMember_steady : Steady ctx (classMember k) := by
  intro s h
  refine .position ((Goes.keep (decorators_steady hk s _) fun _ t => ?_).pre And.right)
  generalize s.tokens.size = start
  refine .seeingWord (.beforeAny ?_)
  split
  · exact .of_takes (next_takes.bind fun _ => block_steady hk) fun _ => by grind [plain_of_isWord]
  refine .read ((classModifiers_goes ctx.budget).bind fun erased u => ?_)
  refine Goes.pre (k := u.Anchored start ∧ (erased = true → ctx.source.dialect.typed = true)) ?_
    fun hh => ⟨hh.2.1.anchored hh.1, hh.2.2⟩
  refine .typescript (.seeing (Moves.looking (fun _ _ => isIndexSignature_ok) fun found hfound =>
    ?_))
  split
  · have htyped : ctx.source.dialect.typed = true := by grind [Dialect.typed]
    refine Goes.pre (.keep (indexSignature_goes hk htyped ?_ ?_ ?_) fun _ v =>
      markTypeFrom_goes (fun _ => htyped) id) And.left
    all_goals grind
  · refine ((fieldOrMethod_goes hk).pre And.left).bind fun _ v => ?_
    split
    · rename_i herased
      exact markTypeFrom_goes (fun hh => hh.1.2 herased) fun hh => hh.2.1.anchored hh.1.1
    · exact .done

theorem classHeritage_steady : Steady ctx (classHeritage k) := by
  refine (eat_steady (by decide)).bind fun extended => ?_
  extract_lets rest
  have hrest : ∀ r, Steady ctx (rest r) := by
    intro r s h
    refine .seeingWord (.typed ?_)
    split
    · refine .of_takes (typeContext_takes (by grind) (next_takes.bind fun _ =>
        separatedBy_steady (by decide) (hk.type (by grind)))) fun _ => by grind [plain_of_isWord]
    · exact .done
  split
  · refine hk.atom.steady.discard.bind fun _ => (subscripts_steady hk true).bind fun _ s h =>
      .typed (.seeingAny (.optional (fun hless => ?_) (hrest ())))
    exact .of_takes (typeArguments_takes hk (by grind)) fun _ => by grind
  · exact hrest ()

theorem classBody_encloses : Encloses ctx .braceR
    (untilClose .braceR do if !(← eat .semi) then classMember k) :=
  untilClose_encloses (by decide) fun s h =>
    .eat (by decide) (fun _ => .done) fun _ => classMember_steady hk s h

theorem classTail_steady : Steady ctx (classTail k) := by
  intro s h
  refine .typed (.seeing (.optional (fun hless => ?_) ?_))
  · exact .of_takes (typeParameters_takes hk (by grind)) fun _ => by grind
  exact (classHeritage_steady hk).bind fun _ =>
    (Encloses.grows .brace (classBody_encloses hk)).steady

theorem className_steady :
    Steady ctx (do
      if ← seeingClassName then
        identifier (some (← declarationRole .blockScoped false))
        classTail k
      else if optionalName then classTail k
      else expecting "class name") := by
  intro s h
  refine .look rfl ?_
  split
  · exact .declarationRole fun _ => identifier_steady.bind (fun _ => classTail_steady hk) s h
  split
  · exact classTail_steady hk s h
  · exact expecting_goes

theorem classStatement_takes : Takes ctx (classStatement k optionalName) :=
  next_takes.bind fun _ => className_steady hk

omit hk in
theorem classHeritage_eof (heof : s.cursor.kind = .eof) : classHeritage k ctx s = .ok ((), s) := by
  obtain ⟨⟨kind, _⟩, _⟩ := s
  cases heof
  rfl

/-- The body of a class is missed at the end of the input. -/
theorem classTail_stops (heof : s.cursor.kind = .eof) : Stops ctx s (classTail k) := by
  refine .look rfl (.look rfl ?_)
  rw [heof, if_neg (by simp)]
  refine .look (classHeritage_eof heof) ?_
  exact (expect_stops (by rw [heof]; exact Kind.noConfusion)).bind fun _ t =>
    Moves.mono (classBody_encloses hk t False) (fun hno => hno.elim) fun _ _ hno _ _ => hno

/-- Any token may stand for `class`. At the end of the input there is none. -/
theorem classStatement_heads (houtside : h → s.Outside) :
    Moves ctx s h (classStatement k optionalName) fun _ t =>
      Heads s t ∧ t.Outside := by
  by_cases heof : s.cursor.kind = .eof
  · intro a t hrun hclean
    obtain ⟨hclean', -⟩ := classStatement_takes hk s False False.elim a t hrun hclean
    refine ⟨hclean', fun hsound _ => absurd hclean ?_⟩
    obtain ⟨hrest, hstop⟩ := hsound.standing.ended heof
    have hnext : (s.took ctx .code).cursor.kind = .eof :=
      Cursor.advance_eof hclean' (by rw [hstop, hrest])
    obtain ⟨_, _, ⟨⟩, hrun⟩ := bind_ok hrun
    refine Stops.look rfl ?_ a t hrun
    dsimp only [State.took] at hnext
    rw [hnext, if_neg (by simp)]
    split
    · exact classTail_stops hk hnext
    · exact expecting_stops
  · have hpass : h → s.Passable .code := fun hh => (houtside hh).passable heof
    refine Moves.advance hpass (.clean (Moves.mono (className_steady hk _ True)
      (fun hh => ⟨trivial, (hpass hh.1.1).outside hh.2⟩) ?_))
    rintro _ u - hrun ⟨honward, -⟩
    exact ⟨heads_of_adds honward.adds hrun, honward.outside⟩

theorem classExpression_takes : Takes ctx (classExpression k) :=
  next_takes.bind fun _ => inScope_steady fun _ _ =>
    .look rfl (.optional (fun _ => identifier_steady _ _) (classTail_steady hk))

end Downlevel.Grammar
