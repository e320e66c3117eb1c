import Downlevel.Proofs.Grammar.Part

/-!
# Types go on without error

The productions of types, all of them under the assumption that types may be written.
-/

namespace Downlevel.Grammar

open State

variable {ctx : Context} {k : Knot} {s : State} {h : Prop} (hk : k.Sure ctx)
  (htyped : ctx.source.dialect.typed = true)
include hk htyped

/-! ## Members -/

theorem typeReference_steady : Steady ctx (typeReference k) := by
  refine identifierName_steady.bind fun _ => dottedNames_steady.bind fun _ s h =>
    .seeing (.lineBreakBefore fun _ => ?_)
  split
  · exact .of_takes (typeArguments_takes hk htyped) fun _ => by grind
  · exact .done

theorem importType_takes : Takes ctx (importType k) :=
  next_takes.bind fun _ => Grows.steady <| Encloses.grows .paren <|
    (expect_steady (by decide)).inside fun _ => (expect_encloses (by decide)).bind fun _ =>
    dottedNames_steady.bind fun _ =>
    .ifSeeing (by decide) (typeArguments_takes hk htyped) (.pure _)

theorem tupleType_takes : Takes ctx (tupleType k) :=
  next_takes.bind fun _ => commaList_steady (by decide) <|
    (skip_steady (by decide)).bind fun _ => (hk.type htyped).bind fun _ =>
    (skip_steady (by decide)).bind fun _ _ _ =>
    .eat (by decide) (fun _ => hk.type htyped _ _) fun _ => .done

theorem signature_steady : Steady ctx (signature k) := by
  intro s h
  refine .seeing (.optional (fun hless => ?_) ?_)
  · exact .of_takes (typeParameters_takes hk htyped) fun _ => plain_of_seeing hless (by decide)
  · exact (functionParameters_steady hk).bind fun _ =>
      .ifSeeing (by decide) (next_takes.bind fun _ => typeOrPredicate_steady hk htyped) (.pure _)

theorem memberType_steady : Steady ctx (memberType k) := by
  refine (skip_steady (by decide)).bind fun _ s h => .seeingAny ?_
  split
  · exact signature_steady hk htyped s h
  · exact .eat (by decide) (fun _ => hk.type htyped _ _) fun _ => .done

/-- The key of a member: a name with its modifiers, or an index in brackets. -/
theorem typeMember_steady : Steady ctx (typeMember k) := by
  intro s h
  refine .seeingAny ?_
  split
  · exact signature_steady hk htyped s h
  refine .seeing (.beforeAny ?_)
  split
  · exact .of_takes (next_takes.bind fun _ => signature_steady hk htyped) fun _ => by grind
  refine .eat (by decide) (fun _ => hk.type htyped _ _) fun _ => ?_
  refine .seeingWord (.beforeAny (.optional (fun hword => ?_) ?_))
  · exact next_goes fun _ => by grind [plain_of_isWord]
  intro s h
  refine .flow (.seeing (.optional (fun hplus => ?_) ?_))
  · exact next_goes fun _ => by grind
  intro s h
  have hmember : ∀ r : Unit, Steady ctx ((fun _ => memberType k) r) :=
    fun _ => memberType_steady hk htyped
  refine .eat (by decide) (fun _ => ?_) fun _ => ?_
  · refine .seeing (.beforeAny ?_)
    extract_lets rest
    have hrest : ∀ r, Steady ctx (rest r) := fun _ => (hk.type htyped).bind fun _ =>
      (expect_steady (by decide)).bind hmember
    split
    · refine .next (fun _ => by grind) (.next (fun _ => ?_) (hrest () _ _))
      rw [took_cursor]
      grind
    · exact hrest () _ _
  · refine .seeingAnyWord (.beforeAny (.optional (fun hword => ?_) ?_))
    · exact next_goes fun _ => by grind [plain_of_anyWord]
    · exact (propertyName_steady hk).bind hmember

theorem objectType_steady : Steady ctx (objectType k) := by
  intro s h
  refine .seeing (.seeingAny ?_)
  have hpair : [Kind.braceL, .braceBarL].contains s.cursor.kind = true → s.cursor.kind.Pair
      (if (s.cursor.kind == .braceBarL) = true then .braceBarR else .braceR) :=
    fun hopen => Kind.pair_of_brace (by simpa using hopen)
  generalize (if (s.cursor.kind == .braceBarL) = true then Kind.braceBarR else .braceR) = close
    at hpair
  split
  · rename_i hopen
    refine .of_takesAt (Encloses.takesAt (hpair hopen) ?_) fun _ => rfl
    refine untilClose_encloses (hpair hopen).live.2 ?_
    refine (typeMember_steady hk htyped).bind fun _ s h => ?_
    refine .eat (by decide) (fun _ => .done) fun _ => ?_
    refine .eat (by decide) (fun _ => .done) fun _ => .seeing (.lineBreakBefore fun _ => ?_)
    split
    · exact expecting_goes
    · exact .done
  · exact expecting_goes

/-! ## Types without operators -/

theorem tryMappedType_steady : Steady ctx (tryMappedType k) := by
  have hclose : Encloses ctx .braceR (expect .braceR >>= fun _ => pure true) :=
    (expect_encloses (by decide)).bind fun _ => .pure _
  intro s h
  refine .seeing ?_
  split
  · rename_i hbrace
    have := hk.keeping
    refine attempt_opening rfl .brace (beq_iff_eq.mp hbrace) fun h => ?_
    refine .inside (skip_steady (by decide) _ _) fun _ t => ?_
    refine .inside (eatWord_steady.discard _ _) fun _ t => ?_
    refine .inside (eat_steady (by decide) _ _) fun b t => ?_
    split
    · exact .giveUp
    refine .inside (eat_steady (by decide) _ _) fun b t => ?_
    split
    · exact .giveUp
    refine .look rfl ?_
    split
    · exact .giveUp
    refine .inside (next_goes fun _ => by grind) fun _ t => Encloses.mayClose ?_
    refine (hk.type htyped).inside fun _ => eatWord_steady.inside fun b s h =>
      .optional (fun _ => hk.type htyped _ _) ?_
    refine (expect_steady (by decide)).inside fun _ => (skip_steady (by decide)).inside fun _ =>
      (skip_steady (by decide)).inside fun _ => (eat_steady (by decide)).inside fun b s h =>
      .optional (fun _ => hk.type htyped _ _) ?_
    exact (eat_steady (by decide)).inside fun b s h =>
      .optional (fun _ => skip_steady (by decide) _ _) hclose
  · exact .done

theorem primaryType_steady : Steady ctx (primaryType k) := by
  intro s h
  refine .kind ?_
  split
  · exact typeReference_steady hk htyped s h
  iterate 8
    · rename_i hkind
      exact next_goes fun _ => plain_of_kind hkind (by decide)
  · rename_i hkind
    refine .next (fun _ => plain_of_kind hkind (by decide)) ?_
    refine .eat (by decide) (fun _ => .done) fun _ => ?_
    exact .eat (by decide) (fun _ => .done) fun _ => expecting_goes
  · rename_i hkind
    refine .of_takes (next_takes.bind fun _ => ?_) fun _ => plain_of_kind hkind (by decide)
    exact .ifSeeing (by decide) (importType_takes hk htyped) (typeReference_steady hk htyped)
  · rename_i hkind
    exact ((importType_takes hk htyped).of_kind hkind (by decide)).weaken
  iterate 2
    · refine (tryMappedType_steady hk htyped s h).bind fun b t => ?_
      split
      · exact objectType_steady hk htyped t _
      · exact .done
  · rename_i hkind
    exact ((tupleType_takes hk htyped).of_kind hkind (by decide)).weaken
  · rename_i hkind
    exact .of_takesAt (Encloses.takesAt .paren ((hk.type htyped).inside fun _ =>
      expect_encloses (by decide))) fun _ => hkind
  · rename_i hkind
    exact ((template_takes (hk.type htyped)).of_kind hkind (by decide)).weaken
  · rename_i hkind
    refine .flow ?_
    split
    · exact next_goes fun _ => plain_of_kind hkind (by decide)
    · exact expecting_goes
  · exact expecting_goes

/-! ## Operators -/

theorem arrayType_steady : Steady ctx (arrayType k) := by
  refine (primaryType_steady hk htyped).bind fun _ =>
    whileTrue_steady (fun _ => True) (fun s h => .lineBreakBefore fun _ => ?_) fun s => ?_
  · split
    · exact .pure fun _ _ _ => trivial
    · exact (eat_steady (by decide) s h).mono id fun _ _ _ _ _ _ => trivial
  · exact .seeing (.optional (fun _ => hk.type htyped _ _) (expect_steady (by decide)))

theorem typeOperator_steady : Steady ctx (typeOperator k) := by
  intro s h
  refine .seeingAnyWord (.beforeAny ?_)
  split
  · exact .of_takes (next_takes.bind fun _ => hk.typeOperator htyped) fun _ => by
      grind [plain_of_anyWord]
  refine .seeingWord (.beforeAny ?_)
  split
  · refine .next (fun _ => by grind [plain_of_isWord]) (.next (fun _ => ?_) ?_)
    · rw [took_cursor]
      grind
    · refine .seeing ?_
      split
      · rename_i hextends
        have := hk.keeping
        refine discard_goes (Goes.weaken (attempt_goes (Q := fun _ _ => True) ?_))
        exact .of_takes (next_takes.bind fun _ => (hk.plainType htyped).bind fun _ s h =>
          .failed (.seeing .done)) fun _ => plain_of_seeing hextends (by decide)
      · exact .done
  refine .flow (.seeing ?_)
  split
  · exact .of_takes (next_takes.bind fun _ => hk.typeOperator htyped) fun _ => by grind
  · exact arrayType_steady hk htyped s h

theorem unionType_steady : Steady ctx (unionType k) :=
  (skip_steady (by decide)).bind fun _ => separatedBy_steady (by decide) <|
    (skip_steady (by decide)).bind fun _ => separatedBy_steady (by decide) <|
    typeOperator_steady hk htyped

theorem functionType_steady : Steady ctx (functionType k) :=
  (functionParameters_steady hk).bind fun _ => (expect_steady (by decide)).bind fun _ =>
    typeOrPredicate_steady hk htyped

theorem tryFunctionType_steady : Steady ctx (tryFunctionType k) := by
  have := hk.keeping
  refine attempt_steady ((functionParameters_steady hk).bind fun _ s h => .failed (.seeing ?_))
  split
  · exact .done
  · exact .of_takes (next_takes.bind fun _ => (typeOrPredicate_steady hk htyped).bind fun _ =>
      .pure _) fun _ => by grind

theorem plainType_steady : Steady ctx (plainType k) := by
  intro s h
  refine .seeing ?_
  split
  · exact .of_takes ((typeParameters_takes hk htyped).bind fun _ =>
      functionType_steady hk htyped) fun _ => by grind
  refine Goes.bind (Q := fun _ _ => True) (.seeing ?_) fun b s => ?_
  · split
    · exact tryFunctionType_steady hk htyped s h
    · exact .done
  split
  · exact .done
  refine .seeing (.seeingWord (.beforeAny ?_))
  split
  · rename_i hnew
    have hrest : Takes ctx (next >>= fun _ => seeing .lessThan >>= fun b =>
        if b = true then typeParameters k >>= fun _ => functionType k else functionType k) :=
      next_takes.bind fun _ s h => .seeing (.optional (fun hless =>
        .of_takes (typeParameters_takes hk htyped) fun _ => plain_of_seeing hless (by decide))
        (functionType_steady hk htyped))
    refine .discard (.eatWord (fun hword => ?_) fun hword => ?_)
    · refine .of_takes hrest fun _ => ?_
      rw [took_cursor]
      grind [Cursor.isWord]
    · exact .of_takes hrest fun _ => by grind
  · exact unionType_steady hk htyped s _

theorem type_steady : Steady ctx (type k) := by
  refine (plainType_steady hk htyped).bind fun _ s h => .lineBreakBefore fun _ => ?_
  split
  · refine .eat (by decide) (fun _ => ?_) fun _ => .done
    exact (plainType_steady hk htyped).bind (fun _ => (expect_steady (by decide)).bind fun _ =>
      (hk.type htyped).bind fun _ => (expect_steady (by decide)).bind fun _ =>
      hk.type htyped) _ _
  · exact .done

end Downlevel.Grammar
