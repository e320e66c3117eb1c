import Downlevel.Proofs.Grammar.Expression
import Downlevel.Proofs.Grammar.Type

/-!
# Declarations, modules and statements go on without error

A statement takes a token at least. Where no types may be written, nothing is given to a type, not
even an export that would hold types only.
-/

namespace Downlevel.Grammar

open State
open Token (At)

variable {ctx : Context} {k : Knot} {s : State} {h : Prop} (hk : k.Sure ctx) {start : Nat}
include hk

/-! ## Declarations -/

theorem declarators_steady (binding : Binding) (noIn : Bool) :
    Steady ctx (declarators k binding noIn) := by
  refine separatedBy_steady (by decide) ((hk.bindingAtom binding).bind fun _ s h =>
    .typescript (.seeing (.optional (fun hbang => ?_) ?_)))
  · exact .of_takes (nextAsType_takes (by grind [Dialect.typed])) fun _ => by grind
  · exact (optionalAnnotation_steady hk).bind fun _ => initializer_steady hk noIn

theorem variableStatement_takes (binding : Binding) : Takes ctx (variableStatement k binding) :=
  next_takes.bind fun _ => (declarators_steady hk binding false).bind fun _ => semicolon_steady

theorem enumeration_takes : Takes ctx (enumeration k) := by
  refine next_takes.bind fun _ s h => .declarationRole fun role =>
    (identifier_steady.bind fun _ => Grows.steady (Encloses.grows .brace
      (commaList_encloses (by decide) fun s h => ?_))) s h
  exact .eat (by decide) (fun _ => initializer_steady hk false _ _) fun _ =>
    identifierName_steady.bind (fun _ => initializer_steady hk false) _ _

theorem typeAlias_takes (htyped : ctx.source.dialect.typed = true) : Takes ctx (typeAlias k) := by
  refine typeContext_takes htyped (next_takes.bind fun _ => identifier_steady.bind fun _ s h =>
    .seeing (.optional (fun hless => ?_) fun s h => .flow (.seeing (.optional₂ (fun hcolon => ?_)
      fun s h => ?_))))
  · exact .of_takes (typeParameters_takes hk htyped) fun _ => plain_of_seeing hless (by decide)
  · exact .of_takes (next_takes.bind fun _ => hk.type htyped) fun _ => by grind
  · exact .eat (by decide) (fun _ => (hk.type htyped).bind (fun _ => semicolon_steady) _ _)
      fun _ => semicolon_steady _ _

theorem interfaceDeclaration_takes (htyped : ctx.source.dialect.typed = true) :
    Takes ctx (interfaceDeclaration k) := by
  refine typeContext_takes htyped (next_takes.bind fun _ => identifier_steady.bind fun _ s h =>
    .seeing (.optional (fun hless => ?_) fun s h => ?_))
  · exact .of_takes (typeParameters_takes hk htyped) fun _ => plain_of_seeing hless (by decide)
  · exact .eat (by decide) (fun _ => (separatedBy_steady (by decide) (hk.type htyped)).bind
      (fun _ => objectType_steady hk htyped) _ _) fun _ => objectType_steady hk htyped _ _

theorem ambientModule_takes : Takes ctx (ambientModule k) := by
  intro s h hplain
  refine .seeingWord ((next_takes.bind fun _ s h => ?_) s h hplain)
  extract_lets rest
  have hrest : ∀ r, Steady ctx (rest r) := fun _ =>
    .ifSeeingAt (block_grows hk).takesAt semicolon_steady
  split
  · exact .eat (by decide) (fun _ => hrest () _ _) fun _ =>
      identifierName_steady.bind (fun _ => dottedNames_steady.bind hrest) _ _
  · exact hrest () s h

theorem ambientDeclaration_takes (htyped : ctx.source.dialect.typed = true) :
    Takes ctx (ambientDeclaration k) := by
  intro s h hplain
  refine .position (Goes.taking (typeContext_takes htyped (next_takes.bind fun _ s h => ?_) s _
    fun hh => hplain hh.1) fun _ t => ?_)
  · refine .seeingAnyWord ?_
    split
    · exact .of_takes (ambientModule_takes hk) fun _ => by grind [plain_of_anyWord]
    · exact hk.statement_grows.steady.discard s h
  · exact markTypeFrom_goes (fun _ => htyped) fun hh => hh.2.anchored hh.1.2

/-! ## Imports -/

theorem importAttributes_steady : Steady ctx (importAttributes k) := by
  intro s h
  refine .seeing (.seeingWord (.lineBreakBefore fun _ => ?_))
  split
  · exact .of_takes (next_takes.bind fun _ => Grows.steady (Encloses.grows .brace
      (commaList_encloses (by decide) ((propertyName_steady hk).bind fun _ =>
        (expect_steady (by decide)).bind fun _ => expect_steady (by decide)))))
      fun _ => by grind [plain_of_isWord]
  · exact .done

theorem importSource_steady : Steady ctx (importSource k) :=
  expectWord_steady.bind fun _ => (expect_steady (by decide)).bind fun _ =>
    (importAttributes_steady hk).bind fun _ => semicolon_steady

omit hk in
/-- Only a name, and only where types may be written, makes a type of a specifier. -/
theorem isTypeSpecifier_goes :
    Goes ctx s h isTypeSpecifier fun isType t =>
      t = s ∧ (isType = true → ctx.source.dialect.typed = true ∧ s.cursor.kind.Plain) := by
  refine .typed (.seeingWord ?_)
  split
  · exact .pure fun _ _ => ⟨rfl, fun hno => by cases hno⟩
  have hyes : ctx.source.dialect.typed = true ∧ s.cursor.kind.Plain := by
    grind [plain_of_isWord]
  refine .lookahead fun ahead _ _ => ?_
  split
  · exact .pure fun _ _ => ⟨rfl, fun _ => hyes⟩
  · exact .pure fun _ _ => ⟨rfl, fun _ => hyes⟩
  · split
    · exact peek_goes fun _ => ⟨rfl, fun _ => hyes⟩
    · exact .pure fun _ _ => ⟨rfl, fun _ => hyes⟩
  · exact .pure fun _ _ => ⟨rfl, fun _ => hyes⟩
  · exact .pure fun _ _ => ⟨rfl, fun _ => hyes⟩

omit hk in
theorem typeModifier_goes :
    Goes ctx s h typeModifier fun isType _ => isType = true → ctx.source.dialect.typed = true := by
  refine isTypeSpecifier_goes.bind fun isType t => ?_
  cases isType with
  | false => exact .pure fun _ _ => nofun
  | true =>
    refine (next_goes fun hh => ?_).bind fun _ u => .pure fun _ hh _ => (hh.1.2.2.2 rfl).1
    rw [hh.2.2.1]
    exact (hh.2.2.2 rfl).2

omit hk in
theorem endSpecifier_goes {isType : Bool}
    (htyped : h → isType = true → ctx.source.dialect.typed = true) (hstart : h → s.Anchored start) :
    Goes ctx s h (endSpecifier isType start) fun _ _ => True := by
  refine .seeing (.choose (fun _ => expect_steady (by decide) _ _) fun t => ?_)
  split
  · exact markTypeFrom_goes (fun hh => htyped hh.1 (by assumption))
      fun hh => hh.2.anchored (hstart hh.1)
  · exact .done

omit hk in
theorem specifier_steady {α : Type} {p : Parser α} (hp : Steady ctx p) :
    Steady ctx (specifier p) := by
  intro s h
  refine .position (typeModifier_goes.bind fun isType t => (hp t _).bind fun a u => ?_)
  refine (endSpecifier_goes (fun hh => hh.1.2.2) fun hh => ?_).bind fun _ _ => .done
  obtain ⟨⟨⟨_, hstart⟩, honward, _⟩, honward', _⟩ := hh
  exact (honward.trans honward').anchored hstart

omit hk in
theorem importSpecifiers_takes : TakesAt ctx .braceL importSpecifiers := by
  refine Encloses.takesAt .brace (untilClose_encloses (by decide) (specifier_steady fun s h => ?_))
  refine .position ((moduleName_steady s _).bind fun _ t => .declarationRole fun role => ?_)
  refine .eatWord (fun _ => (setRole_goes fun hh => ?_).bind fun _ => (identifier_steady · _))
    fun _ => setRole_goes fun hh => hh.2.1.unnamed hh.1.2.outside
  exact (hh.1.2.1.trans hh.2).unnamed hh.1.1.2.outside

theorem importClause_steady : Steady ctx (importClause k) := by
  intro s h
  have hsource := importSource_steady hk
  refine .seeing ?_
  split
  · rename_i hstring
    exact .of_takes (next_takes.bind fun _ => (importAttributes_steady hk).bind fun _ =>
      semicolon_steady.bind fun _ => .pure _) fun _ => plain_of_seeing hstring (by decide)
  refine .declarationRole fun role => .seeing ?_
  extract_lets _ rest
  have hrest : ∀ r, Steady ctx (rest r) := by
    intro r s h
    refine .eat (by decide) (fun _ => ?_) fun _ => .seeing ?_
    · exact expectWord_steady.bind (fun _ => identifier_steady.bind fun _ => hsource) _ _
    · exact .optional (fun hbrace => .of_takesAt importSpecifiers_takes
        fun _ => beq_iff_eq.mp hbrace) hsource
  split
  · refine (identifier_steady.bind fun _ s h => ?_) s h
    exact .eat (by decide) (fun _ => hrest () _ _) fun _ => hsource.bind (fun _ => .pure _) _ _
  · exact hrest () s h

omit hk in
/-- What makes a type import of a statement is a token. -/
theorem isTypeImport_goes :
    Goes ctx s h isTypeImport fun isType t => t = s ∧ (isType = true → s.cursor.kind.Plain) := by
  refine .seeingWord (.flow (.seeing ?_))
  split
  · exact .pure fun _ _ => ⟨rfl, fun hno => by cases hno⟩
  have hyes : s.cursor.kind.Plain := by grind [plain_of_isWord]
  refine .lookahead fun ahead _ _ => ?_
  split <;> exact .pure fun _ _ => ⟨rfl, fun _ => hyes⟩

theorem importStatement_takes : Takes ctx (importStatement k) := by
  intro s h hplain
  refine .position (Goes.taking (next_takes s _ fun hh => hplain hh.1) fun _ t =>
    Goes.pre ?_ fun hh => hh.2.anchored hh.1.2)
  generalize s.tokens.size = start
  refine .typed (isTypeImport_goes.bind fun isType u => ?_)
  split
  · rename_i htype
    have htyped : ctx.source.dialect.typed = true := by grind
    refine (typeContext_takes htyped (next_takes.bind fun _ => importClause_steady hk) u _
      fun hh => ?_).bind fun _ v => markTypeFrom_goes (fun _ => htyped) fun hh =>
        (hh.1.2.1.trans hh.2.1).anchored hh.1.1
    rw [hh.2.2.1]
    exact hh.2.2.2 (by grind)
  refine .seeing (.beforeAny ?_)
  split
  · exact unsupported_goes
  · exact importClause_steady hk u _

/-! ## Exports -/

omit hk in
theorem markExports_steady (locals : List Nat) : Steady ctx (markExports locals) := by
  induction locals with
  | nil => exact .pure _
  | cons index locals ih =>
    refine Steady.bind (fun s h => .get ?_) fun _ => ih
    split
    · rename_i t ht
      split
      · rename_i hname
        refine setRole_goes fun _ hnamed => ?_
        cases (beq_iff_eq.mp hname).symm.trans (Token.At.kind_eq ⟨t, ht, rfl⟩ hnamed)
      · exact .done
    · exact .throw _

omit hk in
theorem exportName_steady : Steady ctx exportName := by
  intro s h
  refine .position ((moduleName_steady.bind fun _ => eatWord_steady.bind fun b => ?_) s _)
  split
  · exact moduleName_steady.bind fun _ => .pure _
  · exact .pure _

omit hk in
theorem exportSpecifiers_steady (n : Nat) (locals : List Nat) :
    Steady ctx (exportSpecifiers locals n) := by
  induction n generalizing locals with
  | zero => exact fun s h => .throw _
  | succ n ih =>
    intro s h
    refine .seeingAny ?_
    split
    · exact .done
    · exact ((specifier_steady exportName_steady).bind fun _ => ih _) s h

omit hk in
theorem exportList_steady : Steady ctx exportList :=
  Grows.steady <| Encloses.grows .brace fun _ _ => .look rfl <|
    .inside (exportSpecifiers_steady _ _ _ _) fun _ t =>
      (expect_encloses (by decide)).bind (fun _ => .pure _) t _

theorem exportClause_steady : Steady ctx (exportClause k) := by
  have hsource := importSource_steady hk
  intro s h
  refine .eat (by decide) (fun _ => ?_) fun _ => ?_
  · refine (eatWord_steady.bind fun b => ?_) _ _
    split
    · exact moduleName_steady.bind fun _ => hsource
    · exact hsource
  · refine (exportList_steady.bind fun locals s h => .seeingWord ?_) s h
    split
    · exact hsource s h
    · exact (markExports_steady _).bind (fun _ => semicolon_steady) s h

omit hk in
/-- Without types, an export that holds a token holds one that belongs to no type. -/
theorem exportedKind_goes {kind : StatementKind} {index : Nat} :
    Goes ctx s (s.Anchored start ∧ index + 1 < s.tokens.size) (exportedKind kind start index)
      fun _ _ => True := by
  refine .sound (.allTypeFrom ?_)
  split
  · rename_i hall
    refine (markTypeFrom_goes (fun hh => ?_) fun hh => hh.1.1).bind fun _ _ => .done
    obtain ⟨⟨-, hlt⟩, hsound⟩ := hh
    by_contra htyped
    obtain ⟨-, hnone⟩ := hsound.untyped (by simpa using htyped)
    have hget : s.tokens[index + 1]? = some s.tokens[index + 1] := Array.getElem?_eq_getElem hlt
    have hmem : s.tokens[index + 1] ∈ s.tokens.toList.drop (index + 1) := by
      rw [List.mem_drop_iff_getElem]
      exact ⟨0, by simpa using hlt, by simp⟩
    have hyes := List.all_eq_true.mp hall _ hmem
    rw [hnone hget] at hyes
    cases hyes
  · exact .done

section

variable (hdefault : s.cursor.kind = .kwDefault)
include hdefault

/-- What follows `default` in an export with decorators. The token after them may be any. -/
theorem decoratedDefault_moves
    (hmark : (s.took ctx .code).cursor.kind = .atSign) (hstart : h → s.Anchored start) :
    Moves ctx (s.took ctx .code) (h ∧ Run ctx s (s.took ctx .code)) (do
      decorators k
      classStatement k true
      setRhsEnd s.tokens.size
      exportedKind .exportDefault start s.tokens.size) fun _ t => Onward ctx s t := by
  have houtside : (s.took ctx .code).Outside := .of_kind hmark (by decide)
  refine Moves.bind (Moves.pre (decorators_goes hk) fun hh => ⟨hh, houtside⟩) fun _ t =>
    Moves.bind (classStatement_heads hk fun hh => hh.2.2.1.outside) fun _ u => ?_
  refine Moves.pre (k := h ∧ Onward ctx s u ∧ s.tokens.size + 1 < u.tokens.size) (Moves.mono
    ((setRhsEnd_steady u _).bind fun _ v => exportedKind_goes.pre fun hh => ?_)
      (fun hh => ⟨hh, hh.2.1.outside⟩) fun _ v hh _ hrest => hh.2.1.trans hrest.1) ?_
  · exact ⟨hh.2.1.anchored (hh.1.2.1.anchored (hstart hh.1.1)),
      Nat.lt_of_lt_of_le hh.1.2.2 hh.2.1.size_le⟩
  rintro ⟨⟨⟨hh, hrun⟩, hrun₁, honward, hat, -⟩, hrun₂, hheads, houtside⟩
  have hfirst := at_took ctx s .code
  have hsecond := hat hmark
  have hadds := honward.adds
  have hlt := hheads.1.lt_size
  have hle := hrun₁.size_le
  rw [hdefault] at hfirst
  rw [Adds, took_tokens_size] at hadds
  rw [took_tokens_size] at hsecond hle
  refine ⟨hh, ⟨hrun.trans (hrun₁.trans hrun₂), ?_, houtside⟩, by omega⟩
  exact .decorated (hfirst.mono (hrun₁.trans hrun₂).extends) (hsecond.mono hrun₂.extends)
    (hadds.mono hrun₂.extends) hheads.1 hheads.2

/-- A default export with decorators begins with its word. -/
theorem exportDefault_of_mark
    (hmark : (s.took ctx .code).cursor.kind = .atSign) (hstart : h → s.Anchored start) :
    Goes ctx s h (exportDefault k start) fun _ t => At t.tokens s.tokens.size .kwDefault := by
  have hfirst := at_took ctx s .code
  rw [hdefault] at hfirst
  have hword : (s.took ctx .code).cursor.isWord .kwAsync = false := by
    rw [Cursor.isWord, hmark]
    rfl
  refine .position (Moves.advance (fun _ => .of_kind hdefault (by decide)) ?_)
  refine .look rfl (.looking (fun _ _ => lookahead_ok) fun ahead _ => .look rfl ?_)
  rw [hmark, if_neg (by decide)]
  refine .look rfl ?_
  rw [hword, if_neg (by simp)]
  refine .look rfl ?_
  rw [hmark, if_pos (by decide)]
  exact (decoratedDefault_moves hk hdefault hmark fun hh => hstart hh.1.1).mono id
    fun _ u _ hrun honward => ⟨honward, hfirst.mono hrun.extends⟩

theorem exportDefault_goes (hstart : h → s.Anchored start) :
    Goes ctx s h (exportDefault k start) fun _ t => At t.tokens s.tokens.size .kwDefault := by
  by_cases hmark : (s.took ctx .code).cursor.kind = .atSign
  · exact exportDefault_of_mark hk hdefault hmark hstart
  have hfirst := at_took ctx s .code
  rw [hdefault] at hfirst
  refine .position (.next (fun _ => plain_of_kind hdefault (by decide))
    (Goes.mono (Q := fun _ _ => True)
      (k := (s.took ctx .code).Anchored start ∧ s.tokens.size < (s.took ctx .code).tokens.size)
      ?_ (fun hh => ⟨hh.2.anchored (hstart hh.1.1), by simp⟩)
      fun _ u _ hrun _ => hfirst.mono hrun.extends))
  generalize s.took ctx .code = t at hmark
  generalize s.tokens.size = index
  refine .position (.lookahead fun ahead hkind hkeyword => .seeing ?_)
  extract_lets rest
  have hkeep : ∀ {u v : State}, u.Anchored start ∧ index < u.tokens.size →
      Onward ctx u v → v.Anchored start ∧ index < v.tokens.size :=
    fun hu honward => ⟨honward.anchored hu.1, Nat.lt_of_lt_of_le hu.2 honward.size_le⟩
  have hrest : ∀ {u : State} {h' : Prop} {p : Parser Unit},
      (h' → u.Anchored start ∧ index < u.tokens.size) →
      Goes ctx u h' p (fun _ v => u.tokens.size < v.tokens.size) →
      Goes ctx u h' (p >>= rest) fun _ _ => True := by
    intro u h' p hu hp
    refine hp.bind fun _ v => (setRhsEnd_steady v _).bind fun _ w => exportedKind_goes.pre ?_
    rintro ⟨⟨hh, honward, hlt⟩, honward', -⟩
    have := (hu hh).2
    exact ⟨(hkeep (hu hh) (honward.trans honward')).1, by have := honward'.size_le; omega⟩
  split
  · rename_i hfunction
    exact hrest And.left (functionStatement_goes hk
      (fun _ => plain_of_seeing hfunction (by decide)) And.right)
  refine .seeingWord ?_
  split
  · refine .next (fun _ => by grind [plain_of_isWord]) (hrest (fun hh => hkeep hh.1.1 hh.2)
      (functionStatement_goes hk (fun _ => ?_) fun hh => hh.2.anchored hh.1.2))
    rw [took_cursor]
    grind
  refine .seeingAny ?_
  split
  · rename_i hclass
    have hkind : t.cursor.kind = .kwClass := by grind
    refine (decorators_goes hk).bind fun _ u => hrest (fun hh => hkeep hh.1.1 hh.2.1)
      (classStatement_takes hk u _ fun hh => ?_)
    rw [hh.2.2.2 hmark]
    exact plain_of_kind hkind (by decide)
  refine .typescript (.seeingWord ?_)
  split
  · rename_i habstract
    have hahead : (t.cursor.advance ctx.source .code).kind = .kwClass := by grind
    refine (nextAsType_goes (by grind [Dialect.typed]) (by grind [plain_of_isWord]) hahead
      (.inr rfl)).bind fun _ u => hrest (fun hh => hkeep hh.1.1 hh.2.1)
      (classStatement_takes hk u _ fun hh => plain_of_kind hh.2.2.1 (by decide))
  refine .typed (.seeingWord ?_)
  split
  · have htyped : ctx.source.dialect.typed = true := by grind
    refine (interfaceDeclaration_takes hk htyped t _ fun _ => ?_).bind fun _ u =>
      (markTypeFrom_goes (fun _ => htyped) fun hh => (hkeep hh.1.1 hh.2.1).1).bind
        fun _ _ => .done
    grind [plain_of_isWord]
  · exact (hk.value _ t _).bind fun _ u => (setRhsEnd_steady u _).bind fun _ v =>
      semicolon_steady.bind (fun _ => .pure _) v _

end

/-- An export begins with its word, and the default one goes on with `default`. -/
theorem exportStatement_goes (hexport : s.cursor.kind = .kwExport) :
    Goes ctx s h (exportStatement k) fun kind t => At t.tokens s.tokens.size .kwExport ∧
      (kind = .exportDefault → At t.tokens (s.tokens.size + 1) .kwDefault) := by
  have hfirst := at_took ctx s .code
  rw [hexport] at hfirst
  refine .position (.next (fun _ => plain_of_kind hexport (by decide)) ?_)
  refine Goes.mono (Q := fun kind u => kind = .exportDefault →
      At u.tokens (s.took ctx .code).tokens.size .kwDefault)
    (k := (s.took ctx .code).Anchored s.tokens.size ∧
      s.tokens.size < (s.took ctx .code).tokens.size) ?_
    (fun hh => ⟨hh.2.anchored hh.1.2, by simp⟩) fun kind u _ hrun hat => ?_
  rotate_left
  · rw [took_tokens_size] at hat
    exact ⟨hfirst.mono hrun.extends, hat⟩
  generalize s.took ctx .code = t
  generalize s.tokens.size = start
  have hmark : ∀ {p : Parser Unit}, ctx.source.dialect.typed = true →
      Goes ctx t (t.Anchored start ∧ start < t.tokens.size) p (fun _ _ => True) →
      Goes ctx t (t.Anchored start ∧ start < t.tokens.size)
        (p >>= fun _ => markTypeFrom start >>= fun _ => pure StatementKind.typeOnly)
        fun _ _ => True :=
    fun htyped hp => hp.bind fun _ u => (markTypeFrom_goes (fun _ => htyped) fun hh =>
      hh.2.1.anchored hh.1.1).bind fun _ _ => .done
  refine .seeing ?_
  split
  · rename_i hdefault
    exact (exportDefault_goes hk (beq_iff_eq.mp hdefault) And.left).mono id
      fun _ _ _ _ hat _ => hat
  refine (Goes.also (Q := fun _ _ => True) ?_ ?_).mono id
    fun _ _ _ _ hno hdefault => absurd hdefault hno.2
  rotate_left
  · intro kind u hrun _ _ _
    refine (?_ : Answers ctx _ (· ≠ .exportDefault)) t kind u hrun
    repeat first
      | exact .pure nofun
      | refine .bind fun _ => ?_
      | refine .ite ?_ ?_
  refine .seeing ?_
  split
  · rename_i heq
    refine .get ?_
    split
    · exact .of_takes (next_takes.bind fun _ => (hk.expression _).bind fun _ =>
        semicolon_steady.bind fun _ => .pure _) fun _ => plain_of_seeing heq (by decide)
    · exact (unsupported_goes (Q := fun _ _ => True)).bind fun _ _ => .done
  refine .seeingWord (.typescript ?_)
  split
  · have htyped : ctx.source.dialect.typed = true := by grind [Dialect.typed]
    exact hmark htyped (.of_takes (typeContext_takes htyped (next_takes.bind fun _ =>
      expectWord_steady.bind fun _ => identifierName_steady.bind fun _ => semicolon_steady))
      fun _ => by grind [plain_of_isWord])
  refine .typed (.seeingWord (.beforeAny ?_))
  split
  · have htyped : ctx.source.dialect.typed = true := by grind
    exact hmark htyped (.of_takes (typeContext_takes htyped (next_takes.bind fun _ =>
      exportClause_steady hk)) fun _ => by grind [plain_of_isWord])
  refine .seeingAny ?_
  split
  · exact (exportClause_steady hk).bind (fun _ => .pure _) t _
  · refine (hk.statement_grows.discard t _).bind fun _ u =>
      (setRhsEnd_steady u _).bind fun _ v => exportedKind_goes.pre ?_
    rintro ⟨⟨⟨hstart, hlt⟩, honward, hlt'⟩, honward', -⟩
    exact ⟨(honward.trans honward').anchored hstart, by have := honward'.size_le; omega⟩

/-! ## Control -/

theorem expressionStatement_grows : Grows ctx (expressionStatement k) :=
  (hk.expression_grows _).bind fun _ => semicolon_steady.bind fun _ => .pure _

theorem condition_steady : Steady ctx (condition k) :=
  Grows.steady <| Encloses.grows .paren <|
    (hk.expression _).inside fun _ => expect_encloses (by decide)

theorem forInitializer_steady : Steady ctx (forInitializer k) := by
  intro s h
  refine .kind ?_
  split
  · exact .done
  iterate 3
    · rename_i hkind
      exact ((next_takes.bind fun _ => declarators_steady hk _ _).of_kind hkind (by decide)).weaken
  · exact hk.expression _ s h

theorem forStatement_takes : Takes ctx (forStatement k) := by
  refine next_takes.bind fun _ => inScope_steady (eatWord_steady.discard.bind fun _ =>
    Grows.steady (Encloses.grows .paren ((forInitializer_steady hk).inside fun _ s h =>
      .look rfl (.look rfl ?_))))
  extract_lets rest
  have hrest : ∀ r, Encloses ctx .parenR (rest r) := fun _ =>
    (expect_encloses (by decide)).bind fun _ => hk.statement_grows.steady.discard
  split
  · exact .inside (next_goes fun _ => by grind [plain_of_isWord]) fun _ t =>
      (hk.expression _).inside hrest t _
  · refine .inside (expect_steady (by decide) s h) fun _ t => .look rfl (.optional
      (fun _ => hk.expression _ _ _) fun s h => ?_)
    exact .inside (expect_steady (by decide) s h) fun _ t => .look rfl (.optional
      (fun _ => hk.expression _ _ _) (hrest ()))

theorem switchStatement_takes : Takes ctx (switchStatement k) := by
  refine next_takes.bind fun _ => (condition_steady hk).bind fun _ => inScope_steady
    (Grows.steady (Encloses.grows .brace (untilClose_encloses (by decide) fun s h => ?_)))
  refine .eat (by decide) (fun _ => ?_) fun _ => ?_
  · exact (hk.expression _).bind (fun _ => expect_steady (by decide)) _ _
  · exact .eat (by decide) (fun _ => expect_steady (by decide) _ _)
      fun _ => hk.statement_grows.steady.discard _ _

theorem catchClause_steady : Steady ctx (catchClause k) := by
  intro s h
  refine .seeing ?_
  split
  · rename_i hparen
    have hclause : Encloses ctx .parenR (k.bindingAtom .blockScoped >>= fun _ =>
        optionalAnnotation k >>= fun _ => expect .parenR >>= fun _ => block k false) :=
      (hk.bindingAtom _).inside fun _ => (optionalAnnotation_steady hk).inside fun _ =>
        (expect_encloses (by decide)).bind fun _ => block_steady hk
    exact (inScope_goes ((hclause.takesAt .paren).of_kind (beq_iff_eq.mp hparen))).weaken
  · exact block_steady hk s h

theorem tryStatement_takes : Takes ctx (tryStatement k) := by
  refine next_takes.bind fun _ => (block_steady hk).bind fun _ => (eat_steady (by decide)).bind
    fun caught s h => .optional (fun _ => catchClause_steady hk _ _) ?_
  refine (eat_steady (by decide)).bind fun finished s h =>
    .optional (fun _ => block_steady hk _ _) fun s h => ?_
  split
  · exact expecting_goes
  · exact .done

/-! ## Statements that begin with a name -/

theorem nameStatement_goes (hname : s.cursor.kind = .name) :
    Goes ctx s h (nameStatement k) fun _ t => s.tokens.size < t.tokens.size := by
  have hplain : s.cursor.kind.Plain := plain_of_kind hname (by decide)
  refine .lookahead fun ahead hkind hkeyword => ?_
  split
  · rename_i hcolon
    refine .nextTaking (fun _ => hplain) (.of_takes (next_takes.bind fun _ =>
      hk.statement_grows.steady.discard.bind fun _ => .pure _) fun _ => ?_)
    rw [took_cursor]
    grind
  refine .position (.dialect (.get ?_))
  extract_lets rest
  have hrest : Goes ctx s (h ∧ s.Anchored s.tokens.size) (rest ())
    fun _ t => s.tokens.size < t.tokens.size := expressionStatement_grows hk s _
  split
  · split
    · refine .nextTaking (fun _ => hplain) (Goes.bind (functionStatement_goes hk (fun _ => ?_)
        fun hh => hh.2.anchored hh.1.2) fun _ _ => .done)
      rw [took_cursor]
      grind
    · exact hrest
  · split
    · exact ((typeAlias_takes hk (by grind)).bind fun _ => .pure _) s _ fun _ => hplain
    · exact hrest
  · split
    · rename_i hopaque
      have htyped : ctx.source.dialect.typed = true := by grind [Dialect.typed]
      have hahead : (s.cursor.advance ctx.source .code).kind = .name := by grind [Lookahead.isWord]
      refine (nextAsType_goes htyped hplain hahead (.inl rfl)).bind fun _ t => Goes.mono
        (Q := fun _ _ => True) ?_ id fun _ u hh hrun _ => Nat.lt_of_lt_of_le hh.2.2.2 hrun.size_le
      exact (typeAlias_takes hk htyped t _ fun hh => plain_of_kind hh.2.2.1 (by decide)).bind
        fun _ u => (markTypeFrom_goes (fun _ => htyped)
          fun hh => (hh.1.2.1.trans hh.2.1).anchored hh.1.1.2).bind fun _ _ => .done
    · exact hrest
  · split
    · exact ((interfaceDeclaration_takes hk (by grind)).bind fun _ => .pure _) s _ fun _ => hplain
    · exact hrest
  · split
    · exact ((ambientDeclaration_takes hk (by grind)).bind fun _ => .pure _) s _ fun _ => hplain
    · exact hrest
  · split
    · exact ((enumeration_takes hk).bind fun _ => .pure _) s _ fun _ => hplain
    · exact hrest
  · split
    · rename_i habstract
      have hahead : (s.cursor.advance ctx.source .code).kind = .kwClass := by grind
      refine (nextAsType_goes (by grind [Dialect.typed]) hplain hahead (.inr rfl)).bind fun _ t =>
        Goes.mono (Q := fun _ _ => True) ?_ id fun _ u hh hrun _ =>
          Nat.lt_of_lt_of_le hh.2.2.2 hrun.size_le
      exact .of_takes ((classStatement_takes hk).bind fun _ => .pure _) fun hh =>
        plain_of_kind hh.2.2.1 (by decide)
    · exact hrest
  iterate 2
    · split
      · exact unsupported_goes.taking fun _ _ => .done
      · exact hrest
  · exact hrest

/-! ## All statements -/

omit hk in
theorem expressionStatement_answers :
    Answers ctx (expressionStatement k) (¬ ·.OfModule) :=
  .bind fun _ => .bind fun _ => .pure (by decide)

omit hk in
theorem nameStatement_answers : Answers ctx (nameStatement k) (¬ ·.OfModule) := by
  refine .bind fun _ => .ite (.bind fun _ => .bind fun _ => .bind fun _ => .pure (by decide)) ?_
  refine .bind fun _ => .bind fun _ => .bind fun _ => ?_
  split
  all_goals repeat first
    | exact expressionStatement_answers
    | exact .pure (by decide)
    | refine .bind fun _ => ?_
    | refine .ite ?_ ?_

theorem statement_grows : Grows ctx (statement k) := by
  have hbody : Steady ctx (discard k.statement) := hk.statement_grows.steady.discard
  refine (decorators_steady hk).grows_bind fun _ s h => .kind ?_
  split
  · exact (block_grows hk).bind (fun _ => .pure _) s h
  · rename_i hkind
    exact (next_takes.bind fun _ => .pure _).of_kind hkind (by decide)
  iterate 2
    · rename_i hkind
      exact ((variableStatement_takes hk _).bind fun _ => .pure _).of_kind hkind (by decide)
  · rename_i hkind
    have hplain := plain_of_kind hkind (by decide)
    refine .typescript (.lookahead fun ahead hahead _ => ?_)
    split
    · exact .nextTaking (fun _ => hplain) (.of_takes ((enumeration_takes hk).bind fun _ => .pure _)
        fun _ => by rw [took_cursor]; grind [Lookahead.isWord])
    · exact ((variableStatement_takes hk _).bind fun _ => .pure _) s h fun _ => hplain
  · rename_i hkind
    exact .position ((functionStatement_goes hk (fun _ => plain_of_kind hkind (by decide))
      And.right).taking fun _ _ => .done)
  · rename_i hkind
    exact ((classStatement_takes hk).bind fun _ => .pure _).of_kind hkind (by decide)
  · rename_i hkind
    refine .beforeAny ?_
    split
    · exact expressionStatement_grows hk s h
    · exact ((importStatement_takes hk).bind fun _ => .pure _).of_kind hkind (by decide)
  · rename_i hkind
    exact (exportStatement_goes hk hkind).mono id fun _ _ _ _ hat => hat.1.lt_size
  · rename_i hkind
    exact (next_takes.bind fun _ s h => .canEnd fun b => .optional (fun _ => hk.expression _ _ _)
      (semicolon_steady.bind fun _ => .pure _)).of_kind hkind (by decide)
  · rename_i hkind
    refine (next_takes.bind fun _ => (condition_steady hk).bind fun _ => hbody.bind fun _ =>
      (eat_steady (by decide)).bind fun b => ?_).of_kind hkind (by decide)
    split
    · exact hbody.bind fun _ => .pure _
    · exact .pure _
  · rename_i hkind
    exact ((forStatement_takes hk).bind fun _ => .pure _).of_kind hkind (by decide)
  iterate 2
    · rename_i hkind
      exact (next_takes.bind fun _ => (condition_steady hk).bind fun _ => hbody.bind fun _ =>
        .pure _).of_kind hkind (by decide)
  · rename_i hkind
    exact (next_takes.bind fun _ => hbody.bind fun _ => (expect_steady (by decide)).bind fun _ =>
      (condition_steady hk).bind fun _ => (skip_steady (by decide)).bind fun _ => .pure _).of_kind
      hkind (by decide)
  · rename_i hkind
    exact ((switchStatement_takes hk).bind fun _ => .pure _).of_kind hkind (by decide)
  · rename_i hkind
    exact ((tryStatement_takes hk).bind fun _ => .pure _).of_kind hkind (by decide)
  · rename_i hkind
    exact (next_takes.bind fun _ => (hk.expression _).bind fun _ => semicolon_steady.bind fun _ =>
      .pure _).of_kind hkind (by decide)
  iterate 2
    · rename_i hkind
      exact (next_takes.bind fun _ s h => .canEnd fun b => .seeing (.optional (fun hname =>
        next_goes fun _ => by grind) (semicolon_steady.bind fun _ => .pure _))).of_kind
        hkind (by decide)
  · rename_i hkind
    exact (next_takes.bind fun _ => semicolon_steady.bind fun _ => .pure _).of_kind
      hkind (by decide)
  · rename_i hkind
    exact nameStatement_goes hk hkind
  · exact expressionStatement_grows hk s h

omit hk in
/-- Only what begins with `import` or `export`, after decorators, is an import or export. -/
theorem statement_module {found : StatementKind} {u : State}
    (hrun : statement k ctx s = .ok (found, u)) (hfound : found.OfModule) : ∃ t,
    decorators k ctx s = .ok ((), t) ∧
      ((t.cursor.kind = .kwExport ∧ exportStatement k ctx t = .ok (found, u)) ∨
        (t.cursor.kind = .kwImport ∧ found = .importStatement ∧
          importStatement k ctx t = .ok ((), u))) := by
  obtain ⟨_, t, hdecorators, hrun⟩ := bind_ok hrun
  obtain ⟨_, _, ⟨⟩, hrun⟩ := bind_ok hrun
  refine ⟨t, hdecorators, ?_⟩
  by_cases hexport : t.cursor.kind = .kwExport
  · rw [hexport] at hrun
    exact .inl ⟨hexport, hrun⟩
  by_cases himport : t.cursor.kind = .kwImport
  · rw [himport] at hrun
    obtain ⟨before, t', hbefore, hrun⟩ := bind_ok hrun
    obtain rfl : t' = t := by
      obtain ⟨_, _, hnext, ⟨⟩⟩ := bind_ok hbefore
      obtain ⟨_, _, hahead, ⟨⟩⟩ := bind_ok hnext
      exact (lookahead_ok hahead).1
    cases before with
    | true => exact absurd hfound (expressionStatement_answers _ found u hrun)
    | false =>
      obtain ⟨_, _, himported, ⟨⟩⟩ := bind_ok hrun
      exact .inr ⟨himport, rfl, himported⟩
  refine absurd hfound ((?_ : Answers ctx _ (¬ ·.OfModule)) t _ u hrun)
  split
  case h_8 | h_9 => contradiction
  case h_22 => exact nameStatement_answers
  -- whichever way it goes, all others come to an answer of their own
  all_goals repeat first
    | exact .pure (by decide)
    | refine .bind fun _ => ?_
    | refine .ite ?_ ?_

/-- A default export begins like one. -/
theorem statement_goes : Goes ctx s h (statement k) fun kind t =>
    s.tokens.size < t.tokens.size ∧ (kind = .exportDefault → Defaulted s t) := by
  refine (statement_grows hk s h).also ?_
  rintro kind u hrun hclean hsound hh rfl
  obtain ⟨t, hdecorators, ⟨hexport, hrun⟩ | ⟨-, hno, -⟩⟩ := statement_module hrun (by decide)
  · obtain ⟨hclean', hgo'⟩ := exportStatement_goes hk hexport _ u hrun hclean
    obtain ⟨-, hgo⟩ := decorators_goes hk _ t hdecorators hclean'
    obtain ⟨hrun₁, honward, hmark, hsame⟩ := hgo hsound ⟨trivial, hh.2⟩
    obtain ⟨hrun₂, -, hfirst, hdefault⟩ := hgo' (hrun₁.sound hsound) ⟨trivial, honward.outside⟩
    by_cases hat : s.cursor.kind = .atSign
    · exact .inr ((hmark hat).mono hrun₂.extends)
    · obtain rfl := hsame hat
      exact .inl ⟨hfirst, hdefault rfl⟩
  · cases hno

end Downlevel.Grammar
