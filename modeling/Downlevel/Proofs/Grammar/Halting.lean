import Downlevel.Proofs.Grammar.Halts

/-!
# No production meets a bound

Every production halts where the rules it uses do. After its first token it has less to read, and
any rule may follow; before that, it uses rules of a lower rank only: a statement begins with an
expression, an expression with an operand, and an operand with an atom.
-/

namespace Downlevel.Grammar

open Departs (leavesAt)

variable {s : State}

/-- The rules that never come to their end without a token or an error. -/
def Rule.Takes : Rule → Prop
  | .operators _ _ | .element _ => False
  | _ => True

/-- The rules meet no bound where there is room below `n`. -/
class Knot.Halting (ctx : Context) (n : Nat) (k : Knot) : Prop where
  halts : ∀ r, Halts ctx n (k r)
  leaves : ∀ r, r.Takes → Leaves ctx n (k r)

/-- The rules lie on the course of a parse, the rest of an element too, wherever its `<` is. -/
class Knot.Flowing (ctx : Context) (k : Knot) : Prop extends k.Keeping ctx where
  element : ∀ start, Flows ctx (k.element start)

variable {ctx : Context} {n : Nat}

section Rules

set_option synthInstance.maxSize 1000000

variable (k : Knot) [hflow : k.Flowing ctx] [hk : k.Halting ctx n]

/-! ## Rules -/

instance : Leaves ctx n k.statement := hk.leaves .statement trivial

instance (noIn : Bool) : Leaves ctx n (k.assignment noIn) := hk.leaves (.assignment noIn) trivial

instance (min : Int) (noIn : Bool) : Halts ctx n (k.operators min noIn) :=
  hk.halts (.operators min noIn)

instance : Leaves ctx n k.unary := hk.leaves .unary trivial

instance : Leaves ctx n k.atom := hk.leaves .atom trivial

instance : Leaves ctx n k.type := hk.leaves .type trivial

instance : Leaves ctx n k.plainType := hk.leaves .plainType trivial

instance : Leaves ctx n k.typeOperator := hk.leaves .typeOperator trivial

instance (binding : Binding) : Leaves ctx n (k.bindingAtom binding) :=
  hk.leaves (.bindingAtom binding) trivial

instance (start : Nat) : Halts ctx n (k.element start) := hk.halts (.element start)

/-! ## Parts -/

instance (inner : Parser Unit) [Halts ctx n inner] [Flows ctx inner] :
    Halts ctx n (templateRound inner) := by
  unfold templateRound
  refine .step fun _ => .step fun kind => ?_
  split <;> infer_instance

instance (inner : Parser Unit) [Flows ctx inner] : Flows ctx (templateRound inner) := by
  unfold templateRound
  refine .step fun _ => .step fun kind => ?_
  split <;> infer_instance

/-- Another piece follows only after a `${`, which was taken. -/
instance (inner : Parser Unit) [Halts ctx n inner] [Flows ctx inner] :
    Rounds ctx n (templateRound inner) where
  roundsAt s hs := by
    refine .bind hs.poised fun _ t hnext => .look rfl ?_
    have ht := hs.course ((inferInstance : Flows ctx next).course s () t hnext)
    split
    · exact .bind ht.poised fun _ _ _ => .last (by simp)
    · rename_i hkind
      have hlive := live_of_kind hkind (by decide)
      exact .of_leaves (leavesAt t ht.succ hlive) (ht.clean hlive)
    · exact .bind ht.poised fun _ _ _ => .last (by simp)

theorem template_leavesAt {inner : Parser Unit} [Halts ctx n inner] [Flows ctx inner]
    (hs : Room ctx (n + 1) s) (hkind : s.cursor.kind = .backQuote) :
    LeavesAt ctx s (template inner) := by
  have hsolid := solid_of_kind hkind (by decide)
  have hfirst := advance_template_leavesAt hs.poised hsolid
  refine hfirst.bind_left hs.poised inferInstance inferInstance fun _ t hrun => ?_
  have hcourse := (inferInstance : Flows ctx (advance .template)).course s () t hrun
  exact Halts.halts t (hs.spent hcourse (hfirst.spends (hs.clean hsolid.1) () t hrun))

instance : Leaves ctx n (propertyName k) where
  leavesAt s hs := by
    refine .look rfl ?_
    split
    iterate 5
      · rename_i hkind
        exact .of_kind hs.succ hkind (by decide)
    · exact Leaves.leavesAt s hs

theorem decorators_halts : Halts ctx (n + 1) (decorators k) :=
  whileTrue_halts_of_departs (seeing_sees nofun) inferInstance inferInstance

instance : Halts ctx n (decorators k) := (decorators_halts k).mono

theorem decorators_leavesAt (hs : Room ctx (n + 1) s)
    (hkind : s.cursor.kind = .atSign) : LeavesAt ctx s (decorators k) := by
  have hlive := live_of_kind hkind (by decide)
  have hsees : Sees ctx (seeing .atSign) := seeing_sees nofun
  have hround : LeavesAt ctx s (whileRound (seeing .atSign) (decorator k)) := by
    refine .look rfl ?_
    rw [if_pos (beq_iff_eq.mpr hkind)]
    exact leavesAt s hs hlive
  have hloop := repeatWhile_leavesAt hs (hs.clean hlive) hround
  exact hloop

/-! ## Types around and parameters -/

instance : Sees ctx seeingVariance where
  toLooks := by
    unfold seeingVariance
    infer_instance
  live s t hrun := by
    obtain ⟨_, _, ⟨⟩, hrun⟩ := bind_ok hrun
    obtain ⟨_, _, ⟨⟩, hrun⟩ := bind_ok hrun
    obtain ⟨b, _, -, hrun⟩ := bind_ok hrun
    have htest := (Prod.mk.inj (Except.ok.inj hrun)).1
    intro heof
    simp [Cursor.isWord, heof] at htest

instance : Sees ctx seeingParameterModifier where
  toLooks := by
    unfold seeingParameterModifier
    infer_instance
  live s t hrun := by
    obtain ⟨_, _, ⟨⟩, hrun⟩ := bind_ok hrun
    obtain ⟨b, _, -, hrun⟩ := bind_ok hrun
    have htest := (Prod.mk.inj (Except.ok.inj hrun)).1
    intro heof
    simp [Cursor.isWord, heof] at htest

instance : Departs ctx n (typeParameters k) := .of_defined

instance : Halts ctx n (typeParameters k) := .of_defined

instance : Departs ctx n (typeArguments k) := .of_defined

instance : Halts ctx n (typeArguments k) := .of_defined

theorem splitShift_live {t : State} (hrun : splitShift ctx s = .ok ((), t))
    (hlive : s.cursor.kind ≠ .eof) : t.cursor.kind ≠ .eof := by
  obtain ⟨_, _, ⟨⟩, hrun⟩ := bind_ok hrun
  split at hrun
  · obtain ⟨_, _, ⟨⟩, hrun⟩ := bind_ok hrun
    obtain ⟨c, _, hread, ⟨⟩⟩ := bind_ok hrun
    obtain ⟨stop, -, rfl⟩ := Option.map_eq_some_iff.mp (demand_ok hread).1
    exact nofun
  · cases hrun
    exact hlive

theorem tryTypeArguments_turnsAt (callOnly : Bool) (hs : Room ctx (n + 1) s)
    (hlive : s.cursor.kind ≠ .eof) : TurnsAt ctx s (tryTypeArguments k callOnly) (· = true) := by
  refine .attempt (.bind_right ?_ hs.poised inferInstance inferInstance fun _ t hrun => ?_)
    (hs.clean hlive)
  · exact Halts.halts s hs
  · have ht := hs.course ((inferInstance : Flows ctx splitShift).course s () t hrun)
    exact leavesAt t ht (splitShift_live hrun hlive)

theorem bindingAtom_leaves (binding : Binding) : Leaves ctx (n + 1) (bindingAtom k binding) where
  leavesAt s hs := by
    refine .look rfl ?_
    split
    · exact Leaves.leavesAt s hs
    iterate 2
      · rename_i hkind
        exact .of_kind hs hkind (by decide)
    · exact Leaves.leavesAt s hs

instance : Flows ctx (parameter k) := .of_defined

instance : Leaves ctx n (parameter k) := .of_defined

instance : Halts ctx n (functionParameters k) := .of_defined

/-! ## Functions -/

instance (start : Nat) (bodyless : Bool) : Flows ctx (method k start bodyless) := .of_defined

instance (start : Nat) (bodyless : Bool) : Halts ctx n (method k start bodyless) := .of_defined

/-! ## Expressions -/

/-- An arrow function is tried at a token, and if it is none, what is read instead leaves. -/
theorem tryArrow_leavesAt {g : Bool → Parser Bool} (hs : Room ctx (n + 1) s)
    (hlive : s.cursor.kind ≠ .eof) (htrue : Halts ctx n (g true)) (hflow : Flows ctx (g true))
    (hfalse : LeavesAt ctx s (g false)) : LeavesAt ctx s (tryArrow k >>= g) :=
  .attempt hs (leavesAt s hs hlive) (hs.clean hlive) htrue hflow hfalse

instance : Leaves ctx n memberName := token_or_name_leaves nofun

instance : Departs ctx n (optionalMember k) := by
  unfold optionalMember
  refine .step (fun _ => .step fun kind => ?_) fun _ => .step fun kind => ?_
  · split <;> infer_instance
  · split <;> infer_instance

theorem subscript_turnsAt (noCalls : Bool) (hs : Room ctx (n + 1) s) :
    TurnsAt ctx s (subscript k noCalls) (· = true) := by
  refine .look rfl ?_
  split
  case h_4 hkind =>
    split
    · exact .last (by simp)
    · exact .of_kind hs hkind (by decide)
  case h_5 hkind =>
    refine .of_leaves ?_ (hs.clean (live_of_kind hkind (by decide)))
    exact (template_leavesAt hs hkind).bind_left hs.poised inferInstance inferInstance
      fun _ _ _ hfault => by injection hfault
  case h_6 hkind =>
    refine .looking fun _ => .looking fun _ => ?_
    split
    · exact .of_kind hs hkind (by decide)
    · exact .last (by simp)
  case h_7 hkind =>
    refine .looking fun _ => ?_
    split
    · exact tryTypeArguments_turnsAt k true hs (live_of_kind hkind (by decide))
    · exact .last (by simp)
  case h_8 hkind =>
    refine .looking fun _ => ?_
    split
    · exact tryTypeArguments_turnsAt k true hs (live_of_kind hkind (by decide))
    · exact .last (by simp)
  case h_9 => exact .last (by simp)
  all_goals
    rename_i hkind
    exact .of_kind hs hkind (by decide)

theorem subscripts_halts (noCalls : Bool) : Halts ctx (n + 1) (subscripts k noCalls) := by
  rw [subscripts_eq]
  exact repeatWhile_halts_of_turns (fun _ => subscript_turnsAt k noCalls) inferInstance

instance (noCalls : Bool) : Halts ctx n (subscripts k noCalls) := (subscripts_halts k noCalls).mono

theorem operation_turnsAt (min : Int) (noIn : Bool) (hs : Room ctx (n + 1) s) :
    TurnsAt ctx s (operation k min noIn) (· = true) := by
  refine .looking fun _ => .look rfl (.looking fun _ => ?_)
  split
  · exact .of_departs hs (by grind [Cursor.isWord])
  · refine .look rfl ?_
    split
    · exact .last (by simp)
    · rename_i precedence hprecedence
      have hlive : s.cursor.kind ≠ .eof := by
        intro heof
        rw [heof] at hprecedence
        cases hprecedence
      split
      · exact .last (by simp)
      · exact .of_departs hs hlive

theorem operators_halts (min : Int) (noIn : Bool) : Halts ctx (n + 1) (operators k min noIn) := by
  rw [operators_eq]
  exact repeatWhile_halts_of_turns (fun _ => operation_turnsAt k min noIn) inferInstance

theorem unary_leaves [hatom : Leaves ctx (n + 1) k.atom] : Leaves ctx (n + 1) (unary k) where
  leavesAt s hs := by
    refine .looking fun _ => .looking fun _ => .look rfl ?_
    split
    · exact leavesAt s hs (by grind)
    · refine .look rfl ?_
      split
      · exact leavesAt s hs (by grind)
      · refine .look rfl (.looking fun _ => ?_)
        split
        · exact leavesAt s hs (by grind [Cursor.isWord])
        · have hsubscripts : Halts ctx (n + 1) (subscripts k false) := subscripts_halts k false
          exact Leaves.leavesAt s hs

theorem conditional_leaves (noIn : Bool) [Leaves ctx (n + 1) k.atom] :
    Leaves ctx (n + 1) (conditional k noIn) := by
  have hunary : Leaves ctx (n + 1) (unary k) := unary_leaves k
  have hoperators : Halts ctx (n + 1) (operators k (-1) noIn) := operators_halts k (-1) noIn
  have hbranches : Halts ctx (n + 1) (do
      if ← eat .question then
        k.value
        expect .colon
        k.value noIn
      return false : Parser Bool) :=
    eat_halts nofun inferInstance (inferInstanceAs (Halts ctx (n + 1) (pure false)))
  unfold conditional
  infer_instance

theorem isAssignment_live {k : Kind} (h : k.isAssignment = true) : k ≠ .eof := by
  rintro rfl
  cases h

theorem assignment_leaves (noIn : Bool) [Leaves ctx (n + 1) k.atom] :
    Leaves ctx (n + 1) (assignment k noIn) where
  leavesAt s hs := by
    have hconditional : Leaves ctx (n + 1) (conditional k noIn) := conditional_leaves k noIn
    have hassigned : Halts ctx (n + 1) (do
        if (← kind).isAssignment then nextWithRhs (k.value noIn)
        return false : Parser Bool) := by
      refine ⟨fun t ht => bind_halts (Looks.halts _) ?_⟩
      rintro _ _ ⟨⟩
      split
      · rename_i hkind
        exact (leavesAt t ht (isAssignment_live hkind)).halts
      · exact nofun
    have hrest : Leaves ctx (n + 1) (do
        if ← conditional k noIn then return true
        if (← kind).isAssignment then nextWithRhs (k.value noIn)
        return false : Parser Bool) := inferInstance
    refine .look rfl ?_
    split
    · exact leavesAt s hs (by grind)
    · refine .looking fun _ => .look rfl ?_
      split
      · have hlive : s.cursor.kind ≠ .eof := by grind
        exact .attempt hs (leavesAt s hs hlive) (hs.clean hlive)
          (inferInstanceAs (Halts ctx n (pure true))) (inferInstanceAs (Flows ctx (pure true)))
          (hrest.leavesAt s hs)
      · exact hrest.leavesAt s hs

/-! ## Classes -/

theorem classModifier_turnsAt (hs : Room ctx n s) :
    TurnsAt ctx s classModifier fun found => found.isSome = true := by
  refine .looking fun _ => .look rfl ?_
  split
  · refine .looking fun _ => ?_
    split
    · exact .of_departs hs.succ (by grind [Cursor.isWord])
    · exact .last (by simp)
  · refine .look rfl ?_
    split
    · refine .looking fun _ => ?_
      split
      · exact .of_departs hs.succ (by grind [Cursor.isWord])
      · exact .last (by simp)
    · exact .last (by simp)

instance : Bounded ctx n classModifiers where
  halts m s hs hm := by
    induction m generalizing s with
    | zero => exact absurd hm (Nat.not_lt_zero _)
    | succ m ih =>
      have hturns := classModifier_turnsAt hs
      unfold classModifiers
      refine bind_halts hturns.halts fun found t hrun => ?_
      cases found with
      | none => exact nofun
      | some erases =>
        have hlt := hturns.rounds (some erases) t hrun rfl
        have ht := hs.course ((inferInstance : Flows ctx classModifier).course s _ t hrun)
        exact bind_halts (ih t ht (by omega)) fun _ _ _ => nofun

instance : Looks ctx isIndexSignature :=
  peek_looks fun s => bind_halts nofun fun _ t _ =>
    bind_halts (eat_halts_at .name t) fun b u _ => by
      cases b
      · exact nofun
      · exact nofun

instance : Leaves ctx n (memberOrSemicolon k) :=
  @eat_or_leaves _ _ _ _ _ nofun _ _ (inferInstanceAs (Leaves ctx n (classMember k)))

instance : Halts ctx n (classTail k) := .of_defined

/-! ## Elements -/

instance (start : Nat) : Flows ctx (k.element start) := hflow.element start

theorem nameRound_turnsAt (name : String) (hs : Room ctx n s) :
    TurnsAt ctx s (nameRound name) (·.isLeft) := by
  refine .look rfl ?_
  split
  · rename_i hkind
    exact .of_kind hs.succ (beq_iff_eq.mp hkind) (by decide)
  · exact .last (by simp)

instance (name : String) : Bounded ctx n (dottedTagName name) :=
  .of_rounds dottedTagName_succ (fun name _ => nameRound_turnsAt name) inferInstance name

instance : Halts ctx n (attributeValue k) := by
  unfold attributeValue
  refine .step fun kind => ?_
  split <;> infer_instance

theorem tagAttribute_leaves : Leaves ctx (n + 1) (tagAttribute k) where
  leavesAt s hs := by
    refine .look rfl ?_
    split
    · exact Leaves.leavesAt s hs
    · exact leavesAt s hs (by grind)

theorem attributeRound_turnsAt (seen : Attributes) (hs : Room ctx (n + 1) s) :
    TurnsAt ctx s (attributeRound k seen) (·.isLeft) := by
  refine .look rfl (.look rfl ?_)
  split
  · exact .last (by simp)
  · rename_i hgoes
    refine .look rfl ?_
    split
    · rename_i hkind
      exact .of_kind hs (beq_iff_eq.mp hkind) (by decide)
    · have hclean : s.cursor.error = none := by
        simp only [Bool.or_eq_true, not_or, Bool.not_eq_true, Option.isSome_eq_false_iff,
          Option.isNone_iff_eq_none] at hgoes
        exact hgoes.2
      have hleaves := (tagAttribute_leaves k).leavesAt s hs
      exact .look rfl (.of_leaves (hleaves.bind_pure _) hclean)

theorem tagAttributes_bounded (seen : Attributes) : Bounded ctx (n + 1) (tagAttributes k seen) :=
  .of_rounds (tagAttributes_succ k) (fun seen _ => attributeRound_turnsAt k seen) inferInstance seen

/-- Between tags something has to follow. -/
instance : Leaves ctx n (advance .child) where
  leavesAt s hs :=
    { halts := nofun
      spends := by
        rintro hclean _ _ ⟨⟩
        exact Cursor.credit_advance_child_lt hs.poised hclean }

theorem child_leaves (name : Option String) : Leaves ctx (n + 1) (child k name) where
  leavesAt s hs := by
    have hfirst : LeavesAt ctx s (advance .child) := Leaves.leavesAt s hs
    have hflow : Flows ctx (advance .child) := inferInstance
    refine hfirst.bind_left hs.poised hflow (fun _ => ?_) fun _ t hrun => ?_
    · refine .step fun kind => ?_
      split <;> infer_instance
    · have hcourse := hflow.course s () t hrun
      cases herror : s.cursor.error with
      | none =>
        have ht := hs.spent hcourse (hfirst.spends herror () t hrun)
        refine (@Halts.halts _ ctx n _ ?_) t ht
        refine .step fun kind => ?_
        split <;> infer_instance
      | some e =>
        -- after an error there is no child
        have hfailed := hcourse.failed hs.poised (by rw [herror]; rfl)
        have hkind := (hcourse.poised hs.poised).failed hfailed
        refine bind_halts (Looks.halts _) ?_
        rintro _ _ ⟨⟩
        rw [hkind]
        rintro ⟨⟩

instance (name : Option String) (count : Nat) : Flows ctx (childRound k name count) := by
  unfold childRound
  refine .step fun found => ?_
  split <;> infer_instance

theorem childRound_turnsAt (name : Option String) (count : Nat)
    (hs : Room ctx (n + 1) s) : TurnsAt ctx s (childRound k name count) (·.isLeft) := by
  have hleaves := (child_leaves k name).leavesAt s hs
  constructor
  · refine bind_halts hleaves.halts fun found t _ => ?_
    cases found with
    | closing => exact nofun
    | broken => exact nofun
    | counts more =>
      refine bind_halts (Looks.halts _) fun b _ _ => ?_
      cases b <;> rintro ⟨⟩
  · intro b u hrun hmore
    obtain ⟨found, t, hchild, hrest⟩ := bind_ok hrun
    cases found with
    | closing =>
      cases hrest
      cases hmore
    | broken =>
      cases hrest
      cases hmore
    | counts more =>
      obtain ⟨_, _, ⟨⟩, hrest⟩ := bind_ok hrest
      split at hrest
      · cases hrest
        cases hmore
      · rename_i hgoes
        cases hrest
        have hcourse := (inferInstance : Flows ctx (child k name)).course s _ u hchild
        have hclean : s.cursor.error = none := by
          cases herror : s.cursor.error with
          | none => rfl
          | some e => exact absurd (hcourse.failed hs.poised (by rw [herror]; rfl)) hgoes
        exact hleaves.spends hclean _ u hchild

theorem children_bounded (name : Option String) (count : Nat) :
    Bounded ctx (n + 1) (children k name count) :=
  .of_rounds (children_succ k name) (fun count _ => childRound_turnsAt k name count) inferInstance
    count

theorem element_flows (start : Nat) : Flows ctx (element k start) := by
  unfold element
  refine .step fun name => .step fun _ => ?_
  split
  all_goals
    refine .step fun found => ?_
    dsimp only
    split
    · infer_instance
    · refine .step fun _ => ?_
      split
      · infer_instance
      · refine .step fun _ => ?_
        split
        · refine .step fun count => ?_
          split <;> infer_instance
        · infer_instance

theorem element_halts (start : Nat) : Halts ctx (n + 1) (element k start) where
  halts s hs := by
    refine bind_halts (Halts.halts s hs) fun name t hname => ?_
    have ht := hs.course ((inferInstance : Flows ctx (tagName? true)).course s name t hname)
    have hattributes : Halts ctx (n + 1) (tagAttributes k {} ctx.budget) :=
      ⟨fun u hu => (tagAttributes_bounded k {}).halts _ u hu hu.fits⟩
    have hchildren : Halts ctx (n + 1) (children k name 0 ctx.budget) :=
      ⟨fun u hu => (children_bounded k name 0).halts _ u hu hu.fits⟩
    refine bind_halts (p := (read : Parser Context)) (Looks.halts _) ?_
    rintro _ _ ⟨⟩
    refine (@Halts.halts _ ctx (n + 1) _ ?_) t ht
    dsimp only
    -- what follows the attributes is the same, whether or not there is a name to have some
    split
    all_goals
      refine .step fun found => ?_
      split
      · infer_instance
      · refine .step fun _ => ?_
        split
        · infer_instance
        · refine .step fun _ => ?_
          split
          · refine .step fun count => ?_
            split <;> infer_instance
          · infer_instance

theorem elementExpression_leavesAt {g : Unit → Parser Bool} [∀ a, Halts ctx n (g a)]
    [∀ a, Flows ctx (g a)] (hs : Room ctx (n + 1) s) (hkind : s.cursor.kind = .lessThan) :
    LeavesAt ctx s (elementExpression k >>= g) := by
  have hsolid := solid_of_kind hkind (by decide)
  have hcredit : { s.cursor with kind := .jsxTagStart }.credit = s.cursor.credit := by
    simp [Cursor.credit, hsolid.2]
  have hcourse : Course ctx.source.text s
      { s with cursor := { s.cursor with kind := .jsxTagStart } } :=
    .of_turned fun h => Cursor.kind_turned h hsolid (by decide)
  have hrest :
      Departs ctx n ((position >>= fun start => nextInTag >>= fun _ => k.element start) >>= g) :=
    inferInstance
  exact (hrest.leavesAt _ (hs.course hcourse) nofun).of_run rfl hcredit rfl

/-! ## Atoms -/

theorem nameAtom_leavesAt (hs : Room ctx (n + 1) s) (hkind : s.cursor.kind = .name) :
    LeavesAt ctx s (nameAtom k) := by
  have hlive := live_of_kind hkind (by decide)
  refine .looking fun ahead => .look rfl ?_
  have hrest : LeavesAt ctx s (if (ahead.kind == .arrow && !ahead.lineBreakBefore) = true then
      nameArrow k else identifier (some .access) >>= fun _ => pure false) := by
    split
    · exact leavesAt s hs hlive
    · exact Leaves.leavesAt s hs
  dsimp only
  split
  · split
    · exact leavesAt s hs hlive
    · exact leavesAt s hs hlive
    · exact .attempt hs (leavesAt s hs hlive) (hs.clean hlive)
        (inferInstanceAs (Halts ctx n (pure true))) (inferInstanceAs (Flows ctx (pure true))) hrest
    · exact hrest
  · exact hrest

theorem decoratedClass_leavesAt (hs : Room ctx (n + 1) s)
    (hkind : s.cursor.kind = .atSign) : LeavesAt ctx s (decoratedClass k) := by
  have hfirst := decorators_leavesAt k hs hkind
  have hflow : Flows ctx (decorators k) := inferInstance
  refine hfirst.bind_left hs.poised hflow inferInstance fun _ t hrun => ?_
  have hclean := hs.clean (live_of_kind hkind (by decide))
  exact Halts.halts t (hs.spent (hflow.course s () t hrun) (hfirst.spends hclean () t hrun))

/-- A regular expression is a token, or it does not end. -/
theorem regex_leavesAt (hs : Room ctx n s) (hsolid : s.cursor.kind.Solid) :
    LeavesAt ctx s regex where
  halts := bind_halts (p := (read : Parser Context)) (Looks.halts _) <| by
    rintro _ _ ⟨⟩
    exact bind_halts (Halts.halts s hs) fun _ _ _ => by rintro ⟨⟩
  spends hclean b u hrun := by
    obtain ⟨_, _, ⟨⟩, hrun⟩ := bind_ok hrun
    obtain ⟨_, t, hreread, ⟨⟩⟩ := bind_ok hrun
    obtain ⟨_, _, ⟨⟩, hreread⟩ := bind_ok hreread
    obtain ⟨c, _, hread, ⟨⟩⟩ := bind_ok hreread
    have hregex := (demand_ok hread).1
    have hturned := Cursor.asRegex?_turned hregex hsolid hs.poised
    rcases hturned.same with ⟨herror, hcredit⟩ | ⟨-, hfailed⟩
    · rw [← hcredit]
      obtain ⟨m, -, rfl⟩ := Cursor.asRegex_eq hregex (herror.trans hclean)
      exact Cursor.credit_advance_lt hturned.poised (by rintro ⟨⟩) (by rintro ⟨⟩)
    · have hle : (c.advance ctx.source .code).credit ≤ c.credit :=
        Cursor.credit_advance_le hturned.poised
      rw [Cursor.credit_of_failed hturned.poised hfailed] at hle
      exact Nat.lt_of_le_of_lt hle (Cursor.credit_pos hclean)

theorem atom_leaves : Leaves ctx (n + 1) (atom k) where
  leavesAt s hs := by
    refine .look rfl ?_
    split
    case h_1 hkind => exact nameAtom_leavesAt k hs hkind
    case h_2 hkind =>
      have hlive := live_of_kind hkind (by decide)
      exact tryArrow_leavesAt k hs hlive (inferInstanceAs (Halts ctx n (pure true)))
        (inferInstanceAs (Flows ctx (pure true)))
        (leavesAt (p := group k >>= fun _ => pure false) s hs hlive)
    case h_3 =>
      split
      case h_1 hkind =>
        exact (regex_leavesAt hs (solid_of_kind hkind (by decide))).bind_pure _
      case h_2 hkind =>
        refine .look rfl ?_
        split
        · exact (regex_leavesAt hs (solid_of_kind hkind (by decide))).bind_pure _
        · exact Leaves.leavesAt s hs
      case h_3 hkind =>
        refine .look rfl ?_
        split
        · exact elementExpression_leavesAt k hs hkind
        · exact Leaves.leavesAt s hs
      case h_18 hkind => exact (decoratedClass_leavesAt k hs hkind).bind_pure _
      case h_20 hkind => exact (template_leavesAt hs hkind).bind_pure _
      case h_22 => exact Leaves.leavesAt s hs
      all_goals
        rename_i hkind
        exact .of_kind hs hkind (by decide)

/-! ## Types -/

instance : Leaves ctx n (signature k) := .of_defined

instance : Halts ctx n (memberType k) := .of_defined

instance : Leaves ctx n (typeMember k) := .of_defined

instance : Departs ctx n (mappedType k) := .of_defined

/-- The braces of a type hold a mapped type or members. -/
theorem bracedType_leavesAt (hs : Room ctx (n + 1) s) (hlive : s.cursor.kind ≠ .eof) :
    LeavesAt ctx s (do if !(← tryMappedType k) then objectType k) := by
  have hobject : LeavesAt ctx s (objectType k) := leavesAt s hs hlive
  unfold tryMappedType
  rw [bind_assoc]
  refine .look rfl ?_
  split
  · exact .attempt hs (leavesAt s hs hlive) (hs.clean hlive)
      (inferInstanceAs (Halts ctx n (pure ()))) (inferInstanceAs (Flows ctx (pure ()))) hobject
  · exact .look rfl hobject

theorem primaryType_leaves : Leaves ctx (n + 1) (primaryType k) where
  leavesAt s hs := by
    refine .look rfl ?_
    split
    case h_13 hkind => exact bracedType_leavesAt k hs (live_of_kind hkind (by decide))
    case h_14 hkind => exact bracedType_leavesAt k hs (live_of_kind hkind (by decide))
    case h_17 hkind => exact template_leavesAt hs hkind
    case h_19 => exact Leaves.leavesAt s hs
    all_goals
      rename_i hkind
      exact .of_kind hs hkind (by decide)

theorem arrayType_leaves : Leaves ctx (n + 1) (arrayType k) := by
  have hprimary : Leaves ctx (n + 1) (primaryType k) := primaryType_leaves k
  have hbrackets : Halts ctx (n + 1) (whileTrue eatBracket (indexedType k)) :=
    whileTrue_halts_of_test
  rw [arrayType_eq]
  infer_instance

theorem typeOperator_leaves : Leaves ctx (n + 1) (typeOperator k) where
  leavesAt s hs := by
    refine .look rfl (.looking fun _ => ?_)
    split
    · exact leavesAt s hs (by grind [Cursor.isWord])
    · refine .look rfl (.looking fun _ => ?_)
      split
      · exact leavesAt s hs (by grind [Cursor.isWord])
      · refine .looking fun _ => .look rfl ?_
        split
        · exact leavesAt s hs (by grind)
        · exact (arrayType_leaves k).leavesAt s hs

theorem unionType_leaves : Leaves ctx (n + 1) (unionType k) := by
  have hoperator : Leaves ctx (n + 1) (typeOperator k) := typeOperator_leaves k
  unfold unionType intersectionType
  infer_instance

/-- The type of a constructor, from `new` or `abstract new` on. -/
theorem constructorType_leavesAt (hs : Room ctx (n + 1) s)
    (hlive : s.cursor.kind ≠ .eof) : LeavesAt ctx s (do
      discard (eatWord .kwAbstract)
      next
      if ← seeing .lessThan then typeParameters k
      functionType k) := by
  rw [discard_bind]
  refine .bind_either hs (eatWord_halts_at _ s) inferInstance inferInstance inferInstance
    fun eaten t hrun => ?_
  rcases eatWord_cases hrun with ⟨rfl, -, -⟩ | ⟨rfl, rfl⟩
  · exact .inl (eatWord_spends hs.poised hrun)
  · exact .inr ⟨rfl, leavesAt t hs hlive⟩

theorem plainType_leaves : Leaves ctx (n + 1) (plainType k) where
  leavesAt s hs := by
    refine .look rfl ?_
    split
    · rename_i hkind
      exact .of_kind hs (beq_iff_eq.mp hkind) (by decide)
    · have hrest : LeavesAt ctx s (do
          if (← seeing .kwNew) || ((← seeingWord .kwAbstract) && (← beforeAny [.kwNew])) then
            discard (eatWord .kwAbstract)
            next
            if ← seeing .lessThan then typeParameters k
            functionType k
          else unionType k) := by
        refine .look rfl (.look rfl (.looking fun _ => ?_))
        split
        · exact constructorType_leavesAt k hs (by grind [Cursor.isWord])
        · exact (unionType_leaves k).leavesAt s hs
      rw [bind_assoc]
      refine .look rfl ?_
      split
      · rename_i hkind
        have hlive := live_of_kind (beq_iff_eq.mp hkind) (by decide)
        exact .attempt hs (leavesAt s hs hlive) (hs.clean hlive)
          (inferInstanceAs (Halts ctx n (pure ()))) (inferInstanceAs (Flows ctx (pure ()))) hrest
      · exact .look rfl hrest

instance : Leaves ctx n (plainType k) := (plainType_leaves k).mono

theorem type_leaves : Leaves ctx (n + 1) (type k) := by
  have hplain : Leaves ctx (n + 1) (plainType k) := plainType_leaves k
  have hextends : Halts ctx (n + 1) (do
      if ← eat .kwExtends then
        plainType k
        expect .question
        k.type
        expect .colon
        k.type) :=
    eat_halts nofun inferInstance (inferInstanceAs (Halts ctx (n + 1) (pure ())))
  unfold type
  infer_instance

end Rules

end Downlevel.Grammar
