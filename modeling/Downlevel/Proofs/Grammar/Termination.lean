import Mathlib.Data.Prod.Lex
import Downlevel.Proofs.Grammar.Halting

/-!
# Parsing ends

Statements halt as the other productions do, and so the whole grammar does, for every text.
-/

namespace Downlevel.Grammar

variable {ctx : Context} {n : Nat}

section Rules

set_option synthInstance.maxSize 1000000

variable (k : Knot) [k.Flowing ctx] [k.Halting ctx n]

/-! ## Declarations -/

instance : Leaves ctx n (enumerationMember k) :=
  @eat_or_leaves _ _ _ _ _ nofun
    (inferInstanceAs (Halts ctx n (initializer k false)))
    (inferInstanceAs (Flows ctx (initializer k false)))
    (inferInstanceAs (Leaves ctx n (identifierName >>= fun _ => initializer k false)))

instance : Halts ctx n (objectType k) := .of_defined

instance : Departs ctx n (interfaceDeclaration k) := .of_defined

/-! ## Imports and exports -/

instance : Looks ctx isTypeSpecifier := by
  have hahead : Looks ctx (peek do
      next
      next
      seeingAny [.name, .string]) := peek_looks fun _ => nofun
  unfold isTypeSpecifier
  refine .step fun _ => .step fun _ => ?_
  split
  · infer_instance
  · refine .step fun ahead => ?_
    split <;> infer_instance

instance : Looks ctx isTypeImport := by
  unfold isTypeImport
  refine .step fun _ => .step fun _ => .step fun _ => ?_
  split
  · infer_instance
  · refine .step fun ahead => ?_
    split <;> infer_instance

instance (index : Nat) : Flows ctx (markExport index) where
  course _ _ _ hrun := (markExport_above (Nat.zero_le _) (Nat.zero_le _) hrun).course

instance (locals : List Nat) : Flows ctx (markExports locals) where
  course _ _ _ hrun := (markExports_above (Nat.zero_le _) (fun _ _ => Nat.zero_le _) hrun).course

instance (index : Nat) : Halts ctx n (markExport index) where
  halts s hs := by
    refine bind_halts (p := (get : Parser State)) (Looks.halts _) ?_
    rintro _ _ ⟨⟩
    have hthrow : Looks ctx (throw (.missingLocal index s.tokens s.cursor.error) : Parser Unit) :=
      throw_looks nofun
    cases s.tokens[index]? with
    | none => exact hthrow.halts s
    | some tok =>
      dsimp only
      split
      · exact Halts.halts s hs
      · exact nofun

instance (locals : List Nat) : Halts ctx n (markExports locals) := by
  unfold markExports
  induction locals with
  | nil => exact inferInstanceAs (Halts ctx n (pure ()))
  | cons index rest ih =>
    rw [List.forM_eq_forM, List.forM_cons]
    infer_instance

theorem exportRound_turnsAt {s : State} (locals : List Nat) (hs : Room ctx n s) :
    TurnsAt ctx s (exportRound locals) (·.isLeft) := by
  refine .look rfl ?_
  split
  · exact .last (by simp)
  · rename_i hany
    have hlive : s.cursor.kind ≠ .eof := by
      intro heof
      rw [heof] at hany
      exact hany rfl
    exact .of_departs hs.succ hlive

instance (locals : List Nat) : Bounded ctx n (exportSpecifiers locals) :=
  .of_rounds exportSpecifiers_succ (fun locals _ => exportRound_turnsAt locals) inferInstance locals

instance : Halts ctx n (importSource k) := .of_defined

instance : Halts ctx n (importClause k) := .of_defined

instance : Halts ctx n (exportClause k) := .of_defined

/-! ## Statements -/

omit [k.Halting ctx n] in
instance : Flows ctx (exportStatement k) := by
  have hdefault : ∀ start, Keeps ctx 0 0 (exportDefault k start) :=
    fun _ => exportDefault_keeps k (Nat.zero_le _)
  unfold exportStatement
  exact .step fun start => inferInstance

instance (optionalName : Bool) : Halts ctx n (classStatement k optionalName) := .of_defined

omit [k.Flowing ctx] [k.Halting ctx n] in
instance (kind : StatementKind) (start index : Nat) :
    Halts ctx n (exportedKind kind start index) := .of_defined

instance (start : Nat) : Halts ctx n (exportDefault k start) := by
  unfold exportDefault
  refine .step fun _ => .step fun _ => .step fun _ => .step fun _ => .step fun _ => ?_
  split
  · infer_instance
  · refine .step fun _ => ?_
    split <;> infer_instance

instance : Halts ctx n (forInitializer k) := by
  unfold forInitializer
  refine .step fun kind => ?_
  split <;> infer_instance

/-- A part of a `switch` begins with `case`, with `default` or with a statement. -/
instance : Leaves ctx n (switchPart k) := by
  have hdefault : Leaves ctx n (do
      if ← eat .kwDefault then expect .colon
      else discard k.statement) :=
    @eat_or_leaves _ _ _ _ _ nofun inferInstance inferInstance
      (inferInstanceAs (Leaves ctx n (discard k.statement)))
  exact @eat_or_leaves _ _ _ _ _ nofun inferInstance inferInstance hdefault

omit [k.Halting ctx n] in
theorem expressionStatement_leaves [Leaves ctx (n + 1) (k.assignment false)] :
    Leaves ctx (n + 1) (expressionStatement k) := by
  have hvalue : Leaves ctx (n + 1) (k.value false) := by
    unfold Knot.value
    infer_instance
  unfold expressionStatement Knot.expression
  infer_instance

theorem nameStatement_leavesAt [Leaves ctx (n + 1) (k.assignment false)] {s : State}
    (hs : Room ctx (n + 1) s) (hkind : s.cursor.kind = .name) :
    LeavesAt ctx s (nameStatement k) := by
  have hlive : s.cursor.kind ≠ .eof := by
    rw [hkind]
    decide
  have hexpression := (expressionStatement_leaves k).leavesAt s hs
  have hdeparts : ∀ {p : Parser StatementKind} [Departs ctx n p], LeavesAt ctx s p :=
    fun {p} _ => Departs.leavesAt s hs hlive
  refine .looking fun ahead => ?_
  dsimp only
  split
  · exact hdeparts
  · refine .look rfl (.looking fun d => .look rfl ?_)
    split
    all_goals first
      | exact hexpression
      | split
        · exact hdeparts
        · exact hexpression

theorem statement_leaves [Leaves ctx (n + 1) (k.assignment false)] :
    Leaves ctx (n + 1) (statement k) where
  leavesAt s hs := by
    have hexpression : Leaves ctx (n + 1) (expressionStatement k) := expressionStatement_leaves k
    have hdecorators : Flows ctx (decorators k) := inferInstance
    refine .bind_right ((decorators_halts k).halts s hs) hs.poised hdecorators (fun _ => ?_)
      fun _ t hrun => ?_
    · refine .step fun kind => ?_
      split <;> infer_instance
    · have ht := hs.course (hdecorators.course s () t hrun)
      refine .look rfl ?_
      split
      case h_22 hkind => exact nameStatement_leavesAt k ht hkind
      case h_23 => exact hexpression.leavesAt t ht
      all_goals rename_i hkind
      all_goals
        have hlive : t.cursor.kind ≠ .eof := by
          rw [hkind]
          decide
        exact Departs.leavesAt t ht hlive

end Rules

/-! ## The grammar -/

/-- How far a rule may go before its first token: a statement begins with an expression, and an
expression with an atom. -/
def Rule.rank : Rule → Nat
  | .statement => 2
  | .assignment _ | .unary => 1
  | _ => 0

/-- What gets smaller from a rule to the rules it uses: the credit or else the rank. -/
def Rule.measure (r : Rule) (s : State) : Nat ×ₗ Nat := toLex (s.cursor.credit, r.rank)

/-- The rule `r`, started in `s`, meets no bound, and does not come to its end without a token or an
error if it is one that takes. -/
structure Knot.EndsAt (ctx : Context) (k : Knot) (r : Rule) (s : State) : Prop where
  halts : k r ctx s ≠ .error .outOfFuel
  leaves : r.Takes → LeavesAt ctx s (k r)

section Grammar

variable {k : Knot} {r : Rule} {s : State}

theorem Rule.rank_le (r : Rule) : r.rank ≤ 2 := by
  cases r <;> simp [Rule.rank]

theorem Rule.measure_lt_iff {r r' : Rule} {s s' : State} : r'.measure s' < r.measure s ↔
    s'.cursor.credit < s.cursor.credit ∨
      s'.cursor.credit = s.cursor.credit ∧ r'.rank < r.rank := Prod.Lex.toLex_lt_toLex

theorem Knot.EndsAt.of_leaves (h : LeavesAt ctx s (k r)) : k.EndsAt ctx r s := ⟨h.halts, fun _ => h⟩

theorem Knot.Flowing.flows (h : k.Flowing ctx) (r : Rule) : Flows ctx (k r) := by
  have hkeeps : ∀ r', r'.Within 0 0 → Flows ctx (k r') :=
    fun r' hwithin => @Flows.of_keeps _ _ _ (h.toKeeping.rule 0 0 r' hwithin)
  cases r with
  | element start => exact h.element start
  | _ => exact hkeeps _ trivial

theorem production_flowing (k : Knot) [k.Flowing ctx] : (production k).Flowing ctx where
  toKeeping := production_keeping k
  element := element_flows k

instance grammar_flowing (m : Nat) : (grammar m).Flowing ctx := by
  induction m with
  | zero =>
    refine { toKeeping := grammar_keeping 0, element := fun start => ⟨?_⟩ }
    rintro _ _ _ ⟨⟩
  | succ m ih => exact production_flowing (grammar m)

/-- A production uses rules with a smaller measure only: it meets no bound if they meet none. -/
theorem production_endsAt [k.Flowing ctx] (hs : s.cursor.Poised ctx.source.text)
    (hfits : s.cursor.credit < ctx.budget)
    (hbelow : ∀ (r' : Rule) (s' : State), s'.cursor.Poised ctx.source.text →
      r'.measure s' < r.measure s → k.EndsAt ctx r' s') :
    (production k).EndsAt ctx r s := by
  have hroom : Room ctx (s.cursor.credit + 1) s := ⟨hs, Nat.lt_succ_self _, hfits⟩
  have hless : ∀ (r' : Rule) (s' : State), Room ctx s.cursor.credit s' → k.EndsAt ctx r' s' :=
    fun r' s' hs' => hbelow r' s' hs'.poised (Rule.measure_lt_iff.mpr (.inl hs'.below))
  have hhalting : k.Halting ctx s.cursor.credit :=
    { halts := fun r' => ⟨fun s' hs' => (hless r' s' hs').halts⟩
      leaves := fun r' htakes => ⟨fun s' hs' => (hless r' s' hs').leaves htakes⟩ }
  have hlower : ∀ r' : Rule, r'.Takes → r'.rank < r.rank →
      Leaves ctx (s.cursor.credit + 1) (k r') := by
    refine fun r' htakes hrank => ⟨fun s' hs' => (hbelow r' s' hs'.poised ?_).leaves htakes⟩
    have hle := Nat.lt_succ_iff.mp hs'.below
    exact Rule.measure_lt_iff.mpr ((Nat.lt_or_eq_of_le hle).imp id fun heq => ⟨heq, hrank⟩)
  cases r with
  | statement =>
    have hassignment : Leaves ctx (s.cursor.credit + 1) (k.assignment false) :=
      hlower (.assignment false) trivial Nat.one_lt_two
    exact .of_leaves ((statement_leaves k).leavesAt s hroom)
  | assignment noIn =>
    have hatom : Leaves ctx (s.cursor.credit + 1) k.atom := hlower .atom trivial Nat.zero_lt_one
    exact .of_leaves ((assignment_leaves k noIn).leavesAt s hroom)
  | operators min noIn => exact ⟨(operators_halts k min noIn).halts s hroom, nofun⟩
  | unary =>
    have hatom : Leaves ctx (s.cursor.credit + 1) k.atom := hlower .atom trivial Nat.zero_lt_one
    exact .of_leaves ((unary_leaves k).leavesAt s hroom)
  | atom => exact .of_leaves ((atom_leaves k).leavesAt s hroom)
  | type => exact .of_leaves ((type_leaves k).leavesAt s hroom)
  | plainType => exact .of_leaves ((plainType_leaves k).leavesAt s hroom)
  | typeOperator => exact .of_leaves ((typeOperator_leaves k).leavesAt s hroom)
  | bindingAtom binding => exact .of_leaves ((bindingAtom_leaves k binding).leavesAt s hroom)
  | element start => exact ⟨(element_halts k start).halts s hroom, nofun⟩

/-- Rules that may nest more deeply than three times the credit meet no bound. -/
theorem grammar_endsAt {m : Nat} (hs : s.cursor.Poised ctx.source.text)
    (hfits : s.cursor.credit < ctx.budget) (hm : 3 * s.cursor.credit + r.rank < m) :
    (grammar m).EndsAt ctx r s := by
  induction m generalizing r s with
  | zero => exact absurd hm (Nat.not_lt_zero _)
  | succ m ih =>
    refine production_endsAt hs hfits fun r' s' hs' hlt => ih hs' ?_ ?_
    · rcases Rule.measure_lt_iff.mp hlt with hcredit | ⟨hcredit, -⟩ <;> omega
    · have hrank := r'.rank_le
      rcases Rule.measure_lt_iff.mp hlt with hcredit | ⟨hcredit, hrank'⟩ <;> omega

theorem grammar_halting {m : Nat} (hm : 3 * n ≤ m) : (grammar m).Halting ctx n := by
  have hends : ∀ (r : Rule) (s : State), Room ctx n s → (grammar m).EndsAt ctx r s := by
    intro r s hs
    have hrank := r.rank_le
    have hbelow := hs.below
    exact grammar_endsAt hs.poised hs.fits (by omega)
  exact { halts := fun r => ⟨fun s hs => (hends r s hs).halts⟩
          leaves := fun r htakes => ⟨fun s hs => (hends r s hs).leaves htakes⟩ }

end Grammar

/-! ## Snippets -/

section Snippets

set_option synthInstance.maxSize 1000

variable (k : Knot) [k.Flowing ctx] [k.Halting ctx n]

instance (seen : Array Statement) : Flows ctx (statementRound k seen) := by
  unfold statementRound
  refine .step fun _ => ?_
  split
  · infer_instance
  · refine .step fun found => ?_
    split <;> infer_instance

theorem statementRound_turnsAt {s : State} (seen : Array Statement) (hs : Room ctx n s) :
    TurnsAt ctx s (statementRound k seen) (·.isLeft) := by
  refine .look rfl ?_
  split
  · exact .last (by simp)
  · rename_i hne
    have hlive : s.cursor.kind ≠ .eof := by
      intro heof
      rw [heof] at hne
      exact hne rfl
    have hleaves : LeavesAt ctx s (topLevelStatement k) := Leaves.leavesAt s hs
    refine .of_leaves (hleaves.bind_left hs.poised inferInstance (fun found => ?_) fun found _ _ =>
      ?_)
      (hs.clean hlive)
    · split <;> infer_instance
    · cases found <;> exact nofun

instance (seen : Array Statement) : Bounded ctx n (topLevel k seen) :=
  .of_rounds (topLevel_succ k) (fun seen _ => statementRound_turnsAt k seen) inferInstance seen

end Snippets

end Downlevel.Grammar
