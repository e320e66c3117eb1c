import Downlevel.Proofs.Lowering.Writes

/-!
# Names, types, modules and enumerations

Each of these constructs leaves the editor ready if what is nested in it does (`Knot.Safe`). The
tokens that they leave out belong to types or have a kind that ends no template piece.
-/

namespace Downlevel.Lowering

variable {c : Scene} {d : Draft} {ks : List Kind}

/-- The lowering of nested constructs leaves the editor in order. -/
class Knot.Safe (c : Scene) (k : Knot) : Prop where
  token : ∀ {d : Draft}, d.editor.Ready c.sheet → Carries c d k.token
  element : ∀ {d : Draft}, d.editor.Calm c.sheet → Settles c d k.element

/-! ## Names -/

variable [c.Intact]

theorem name_settles (h : d.editor.Calm c.sheet) (hwide : d.editor.Wide c.sheet) :
    Settles c d name := by
  refine .look c rfl (.look d.editor.index rfl ?_)
  split
  · exact Obeys.writes h
  · exact copy_settles h.ready hwide

/-! ## Imports and exports -/

section Nested

variable {k : Knot} [hk : k.Safe c]

omit [c.Intact] in
instance : Obeys c (.ready c) k.token := Writes.obeys fun _ => hk.token

omit [c.Intact] in
instance : Obeys c (.calm c) k.element := Writes.obeys fun _ => hk.element

section

variable (h : d.editor.Calm c.sheet)
include h

theorem exportedDeclaration_carries (statement : Statement) :
    Carries c d (exportedDeclaration k statement) := by
  refine .look c.sheet rfl (.look (d.editor.current c.sheet) rfl ?_)
  refine .keeping h fun _ _ h => .keeping h fun _ _ h => ?_
  exact .keeping h.ready fun _ _ h => Obeys.writes h

theorem exported_carries (statement : Statement) : Carries c d (exported k statement) := by
  refine .look c rfl ?_
  split
  · exact Obeys.carries h
  · exact Obeys.carries h
  · exact exportedDeclaration_carries h statement

theorem exportedDefault_carries (statement : Statement) :
    Carries c d (exportedDefault k statement) := by
  refine .look c.sheet rfl ?_
  split
  · refine .keeping h fun _ _ h => .keeping h fun _ _ h => .keeping h fun _ _ h => ?_
    exact .keeping h.ready fun _ _ h => Obeys.writes h
  · exact .keeping h fun _ _ h => .keeping h fun _ _ h => Obeys.writes h.ready

theorem moduleStatement_carries (hwide : d.editor.Wide c.sheet)
    (statement : Statement) : Carries c d (moduleStatement k statement) := by
  unfold moduleStatement
  split
  · exact Obeys.carries h
  · exact exportedDefault_carries h statement
  · exact exported_carries h statement
  · exact (copy_settles h.ready hwide).carries

/-! ## Enumerations -/

omit [c.Intact] hk in
theorem append_sees (hsees : d.editor.sees c.sheet ks = true) (code : String) :
    Writes c d (append code) fun _ e => e.Calm c.sheet ∧ e.sees c.sheet ks = true := by
  refine edit_writes (Editor.reaches_append ..) ⟨h.append code, ?_⟩
  unfold Editor.append
  split <;> exact hsees

omit hk in
theorem copy_sees {kind next : Kind}
    (hsees : d.editor.sees c.sheet (kind :: next :: ks) = true) (hkind : kind ≠ .template) :
    Writes c d copy fun _ e => e.Calm c.sheet ∧ e.sees c.sheet (next :: ks) = true := by
  obtain ⟨body, last, hwhole⟩ := Scene.Intact.whole (c := c)
  exact edit_writes (Editor.reaches_edit ..)
    ⟨h.edit hwhole false fun _ => Editor.wide_of_kind (Editor.kind_of_sees hsees) hkind,
      Editor.sees_edit hwhole hsees _ _⟩

omit hk in
theorem stringMember_settles
    (hsees : d.editor.sees c.sheet (.eq :: .string :: ks) = true) (enumeration : String)
    (m : MemberName) : Settles c d (stringMember enumeration m) := by
  have hcopies : ∀ {d : Draft} (code : String), d.editor.Calm c.sheet →
      d.editor.sees c.sheet (.eq :: .string :: ks) = true →
      Settles c d (do copy; copy; append code) := by
    intro d code h hsees
    refine (copy_sees h hsees (by decide)).bind fun _ _ hd => ?_
    obtain ⟨h, hsees⟩ := hd
    have hwide := Editor.wide_of_kind (Editor.kind_of_sees hsees) (by decide)
    exact (copy_settles h.ready hwide).bind fun _ _ h => Obeys.writes h
  unfold stringMember
  split <;> exact (append_sees h hsees _).bind fun _ _ hd => hcopies _ hd.1 hd.2

theorem initializedMember_settles
    (hsees : d.editor.sees c.sheet [.eq] = true) (enumeration : String) (m : MemberName) :
    Settles c d (initializedMember k enumeration m) := by
  have hvalue : ∀ {d : Draft} (stop : Nat) {code : String}, code.toList ≠ [] →
      d.editor.Calm c.sheet → d.editor.sees c.sheet [.eq] = true →
      Settles c d (do copy; upTo stop k.token; append code) := by
    intro d stop code hcode h hsees
    have hwide := Editor.wide_of_kind (Editor.kind_of_sees hsees) (by decide)
    refine (copy_settles h.ready hwide).bind fun _ _ h => ?_
    exact .keeping h.ready fun _ _ h => append_settles_of_ne h hcode
  refine .look (d.editor.current c.sheet) rfl ?_
  split
  · exact .broken _
  · split <;> exact (append_sees h hsees _).bind fun _ _ hd => hvalue _ (by simp) hd.1 hd.2

end

instance (enumeration : String) (m : MemberName) (previous : Option String) :
    Obeys c (.calm c) (memberValue k enumeration m previous) := by
  refine Writes.obeys fun d h => ?_
  refine .look (d.editor.sees c.sheet [.eq, .string, .comma]) rfl ?_
  refine .look (d.editor.sees c.sheet [.eq, .string, .braceR]) rfl ?_
  split
  · rename_i hsees
    rcases Bool.or_eq_true_iff.mp hsees with hsees | hsees
    all_goals exact stringMember_settles h hsees enumeration m
  · refine .look (d.editor.sees c.sheet [.eq]) rfl ?_
    split
    · rename_i hsees
      exact initializedMember_settles h hsees enumeration m
    · exact Obeys.writes h

end Nested

end Downlevel.Lowering
