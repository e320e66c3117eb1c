import Downlevel.Proofs.Lowering.Construct

/-!
# Elements

An element leaves the editor calm. Its tags, attributes and children are known by the kinds of their
first tokens, and between them code is written. Only the expressions in braces can end in a template
piece, and then the closing brace is still to come.
-/

namespace Downlevel.Lowering

variable {c : Scene} {d : Draft}

/-! ## Names and values -/

/-- Between the parts of the name of a tag there are no template pieces. -/
theorem kind_lt_afterTagName {s : Sheet} {index n i : Nat} (hle : index ≤ i)
    (hlt : i < afterTagName s index n) : ∃ t, s.tokens[i]? = some t ∧ t.kind ≠ .template := by
  induction n generalizing index with
  | zero => exact absurd hlt (Nat.not_lt.mpr hle)
  | succ n ih =>
    rw [afterTagName] at hlt
    split at hlt
    · rename_i hkinds
      simp only [Sheet.hasKinds, Bool.or_eq_true, Bool.and_eq_true, Option.any_eq_true, beq_iff_eq,
        and_true] at hkinds
      obtain ⟨⟨t, ht, hkind⟩, u, hu, hkind'⟩ :
          (∃ t, s.tokens[index]? = some t ∧ t.kind ≠ .template) ∧
          ∃ u, s.tokens[index + 1]? = some u ∧ u.kind ≠ .template := by
        rcases hkinds with ⟨⟨t, ht, hkind⟩, u, hu, hkind'⟩ | ⟨⟨t, ht, hkind⟩, u, hu, hkind'⟩
        all_goals exact ⟨⟨t, ht, by simp [hkind]⟩, u, hu, by simp [hkind']⟩
      rcases Nat.lt_or_ge i (index + 2) with hnear | hfar
      · obtain rfl | rfl : i = index ∨ i = index + 1 := by omega
        · exact ⟨t, ht, hkind⟩
        · exact ⟨u, hu, hkind'⟩
      · exact ih hfar hlt
    · exact absurd hlt (Nat.not_lt.mpr hle)

variable [c.Intact]

/-- The tokens of a tag's name, the first of which is at `start`, are copied up to its end. -/
theorem copyName_settles {start n : Nat} {t : Token} (ht : c.sheet.tokens[start]? = some t)
    (hkind : t.kind ≠ .template) (h : d.editor.Calm c.sheet) (hstart : start ≤ d.editor.index) :
    Settles c d (whileHolds (return (← position) < afterTagName c.sheet (start + 1) n) copy) := by
  have hpart : ∀ i, start ≤ i → i < afterTagName c.sheet (start + 1) n →
      ∃ t, c.sheet.tokens[i]? = some t ∧ t.kind ≠ .template := by
    intro i hle hlt
    rcases Nat.eq_or_lt_of_le hle with rfl | hgt
    · exact ⟨t, ht, hkind⟩
    · exact kind_lt_afterTagName hgt hlt
  have hloop : Writes c d
      (whileHolds (return (← position) < afterTagName c.sheet (start + 1) n) copy)
      fun _ e => e.Calm c.sheet ∧ start ≤ e.index := by
    refine whileHolds_writes (fun _ => ⟨_, rfl⟩) (fun d hlt hd => ?_) ⟨h, hstart⟩
    obtain ⟨h, hle⟩ := hd
    have hinside := of_decide_eq_true (Prod.ext_iff.mp (Except.ok.inj hlt)).1
    obtain ⟨u, hu, hkind⟩ := hpart d.editor.index hle hinside
    have hwide := Editor.wide_of_kind (congrArg _ (Editor.current_of hu)) hkind
    exact (copy_settles h.ready hwide).reaching.mono fun _ e he =>
      ⟨he.2, Nat.le_trans hle he.1.index⟩
  exact hloop.mono fun _ _ he => he.1

instance : Obeys c (.calm c) tagName := by
  refine Writes.obeys fun d h => .look (d.editor.sees c.sheet [.jsxName]) rfl ?_
  refine Writes.optional (P := fun e => e.Calm c.sheet ∧ e.sees c.sheet [.jsxName] = true)
    (fun _ => .broken _) (fun hsees => ⟨h, by simpa using hsees⟩) fun d hd => ?_
  obtain ⟨h, hsees⟩ := hd
  refine .look c.sheet rfl (.look d.editor.index rfl ?_)
  have hwide := Editor.wide_of_kind (Editor.kind_of_sees hsees) (by decide)
  obtain ⟨t, ht, hkind⟩ := Editor.token_of_sees hsees
  have htemplate : t.kind ≠ .template := by simp [hkind]
  extract_lets stop written
  split
  · exact (name_settles h hwide).reaching.bind fun _ _ hd =>
      copyName_settles ht htemplate hd.2 hd.1.index
  · exact Obeys.writes h

section Elements

set_option synthInstance.maxSize 1000

variable {k : Knot} [k.Safe c]

/-- Only the expression in braces can end in a template piece. -/
instance : (Law.calm c).Braces k :=
  ⟨Writes.obeys fun _ h => .keeping h.ready fun _ _ h => removeExpected_settles h (by decide)⟩

instance : Obeys c (.calm c) (attributeValue k) := by
  refine Writes.obeys fun d h => .look (d.editor.current c.sheet) rfl ?_
  split
  · rename_i hkind
    refine .look (d.editor.currentText c.sheet) rfl ?_
    split
    · exact Obeys.writes h
    · exact copy_settles h.ready (Editor.wide_of_kind hkind (by decide))
  all_goals exact Obeys.writes h

instance : Obeys c (.calm c) (namedAttribute k) := by
  refine .bind inferInstance fun _ => .bind inferInstance fun _ => .bind inferInstance fun _ => ?_
  refine .ite inferInstance (Writes.obeys fun d h => .look (d.editor.currentText c.sheet) rfl ?_)
  split
  · rename_i hname
    have hwide : d.editor.Wide c.sheet := by
      intro _ hempty
      rw [hempty] at hname
      exact absurd hname (by decide)
    exact (copy_settles h.ready hwide).bind fun _ _ h => Obeys.writes h
  · exact Obeys.writes h

omit [c.Intact] [k.Safe c] in
/-- Taking out what was noted since a bookmark leads back to the notes before it. -/
theorem extract?_calm {e e' found : Editor} {code : String} (h : e.Calm c.sheet)
    (h' : e'.Calm c.sheet) (hreaches : e.Reaches e')
    (hfound : e'.extract? c.sheet e.bookmark = some (code, found)) :
    e.Reaches found ∧ found.Calm c.sheet := by
  unfold Editor.extract? at hfound
  split at hfound
  · cases hfound
    have hlog := hreaches.take_log
    refine ⟨⟨?_, hreaches.index⟩, ?_, h'.marked, ?_⟩
    · exact hlog ▸ List.prefix_refl _
    · exact hlog ▸ h.neat
    · exact hlog ▸ h.ascending.mono hreaches.index
  · cases hfound

instance (previous : Option String) : Obeys c (.calm c) (keyAttribute k previous) := by
  refine .bind inferInstance fun _ => .bind inferInstance fun _ => .bind inferInstance fun _ => ?_
  refine .ite (.bind inferInstance fun _ => Writes.obeys fun d h => ?_) inferInstance
  refine .look d.editor rfl ?_
  have hvalue : Settles c d (attributeValue k) := Obeys.writes h
  refine hvalue.bind_within fun _ d' hreaches h' key d'' hrun => ?_
  rw [run_look d'.editor rfl, run_look c.sheet rfl] at hrun
  cases hfound : d'.editor.extract? c.sheet d.editor.bookmark with
  | none =>
    rw [hfound] at hrun
    cases hrun
  | some found =>
    rw [hfound] at hrun
    cases hrun
    exact extract?_calm h h' hreaches hfound

instance : Obeys c (.calm c) (element k) := by
  refine .bind inferInstance fun scene => .bind inferInstance fun t => ?_
  split <;> infer_instance

end Elements

end Downlevel.Lowering
