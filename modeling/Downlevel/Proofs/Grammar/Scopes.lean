import Downlevel.Proofs.Grammar.Program

/-!
# The tree of scopes

A scope is recorded when it is closed, with the range of its tokens, and each token has the number
of scopes that were open when it was taken. The two are kept apart: one in a list, the other on the
cursor. They agree because a scope is closed by the part that has opened it.

Between two states of a run, the scopes that were closed form layers over the tokens that were taken
(`Layered`): each comes after the one before it or goes around it, and a token is as deep as there
are scopes around it, more than the state was deep at the start. Every move keeps to that, and for a
whole snippet it says that scopes form a tree.
-/

namespace Downlevel

/-! ## Scopes -/

namespace Scope

/-- Whether the token at index `i` is in the scope. -/
def covers (c : Scope) (i : Nat) : Bool := c.start ≤ i && i < c.stop

/-- All tokens of `c` are in `d`. -/
def Within (c d : Scope) : Prop := d.start ≤ c.start ∧ c.stop ≤ d.stop

/-- The scopes have no token in common, or one goes around the other. -/
def Nested (c d : Scope) : Prop :=
  c.stop ≤ d.start ∨ d.stop ≤ c.start ∨ c.Within d ∨ d.Within c

/-- The scope `c` was closed before `d`: it comes before `d` or is in it. -/
def ClosedBefore (c d : Scope) : Prop := c.stop ≤ d.stop ∧ (c.stop ≤ d.start ∨ d.start ≤ c.start)

theorem ClosedBefore.nested {c d : Scope} (h : c.ClosedBefore d) : c.Nested d := by
  rcases h with ⟨hstop, hbefore | hin⟩
  · exact .inl hbefore
  · exact .inr (.inr (.inl ⟨hin, hstop⟩))

theorem covers_eq_false {c : Scope} {i : Nat} (h : i < c.start ∨ c.stop ≤ i) :
    c.covers i = false := by
  simp only [covers, Bool.and_eq_false_iff, decide_eq_false_iff_not]
  omega

theorem countP_covers_eq_zero {cs : List Scope} {i : Nat}
    (h : ∀ c ∈ cs, i < c.start ∨ c.stop ≤ i) : cs.countP (·.covers i) = 0 := by
  rw [List.countP_eq_zero]
  intro c hc
  simp [covers_eq_false (h c hc)]

end Scope

namespace Grammar

open State

/-- The depth of the token at an index. -/
def State.depthAt (s : State) (i : Nat) : Option Nat := s.tokens[i]?.map (·.depth)

/-- The scopes `cs` were closed between the states `s` and `t`, in layers over the tokens that were
taken. -/
structure Layered (s t : State) (cs : List Scope) : Prop where
  size : s.tokens.size ≤ t.tokens.size
  scopes : t.scopes.toList = s.scopes.toList ++ cs
  within : ∀ c ∈ cs, s.tokens.size ≤ c.start ∧ c.start ≤ c.stop ∧ c.stop ≤ t.tokens.size
  ordered : cs.Pairwise Scope.ClosedBefore
  old : ∀ i < s.tokens.size, t.depthAt i = s.depthAt i
  new : ∀ i, s.tokens.size ≤ i → i < t.tokens.size →
    t.depthAt i = some (s.cursor.depth + cs.countP (·.covers i))
  depth : t.cursor.depth = s.cursor.depth

variable {ctx : Context} {s t u : State}

namespace Layered

variable {cs ds : List Scope}

theorem still (hsize : t.tokens.size = s.tokens.size) (hscopes : t.scopes = s.scopes)
    (hold : ∀ i, t.depthAt i = s.depthAt i) (hdepth : t.cursor.depth = s.cursor.depth) :
    Layered s t [] :=
  ⟨Nat.le_of_eq hsize.symm, by simp [hscopes], by simp, .nil, fun i _ => hold i,
    fun i hi hlt => by omega, hdepth⟩

theorem trans (h : Layered s t cs) (h' : Layered t u ds) : Layered s u (cs ++ ds) := by
  have hbefore : ∀ c ∈ cs, c.stop ≤ t.tokens.size := fun c hc => (h.within c hc).2.2
  have hafter : ∀ d ∈ ds, t.tokens.size ≤ d.start := fun d hd => (h'.within d hd).1
  refine ⟨Nat.le_trans h.size h'.size, ?_, ?_, ?_, fun i hi => ?_, fun i hi hlt => ?_,
    h'.depth.trans h.depth⟩
  · rw [h'.scopes, h.scopes, List.append_assoc]
  · intro c hc
    rcases List.mem_append.mp hc with hc | hc
    · obtain ⟨hstart, hle, hstop⟩ := h.within c hc
      exact ⟨hstart, hle, Nat.le_trans hstop h'.size⟩
    · obtain ⟨hstart, hle, hstop⟩ := h'.within c hc
      exact ⟨Nat.le_trans h.size hstart, hle, hstop⟩
  · refine List.pairwise_append.mpr ⟨h.ordered, h'.ordered, fun c hc d hd => ?_⟩
    have hc := hbefore c hc
    have hstart := hafter d hd
    have hle := (h'.within d hd).2.1
    exact ⟨by omega, .inl (by omega)⟩
  · rw [h'.old i (Nat.lt_of_lt_of_le hi h.size), h.old i hi]
  · rw [List.countP_append]
    by_cases hmid : i < t.tokens.size
    · have hnone : ds.countP (·.covers i) = 0 := Scope.countP_covers_eq_zero fun d hd =>
        .inl (Nat.lt_of_lt_of_le hmid (hafter d hd))
      rw [h'.old i hmid, h.new i hi hmid, hnone, Nat.add_zero]
    · have hnone : cs.countP (·.covers i) = 0 := Scope.countP_covers_eq_zero fun c hc =>
        .inr (Nat.le_trans (hbefore c hc) (by omega))
      rw [h'.new i (by omega) hlt, h.depth, hnone, Nat.zero_add]

theorem took (ctx : Context) (s : State) (mode : Mode) : Layered s (s.took ctx mode) [] := by
  have hsize : (s.took ctx mode).tokens.size = s.tokens.size + 1 := Array.size_push ..
  refine ⟨by omega, by simp [State.took], by simp, .nil, fun i hi => ?_, fun i hi hlt => ?_,
    Cursor.advance_depth ..⟩
  · simp only [depthAt, State.took]
    rw [Array.getElem?_push, if_neg (by omega)]
  · obtain rfl : i = s.tokens.size := by omega
    simp [depthAt, State.took, Cursor.token]

/-- What was done inside a scope is covered by it. -/
theorem scope (h : Layered s.deeper t cs) (isFunction : Bool) :
    Layered s (t.leaving s isFunction) (cs ++ [⟨s.tokens.size, t.tokens.size, isFunction⟩]) := by
  refine ⟨h.size, ?_, ?_, ?_, h.old, fun i hi hlt => ?_, ?_⟩
  · show (t.scopes.push _).toList = _
    rw [Array.toList_push, h.scopes, List.append_assoc]
    rfl
  · intro c hc
    rcases List.mem_append.mp hc with hc | hc
    · exact h.within c hc
    · obtain rfl := List.mem_singleton.mp hc
      exact ⟨Nat.le_refl _, h.size, Nat.le_refl _⟩
  · refine List.pairwise_append.mpr ⟨h.ordered, List.pairwise_singleton .., fun c hc d hd => ?_⟩
    obtain rfl := List.mem_singleton.mp hd
    obtain ⟨hstart, -, hstop⟩ := h.within c hc
    exact ⟨hstop, .inr hstart⟩
  · have hcovers : (⟨s.tokens.size, t.tokens.size, isFunction⟩ : Scope).covers i = true := by
      simp only [Scope.covers, Bool.and_eq_true, decide_eq_true_eq]
      exact ⟨hi, hlt⟩
    show t.depthAt i = _
    rw [h.new i hi hlt, List.countP_append, List.countP_singleton, if_pos hcovers]
    show some (s.cursor.depth + 1 + _) = _
    rw [Nat.add_assoc, Nat.add_comm 1, ← Nat.add_assoc]
  · show t.cursor.depth - 1 = s.cursor.depth
    rw [h.depth]
    rfl

end Layered

theorem depthAt_noting {index : Nat} {f : Token → Token} (hf : Harmless f) (i : Nat) :
    (s.noting index f).depthAt i = s.depthAt i := by
  simp only [depthAt, noting, Array.getElem?_modify]
  split
  · cases s.tokens[i]? with
    | none => rfl
    | some t => simp [(hf t).2.2.2.2.1]
  · rfl

theorem depthAt_marking (start i : Nat) : (s.marking start).depthAt i = s.depthAt i := by
  simp only [depthAt, marking, Array.getElem?_mapIdx]
  cases s.tokens[i]? with
  | none => rfl
  | some t =>
    simp only [Option.map_some]
    split <;> rfl

/-- The scopes that a run closes form layers. -/
theorem Run.layered (h : Run ctx s t) : ∃ cs, Layered s t cs := by
  induction h with
  | refl s => exact ⟨[], .still rfl rfl (fun _ => rfl) rfl⟩
  | trans _ _ ih₁ ih₂ =>
    obtain ⟨cs, hcs⟩ := ih₁
    obtain ⟨ds, hds⟩ := ih₂
    exact ⟨cs ++ ds, hcs.trans hds⟩
  | take _ _ => exact ⟨[], .took ..⟩
  | piece _ _ _ _ => exact ⟨_, ((Layered.took ..).trans (.took ..)).trans (.took ..)⟩
  | reread hc _ _ => exact ⟨[], .still rfl rfl (fun _ => rfl) hc.depth⟩
  | typing _ _ _ ih =>
    obtain ⟨cs, hcs⟩ := ih
    exact ⟨cs, hcs.size, hcs.scopes, hcs.within, hcs.ordered, hcs.old, hcs.new, hcs.depth⟩
  | scope isFunction _ ih =>
    obtain ⟨cs, hcs⟩ := ih
    exact ⟨_, hcs.scope isFunction⟩
  | note hf =>
    exact ⟨[], .still (Array.size_modify ..) rfl (depthAt_noting hf.harmless) rfl⟩
  | mark _ _ =>
    exact ⟨[], .still Array.size_mapIdx rfl (depthAt_marking _) rfl⟩

end Grammar

/-! ## Whole snippets -/

open Grammar

section

variable {text : List Char} {dialect : Dialect} {stream : TokenStream}

/-- The scopes of a snippet are layers over its tokens, and the one of the snippet itself. -/
theorem parse_layered (h : parse text dialect = .ok (.ok stream)) :
    ∃ t inner, Layered (.first ⟨text, dialect⟩) t inner ∧ t.tokens = stream.tokens ∧
      stream.scopes.toList = inner ++ [⟨0, stream.tokens.size, true⟩] := by
  obtain ⟨t, hread⟩ := parse_runs h
  obtain ⟨inner, hrun⟩ := hread.run.layered
  -- the end of the input is taken like a token, and the scope of the snippet goes around it too
  have hinner := hrun.trans (.took (.of text dialect) t .code)
  rw [List.append_nil] at hinner
  refine ⟨_, inner, hinner, hread.tokens.symm, ?_⟩
  rw [hread.scopes, hread.tokens, Array.toList_push]
  exact congrArg (· ++ _) hinner.scopes

/-- Of two scopes one goes around the other, or they have no token in common. -/
theorem parse_nested (h : parse text dialect = .ok (.ok stream)) :
    stream.scopes.toList.Pairwise Scope.Nested := by
  obtain ⟨t, inner, hinner, htokens, hscopes⟩ := parse_layered h
  rw [hscopes]
  refine List.pairwise_append.mpr ⟨hinner.ordered.imp (·.nested), List.pairwise_singleton .., ?_⟩
  intro c hc d hd
  obtain rfl := List.mem_singleton.mp hd
  have hstop := (hinner.within c hc).2.2
  rw [htokens] at hstop
  exact .inr (.inr (.inl ⟨Nat.zero_le _, hstop⟩))

end

/-- The scopes of a snippet form a tree with the snippet itself at its root, and every token is as
deep as there are scopes around it below the root. They are recorded as they close. -/
theorem parse_scopes_form_tree {text : List Char} {dialect : Dialect} {stream : TokenStream}
    (h : parse text dialect = .ok (.ok stream)) :
    ∃ inner, stream.scopes.toList = inner ++ [⟨0, stream.tokens.size, true⟩] ∧
      (∀ c ∈ stream.scopes, c.start ≤ c.stop ∧ c.stop ≤ stream.tokens.size) ∧
      stream.scopes.toList.Pairwise (fun c d => c.stop ≤ d.stop) ∧
      stream.scopes.toList.Pairwise Scope.Nested ∧
      ∀ i t, stream.tokens[i]? = some t → t.depth = inner.countP (·.covers i) := by
  obtain ⟨t, inner, hinner, htokens, hscopes⟩ := parse_layered h
  have hdepth : (State.first ⟨text, dialect⟩).cursor.depth = 0 :=
    Cursor.advance_depth _ .code (Cursor.before text)
  have hwithin : ∀ c ∈ inner, c.start ≤ c.stop ∧ c.stop ≤ stream.tokens.size := fun c hc => by
    rw [← htokens]
    exact (hinner.within c hc).2
  refine ⟨inner, hscopes, fun c hc => ?_, ?_, parse_nested h, fun i token hi => ?_⟩
  · rw [← Array.mem_toList_iff, hscopes, List.mem_append, List.mem_singleton] at hc
    rcases hc with hc | rfl
    · exact hwithin c hc
    · exact ⟨Nat.zero_le _, Nat.le_refl _⟩
  · rw [hscopes]
    refine List.pairwise_append.mpr ⟨hinner.ordered.imp And.left, List.pairwise_singleton .., ?_⟩
    intro c hc d hd
    obtain rfl := List.mem_singleton.mp hd
    exact (hwithin c hc).2
  · rw [← htokens] at hi
    obtain ⟨hlt, -⟩ := Array.getElem?_eq_some_iff.mp hi
    have hnew := hinner.new i (Nat.zero_le _) hlt
    rw [hdepth, Nat.zero_add] at hnew
    exact Option.some.inj ((congrArg (·.map (·.depth)) hi).symm.trans hnew)

/-- A function in a block in a loop, with a loop variable, a parameter and a caught error. -/
theorem scopes_form_tree_in_loop :
    let text := "for (const a of b) { try { f(x => x) } catch (e) { } }".toList
    ∃ stream inner, parse text {} = .ok (.ok stream) ∧ inner.length = 6 ∧
      stream.scopes.toList = inner ++ [⟨0, stream.tokens.size, true⟩] ∧
      ∀ i t, stream.tokens[i]? = some t → t.depth = inner.countP (·.covers i) := by
  intro text
  obtain ⟨stream, hstream⟩ : ∃ stream, accepted? text {} = some stream :=
    Option.isSome_iff_exists.mp (by decide +kernel)
  have hcount : (accepted? text {}).map (·.scopes.size) = some 7 := by decide +kernel
  have hparse := accepted?_eq_some_iff.mp hstream
  obtain ⟨inner, hscopes, -, -, -, hdepth⟩ := parse_scopes_form_tree hparse
  refine ⟨stream, inner, hparse, ?_, hscopes, hdepth⟩
  rw [hstream] at hcount
  have hlength := congrArg List.length hscopes
  simp at hcount hlength
  omega

end Downlevel
