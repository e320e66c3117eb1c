import Downlevel.Proofs.Grammar.Kept

/-!
# Bounds that are never met

Loops and rules are bounded, and a parser that meets a bound ends in a fault. Here is the logic in
which it is shown that none does. A state has room below `n` when its credit is smaller than `n` and
than the bound on loops (`Room`). Started where there is room,

* `Halts ctx n p`: the parser `p` meets no bound;
* `Leaves ctx n p`: it also lowers the credit, unless there was an error already;
* `Departs ctx n p`: so it does with a credit of `n` itself, if the current token is not the end of
  the input.

The step from `n` to `n + 1` is in the last one: after a token was taken, the rest of a production
has room below `n`, where all rules may be used. The rounds of a loop that goes on lower the credit
(`Rounds`), so there are never more of them than the credit has units.
-/

namespace Downlevel.Grammar

variable {α β : Type} {ctx : Context} {n : Nat} {s t u : State} {close : Kind} {isFunction : Bool}
  {c : Prop} {k : Kind} {a : α}

/-! ## Where a parse leads -/

/-- What `p` leads to lies on the course of a parse, from wherever it is started. -/
class Flows (ctx : Context) (p : Parser α) : Prop where
  course : ∀ s a t, p ctx s = .ok (a, t) → Course ctx.source.text s t

section Flowing

variable {p q : Parser α} {g : α → Parser β}

instance (priority := low) Flows.of_defined [h : Defined p q] [hq : Flows ctx q] : Flows ctx p :=
  h.eq ▸ hq

instance (priority := low) Flows.of_keeps [hp : Keeps ctx 0 0 p] : Flows ctx p where
  course s a t hrun := ((hp.keepsAt (Nat.le_refl 0) s (Nat.zero_le _)).above a t hrun).course

theorem Flows.step [hp : Flows ctx p] (hg : ∀ a, Flows ctx (g a)) : Flows ctx (p >>= g) where
  course s b u hrun := by
    obtain ⟨a, t, hpa, hgb⟩ := bind_ok hrun
    exact (hp.course s a t hpa).trans ((hg a).course t b u hgb)

instance Flows.bind [Flows ctx p] [hg : ∀ a, Flows ctx (g a)] : Flows ctx (p >>= g) := .step hg

instance Flows.ite [Decidable c] [hp : Flows ctx p] [hq : Flows ctx q] :
    Flows ctx (if c then p else q) := by
  split
  · exact hp
  · exact hq

instance (priority := high) Flows.optional {c : Prop} [Decidable c] {p : Parser Unit}
    {rest : Unit → Parser β} [hp : Flows ctx p] [hrest : ∀ a, Flows ctx (rest a)] :
    Flows ctx (if c then p >>= rest else rest ()) := by
  split
  · infer_instance
  · exact hrest ()

theorem noteAt_flows {index : Nat} {f : Token → Token} (hf : Noted f) :
    Flows ctx (noteAt index f) where
  course s a t hrun := by
    obtain ⟨_, _, ⟨⟩, hrun⟩ := bind_ok hrun
    split at hrun
    · cases hrun
      exact note_course hf index s
    · cases hrun

instance (index : Nat) (shape : ElementShape) : Flows ctx (setShape index shape) :=
  noteAt_flows fun _ => ⟨rfl, rfl⟩

instance (index : Nat) : Flows ctx (setRhsEnd index) where
  course s a t hrun := by
    obtain ⟨stop, _, ⟨⟩, hrun⟩ := bind_ok hrun
    have hnote : Noted fun tok => { tok with rhsEnd := some s.tokens.size } := fun _ => ⟨rfl, rfl⟩
    exact (noteAt_flows hnote).course s a t hrun

end Flowing

/-! ## Looking -/

/-- The parser `p` only looks, and meets no bound. -/
class Looks (ctx : Context) (p : Parser α) : Prop where
  still : ∀ s a t, p ctx s = .ok (a, t) → t = s
  halts : ∀ s, p ctx s ≠ .error .outOfFuel

section Looking

variable {p q : Parser α} {g : α → Parser β}

theorem bind_halts (hp : p ctx s ≠ .error .outOfFuel)
    (hg : ∀ a t, p ctx s = .ok (a, t) → g a ctx t ≠ .error .outOfFuel) :
    (p >>= g) ctx s ≠ .error .outOfFuel := by
  intro hrun
  rcases bind_error hrun with hpf | ⟨a, t, hpa, hgf⟩
  · exact hp hpf
  · exact hg a t hpa hgf

theorem Looks.of_ok (h : ∀ s, ∃ a, p ctx s = .ok (a, s)) : Looks ctx p where
  still s a t hrun := by
    obtain ⟨b, hb⟩ := h s
    rw [hb] at hrun
    cases hrun
    rfl
  halts s hrun := by
    obtain ⟨b, hb⟩ := h s
    rw [hb] at hrun
    cases hrun

instance (priority := low) Looks.of_defined [h : Defined p q] [hq : Looks ctx q] : Looks ctx p :=
  h.eq ▸ hq

theorem Looks.step [hp : Looks ctx p] (hg : ∀ a, Looks ctx (g a)) : Looks ctx (p >>= g) where
  still s b u hrun := by
    obtain ⟨a, t, hpa, hgb⟩ := bind_ok hrun
    exact ((hg a).still t b u hgb).trans (hp.still s a t hpa)
  halts s := bind_halts (hp.halts s) fun a t _ => (hg a).halts t

instance Looks.bind [Looks ctx p] [hg : ∀ a, Looks ctx (g a)] : Looks ctx (p >>= g) := .step hg

instance Looks.pure (a : α) : Looks ctx (Pure.pure a) := .of_ok fun _ => ⟨a, rfl⟩

instance Looks.ite [Decidable c] [hp : Looks ctx p] [hq : Looks ctx q] :
    Looks ctx (if c then p else q) := by
  split
  · exact hp
  · exact hq

instance Looks.flows [hp : Looks ctx p] : Flows ctx p where
  course s a t hrun := by
    obtain rfl := hp.still s a t hrun
    exact .refl t

instance Looks.of_peeks [hp : Peeks p] : Looks ctx p := .of_ok (hp.answers ctx)

instance : Looks ctx position := .of_ok fun _ => ⟨_, rfl⟩

/-- What has to be there is there, or it is another fault. -/
theorem demand_looks {f : Fault} (hf : f ≠ .outOfFuel) (o : Option α) : Looks ctx (demand f o) := by
  cases o with
  | some a => exact Looks.pure a
  | none =>
    constructor
    · rintro _ _ _ ⟨⟩
    · intro s hrun
      cases hrun
      exact hf rfl

instance : Looks ctx lineBreakBefore := by
  unfold lineBreakBefore
  have hdemand : ∀ (n : Nat) (o : Option Bool), Looks ctx (demand (.insideCharacter n) o) :=
    fun n o => demand_looks (by nofun) o
  infer_instance

instance : Looks ctx lastToken := by
  unfold lastToken
  have hdemand : ∀ o : Option Token, Looks ctx (demand (.missingToken 0) o) :=
    fun o => demand_looks (by nofun) o
  infer_instance

theorem throw_looks {f : Fault} (hf : f ≠ .outOfFuel) : Looks ctx (throw f : Parser α) :=
  demand_looks hf none

instance (start : Nat) : Looks ctx (allTypeFrom start) := by
  unfold allTypeFrom
  have hthrow : Looks ctx (throw (.missingToken start) : Parser Bool) := throw_looks nofun
  infer_instance

end Looking

/-! ## Room -/

/-- The state `s` was read, and its credit is below `n` and below the bound on loops. -/
structure Room (ctx : Context) (n : Nat) (s : State) : Prop where
  poised : s.cursor.Poised ctx.source.text
  below : s.cursor.credit < n
  fits : s.cursor.credit < ctx.budget

namespace Room

theorem course (h : Room ctx n s) (hcourse : Course ctx.source.text s t) : Room ctx n t := by
  have hle := hcourse.credit h.poised
  exact ⟨hcourse.poised h.poised, Nat.lt_of_le_of_lt hle h.below, Nat.lt_of_le_of_lt hle h.fits⟩

theorem spent (h : Room ctx (n + 1) s) (hcourse : Course ctx.source.text s t)
    (hlt : t.cursor.credit < s.cursor.credit) : Room ctx n t := by
  have hbelow := h.below
  exact ⟨hcourse.poised h.poised, by omega, Nat.lt_trans hlt h.fits⟩

theorem succ (h : Room ctx n s) : Room ctx (n + 1) s :=
    ⟨h.poised, Nat.lt_succ_of_lt h.below, h.fits⟩

theorem clean (h : Room ctx n s) (hlive : s.cursor.kind ≠ .eof) : s.cursor.error = none :=
  Cursor.error_of_live h.poised hlive

end Room

/-- The parser `p`, started where there is room below `n`, meets no bound. -/
class Halts (ctx : Context) (n : Nat) (p : Parser α) : Prop where
  halts : ∀ s, Room ctx n s → p ctx s ≠ .error .outOfFuel

/-- The parser `p`, started in `s`, meets no bound, and lowers the credit unless there was an
error. -/
structure LeavesAt (ctx : Context) (s : State) (p : Parser α) : Prop where
  halts : p ctx s ≠ .error .outOfFuel
  spends : s.cursor.error = none → ∀ a t, p ctx s = .ok (a, t) → t.cursor.credit < s.cursor.credit

/-- The parser `p` leaves wherever there is room below `n`. -/
class Leaves (ctx : Context) (n : Nat) (p : Parser α) : Prop where
  leavesAt : ∀ s, Room ctx n s → LeavesAt ctx s p

/-- The parser `p` leaves with a credit up to `n` every token that is not the end of the input. -/
class Departs (ctx : Context) (n : Nat) (p : Parser α) : Prop where
  leavesAt : ∀ s, Room ctx (n + 1) s → s.cursor.kind ≠ .eof → LeavesAt ctx s p

/-- A round, started in `s`, lowers the credit when it answers that there is `more`. -/
def RoundsAt (ctx : Context) (s : State) (round : Parser α) (more : α → Prop) : Prop :=
  ∀ a t, round ctx s = .ok (a, t) → more a → t.cursor.credit < s.cursor.credit

/-- A round that is followed by another lowers the credit, where there is room below `n`. -/
class Rounds (ctx : Context) (n : Nat) (round : Parser Bool) : Prop where
  roundsAt : ∀ s, Room ctx n s → RoundsAt ctx s round (· = true)

/-! ## Halting -/

section Halting

variable {p q : Parser α} {g : α → Parser β}

instance (priority := low) Halts.of_defined [h : Defined p q] [hq : Halts ctx n q] :
    Halts ctx n p := h.eq ▸ hq

theorem Halts.step [hp : Halts ctx n p] [hflow : Flows ctx p] (hg : ∀ a, Halts ctx n (g a)) :
    Halts ctx n (p >>= g) where
  halts s hs := bind_halts (hp.halts s hs) fun a t hpa =>
    (hg a).halts t (hs.course (hflow.course s a t hpa))

instance Halts.bind [Halts ctx n p] [Flows ctx p] [hg : ∀ a, Halts ctx n (g a)] :
    Halts ctx n (p >>= g) := .step hg

instance Halts.ite [Decidable c] [hp : Halts ctx n p] [hq : Halts ctx n q] :
    Halts ctx n (if c then p else q) := by
  split
  · exact hp
  · exact hq

instance (priority := high) Halts.optional {c : Prop} [Decidable c] {p : Parser Unit}
    {rest : Unit → Parser β} [Halts ctx n p] [Flows ctx p] [hrest : ∀ a, Halts ctx n (rest a)] :
    Halts ctx n (if c then p >>= rest else rest ()) := by
  split
  · infer_instance
  · exact hrest ()

instance Looks.toHalts [hp : Looks ctx p] : Halts ctx n p := ⟨fun s _ => hp.halts s⟩

instance (priority := low) Leaves.toHalts [hp : Leaves ctx n p] : Halts ctx n p :=
  ⟨fun s hs => (hp.leavesAt s hs).halts⟩

theorem Halts.of_ok (h : ∀ s, ∃ a t, p ctx s = .ok (a, t)) : Halts ctx n p where
  halts s _ hrun := by
    obtain ⟨a, t, hok⟩ := h s
    rw [hok] at hrun
    cases hrun

theorem Halts.mono (hp : Halts ctx (n + 1) p) : Halts ctx n p := ⟨fun s hs => hp.halts s hs.succ⟩

theorem Leaves.mono (hp : Leaves ctx (n + 1) p) : Leaves ctx n p :=
  ⟨fun s hs => hp.leavesAt s hs.succ⟩

instance (mode : Mode) : Halts ctx n (advance mode) := .of_ok fun _ => ⟨_, _, rfl⟩

instance (f : Cursor → Option Cursor) : Halts ctx n (reread f) where
  halts s _ := by
    refine bind_halts (p := (get : Parser State)) (Looks.halts _) ?_
    rintro _ _ ⟨⟩
    exact bind_halts ((demand_looks (by nofun) _).halts s) fun _ _ _ => nofun

instance (index : Nat) (f : Token → Token) : Halts ctx n (note index f) :=
  .of_ok fun _ => ⟨_, _, rfl⟩

instance (index : Nat) (f : Token → Token) : Halts ctx n (noteAt index f) := by
  unfold noteAt
  have hthrow : Looks ctx (throw (.missingToken index) : Parser Unit) := throw_looks nofun
  infer_instance

instance (start : Nat) : Halts ctx n (markTypeFrom start) := .of_ok fun _ => ⟨_, _, rfl⟩

instance (cause : SyntaxError.Cause) (start stop : Nat) : Halts ctx n (failAt cause start stop) :=
  .of_ok fun _ => ⟨_, _, rfl⟩

instance attempt_halts {p : Parser Bool} [hp : Halts ctx n p] : Halts ctx n (attempt p) where
  halts s hs hrun := by
    rw [attempt_eq] at hrun
    rcases bind_error hrun with hpf | ⟨b, t, -, hrest⟩
    · exact hp.halts s hs hpf
    · cases b <;> cases hrest

theorem peek_halts_at (hp : p ctx s ≠ .error .outOfFuel) : peek p ctx s ≠ .error .outOfFuel := by
  intro hrun
  rw [peek_eq] at hrun
  rcases bind_error hrun with hpf | ⟨a, t, -, hrest⟩
  · exact hp hpf
  · cases hrest

theorem peek_looks [∀ m, Keeps ctx m m p] (hhalts : ∀ s, p ctx s ≠ .error .outOfFuel) :
    Looks ctx (peek p) where
  still s _ _ hrun := (peek_ok (keepsAt_here s) hrun).1
  halts s := peek_halts_at (hhalts s)

instance : Looks ctx lookahead :=
  peek_looks fun _ => bind_halts nofun fun _ _ _ => Looks.halts _

end Halting

/-! ## Types and scopes -/

section Around

variable {p : Parser α}

theorem typeContext_eq (p : Parser α) : typeContext p ctx s =
    (p >>= fun a => onCursor (fun c => { c with inType := s.cursor.inType }) >>= fun _ =>
      pure a : Parser α) ctx { s with cursor := { s.cursor with inType := true } } := rfl

theorem Room.typing (h : Room ctx n s) :
    Room ctx n { s with cursor := { s.cursor with inType := true } } :=
  h.course (.around s _ _)

theorem typeContext_halts_at
    (hp : p ctx { s with cursor := { s.cursor with inType := true } } ≠ .error .outOfFuel) :
    typeContext p ctx s ≠ .error .outOfFuel := by
  rw [typeContext_eq]
  exact bind_halts hp fun _ _ _ => nofun

theorem typeContext_leavesAt
    (hp : LeavesAt ctx { s with cursor := { s.cursor with inType := true } } p) :
    LeavesAt ctx s (typeContext p) where
  halts := typeContext_halts_at hp.halts
  spends hclean b u hrun := by
    rw [typeContext_eq] at hrun
    obtain ⟨a, t, hpa, hrest⟩ := bind_ok hrun
    cases hrest
    have hlt := hp.spends hclean b t hpa
    exact hlt

instance [hp : Flows ctx p] : Flows ctx (typeContext p) where
  course s b u hrun := by
    rw [typeContext_eq] at hrun
    obtain ⟨a, t, hpa, hrest⟩ := bind_ok hrun
    cases hrest
    exact ((Course.around s _ _).trans (hp.course _ b t hpa)).trans (.around t _ _)

instance [hp : Halts ctx n p] : Halts ctx n (typeContext p) :=
  ⟨fun _ hs => typeContext_halts_at (hp.halts _ hs.typing)⟩

instance [hp : Leaves ctx n p] : Leaves ctx n (typeContext p) :=
  ⟨fun _ hs => typeContext_leavesAt (hp.leavesAt _ hs.typing)⟩

instance [hp : Departs ctx n p] : Departs ctx n (typeContext p) :=
  ⟨fun _ hs hlive => typeContext_leavesAt (hp.leavesAt _ hs.typing hlive)⟩

theorem Room.scoped (h : Room ctx n s) :
    Room ctx n { s with cursor := { s.cursor with depth := s.cursor.depth + 1 } } :=
  h.course (.around s _ _)

theorem inScope_halts_at
    (hp : p ctx { s with cursor := { s.cursor with depth := s.cursor.depth + 1 } } ≠
      .error .outOfFuel) : inScope isFunction p ctx s ≠ .error .outOfFuel := by
  rw [inScope_eq]
  refine bind_halts hp fun _ _ _ => ?_
  have hthrow : Looks ctx (throw .noScope : Parser Unit) := throw_looks nofun
  refine bind_halts ?_ fun _ _ _ => nofun
  refine bind_halts (p := (get : Parser State)) (Looks.halts _) ?_
  rintro _ _ ⟨⟩
  split
  · exact hthrow.halts _
  · exact nofun

/-- Leaving a scope changes the depth and nothing else of the cursor. -/
theorem inScope_ok (hrun : inScope isFunction p ctx s = .ok (a, u)) : ∃ t scopes depth,
      p ctx { s with cursor := { s.cursor with depth := s.cursor.depth + 1 } } = .ok (a, t) ∧
        u = { t with cursor := { t.cursor with depth }, scopes } := by
  rw [inScope_eq] at hrun
  obtain ⟨b, t, hpb, hrest⟩ := bind_ok hrun
  obtain ⟨_, v, hclose, hrest⟩ := bind_ok hrest
  obtain ⟨_, _, ⟨⟩, hclose⟩ := bind_ok hclose
  split at hclose
  · cases hclose
  · cases hclose
    cases hrest
    exact ⟨t, _, _, hpb, rfl⟩

theorem inScope_leavesAt
    (hp : LeavesAt ctx { s with cursor := { s.cursor with depth := s.cursor.depth + 1 } } p) :
    LeavesAt ctx s (inScope isFunction p) where
  halts := inScope_halts_at hp.halts
  spends hclean a u hrun := by
    obtain ⟨t, scopes, depth, hpa, rfl⟩ := inScope_ok hrun
    have hlt := hp.spends hclean a t hpa
    exact hlt

instance [hp : Flows ctx p] : Flows ctx (inScope isFunction p) where
  course s a u hrun := by
    obtain ⟨t, scopes, depth, hpa, rfl⟩ := inScope_ok hrun
    exact (((Course.around s _ _).trans (hp.course _ a t hpa)).trans (.around t _ _)).of_scopes
      scopes

instance [hp : Halts ctx n p] : Halts ctx n (inScope isFunction p) :=
  ⟨fun _ hs => inScope_halts_at (hp.halts _ hs.scoped)⟩

instance [hp : Leaves ctx n p] : Leaves ctx n (inScope isFunction p) :=
  ⟨fun _ hs => inScope_leavesAt (hp.leavesAt _ hs.scoped)⟩

instance [hp : Departs ctx n p] : Departs ctx n (inScope isFunction p) :=
  ⟨fun _ hs hlive => inScope_leavesAt (hp.leavesAt _ hs.scoped hlive)⟩

end Around

/-! ## Leaving -/

section Leaving

variable {p q : Parser α} {g : α → Parser β}

namespace LeavesAt

/-- What is left by the first step is left by all. -/
theorem bind_left (hp : LeavesAt ctx s p) (hs : s.cursor.Poised ctx.source.text)
    (hflow : Flows ctx p) (hflows : ∀ a, Flows ctx (g a))
    (hg : ∀ a t, p ctx s = .ok (a, t) → g a ctx t ≠ .error .outOfFuel) :
    LeavesAt ctx s (p >>= g) where
  halts := bind_halts hp.halts hg
  spends hclean b u hrun := by
    obtain ⟨a, t, hpa, hgb⟩ := bind_ok hrun
    have ht := (hflow.course s a t hpa).poised hs
    exact Nat.lt_of_le_of_lt (((hflows a).course t b u hgb).credit ht) (hp.spends hclean a t hpa)

/-- What is answered after all changes nothing. -/
theorem bind_pure (hp : LeavesAt ctx s p) (f : α → β) :
    LeavesAt ctx s (p >>= fun a => pure (f a)) where
  halts := bind_halts hp.halts fun _ _ _ => nofun
  spends hclean b u hrun := by
    obtain ⟨a, t, hpa, ⟨⟩⟩ := bind_ok hrun
    exact hp.spends hclean a u hpa

theorem of_run {q : Parser β} (hq : LeavesAt ctx t q) {p : Parser β}
    (heq : p ctx s = q ctx t) (hcredit : t.cursor.credit = s.cursor.credit)
    (herror : t.cursor.error = s.cursor.error) : LeavesAt ctx s p where
  halts := by
    rw [heq]
    exact hq.halts
  spends hclean b u hrun := by
    rw [heq] at hrun
    rw [← hcredit]
    exact hq.spends (herror.trans hclean) b u hrun

/-- After an error in the first step there is nothing to leave. -/
theorem bind_right (hp : p ctx s ≠ .error .outOfFuel) (hs : s.cursor.Poised ctx.source.text)
    (hflow : Flows ctx p) (hflows : ∀ a, Flows ctx (g a))
    (hg : ∀ a t, p ctx s = .ok (a, t) → LeavesAt ctx t (g a)) : LeavesAt ctx s (p >>= g) where
  halts := bind_halts hp fun a t hpa => (hg a t hpa).halts
  spends hclean b u hrun := by
    obtain ⟨a, t, hpa, hgb⟩ := bind_ok hrun
    have hcourse := hflow.course s a t hpa
    have ht := hcourse.poised hs
    cases herror : t.cursor.error with
    | none =>
      exact Nat.lt_of_lt_of_le ((hg a t hpa).spends herror b u hgb) (hcourse.credit hs)
    | some e =>
      have hle := ((hflows a).course t b u hgb).credit ht
      rw [Cursor.credit_of_failed ht (by rw [herror]; rfl)] at hle
      exact Nat.lt_of_le_of_lt hle (Cursor.credit_pos hclean)

/-- A first step that takes a token, or leaves all as it is. -/
theorem bind_either (hs : Room ctx (n + 1) s) (hp : p ctx s ≠ .error .outOfFuel)
    (hflow : Flows ctx p) (hflows : ∀ a, Flows ctx (g a)) (hg : ∀ a, Halts ctx n (g a))
    (h : ∀ a t, p ctx s = .ok (a, t) →
      t.cursor.credit < s.cursor.credit ∨ t = s ∧ LeavesAt ctx s (g a)) :
    LeavesAt ctx s (p >>= g) where
  halts := bind_halts hp fun a t hpa => by
    rcases h a t hpa with hlt | ⟨rfl, hleaves⟩
    · exact (hg a).halts t (hs.spent (hflow.course s a t hpa) hlt)
    · exact hleaves.halts
  spends hclean b u hrun := by
    obtain ⟨a, t, hpa, hgb⟩ := bind_ok hrun
    rcases h a t hpa with hlt | ⟨rfl, hleaves⟩
    · have ht := (hflow.course s a t hpa).poised hs.poised
      exact Nat.lt_of_le_of_lt (((hflows a).course t b u hgb).credit ht) hlt
    · exact hleaves.spends hclean b u hgb

theorem look (hp : p ctx s = .ok (a, s)) (hg : LeavesAt ctx s (g a)) :
    LeavesAt ctx s (p >>= g) where
  halts := by
    rw [bind_of_ok hp]
    exact hg.halts
  spends := by
    rw [bind_of_ok hp]
    exact hg.spends

theorem looking [hp : Looks ctx p] (hg : ∀ a, LeavesAt ctx s (g a)) : LeavesAt ctx s (p >>= g) where
  halts := bind_halts (hp.halts s) fun a t hpa => by
    obtain rfl := hp.still s a t hpa
    exact (hg a).halts
  spends hclean b u hrun := by
    obtain ⟨a, t, hpa, hgb⟩ := bind_ok hrun
    obtain rfl := hp.still s a t hpa
    exact (hg a).spends hclean b u hgb

end LeavesAt

instance (priority := low) Leaves.of_defined [h : Defined p q] [hq : Leaves ctx n q] :
    Leaves ctx n p := h.eq ▸ hq

instance (priority := high) Leaves.bind_left [hp : Leaves ctx n p] [hflow : Flows ctx p]
    [hg : ∀ a, Halts ctx n (g a)] [hflows : ∀ a, Flows ctx (g a)] : Leaves ctx n (p >>= g) where
  leavesAt s hs := (hp.leavesAt s hs).bind_left hs.poised hflow hflows fun a t hpa =>
    (hg a).halts t (hs.course (hflow.course s a t hpa))

theorem Leaves.step [hp : Halts ctx n p] [hflow : Flows ctx p] [hflows : ∀ a, Flows ctx (g a)]
    (hg : ∀ a, Leaves ctx n (g a)) : Leaves ctx n (p >>= g) where
  leavesAt s hs := .bind_right (hp.halts s hs) hs.poised hflow hflows fun a t hpa =>
    (hg a).leavesAt t (hs.course (hflow.course s a t hpa))

instance Leaves.bind_right [Halts ctx n p] [Flows ctx p] [hg : ∀ a, Leaves ctx n (g a)]
    [∀ a, Flows ctx (g a)] : Leaves ctx n (p >>= g) := .step hg

instance Leaves.ite [Decidable c] [hp : Leaves ctx n p] [hq : Leaves ctx n q] :
    Leaves ctx n (if c then p else q) := by
  split
  · exact hp
  · exact hq

instance (priority := high) Leaves.optional {c : Prop} [Decidable c] {p : Parser Unit}
    {rest : Unit → Parser β} [Halts ctx n p] [Flows ctx p] [hrest : ∀ a, Leaves ctx n (rest a)]
    [∀ a, Flows ctx (rest a)] : Leaves ctx n (if c then p >>= rest else rest ()) := by
  split
  · exact .bind_right
  · exact hrest ()

instance (priority := low) Departs.of_defined [h : Defined p q] [hq : Departs ctx n q] :
    Departs ctx n p := h.eq ▸ hq

theorem LeavesAt.of_kind [hp : Departs ctx n p] (hs : Room ctx (n + 1) s)
    (hkind : s.cursor.kind = k) (hk : k ≠ .eof) : LeavesAt ctx s p :=
  hp.leavesAt s hs (live_of_kind hkind hk)

theorem Departs.step [hp : Departs ctx n p] [hflow : Flows ctx p] (hg : ∀ a, Halts ctx n (g a))
    (hflows : ∀ a, Flows ctx (g a)) : Departs ctx n (p >>= g) where
  leavesAt s hs hlive := by
    have hleaves := hp.leavesAt s hs hlive
    refine hleaves.bind_left hs.poised hflow hflows fun a t hpa => (hg a).halts t ?_
    exact hs.spent (hflow.course s a t hpa) (hleaves.spends (hs.clean hlive) a t hpa)

instance (priority := high) Departs.bind_left [Departs ctx n p] [Flows ctx p]
    [hg : ∀ a, Halts ctx n (g a)] [hflows : ∀ a, Flows ctx (g a)] : Departs ctx n (p >>= g) :=
  .step hg hflows

instance Departs.bind_look [hp : Looks ctx p] [hg : ∀ a, Departs ctx n (g a)] :
    Departs ctx n (p >>= g) :=
  ⟨fun s hs hlive => .looking fun a => (hg a).leavesAt s hs hlive⟩

instance Departs.ite [Decidable c] [hp : Departs ctx n p] [hq : Departs ctx n q] :
    Departs ctx n (if c then p else q) := by
  split
  · exact hp
  · exact hq

instance (priority := low) Departs.of_leaves [hp : Leaves ctx (n + 1) p] : Departs ctx n p :=
  ⟨fun s hs _ => hp.leavesAt s hs⟩

/-- What departs may be tried first. When it fails, all is as it was before. -/
theorem LeavesAt.attempt {p : Parser Bool} {g : Bool → Parser β} [∀ m, Keeps ctx m m p]
    (hs : Room ctx (n + 1) s) (hp : LeavesAt ctx s p) (hclean : s.cursor.error = none)
    (htrue : Halts ctx n (g true)) (hflow : Flows ctx (g true))
    (hfalse : LeavesAt ctx s (g false)) :
    LeavesAt ctx s (Grammar.attempt p >>= g) := by
  have hkept : KeepsAt ctx s.tokens.size s p := keepsAt_here s
  have hcourse : ∀ t, p ctx s = .ok (true, t) → Course ctx.source.text s t :=
    fun t hrun => (hkept.above true t hrun).course
  constructor
  · refine bind_halts (fun hrun => ?_) fun b t hrun => ?_
    · rw [attempt_eq] at hrun
      rcases bind_error hrun with hpf | ⟨b, t, -, hrest⟩
      · exact hp.halts hpf
      · cases b <;> cases hrest
    · rcases attempt_ok hkept hrun with ⟨rfl, hpt⟩ | ⟨rfl, rfl⟩
      · exact htrue.halts t (hs.spent (hcourse t hpt) (hp.spends hclean true t hpt))
      · exact hfalse.halts
  · intro _ c u hrun
    obtain ⟨b, t, hattempt, hrest⟩ := bind_ok hrun
    rcases attempt_ok hkept hattempt with ⟨rfl, hpt⟩ | ⟨rfl, rfl⟩
    · have hle := (hflow.course t c u hrest).credit ((hcourse t hpt).poised hs.poised)
      exact Nat.lt_of_le_of_lt hle (hp.spends hclean true t hpt)
    · exact hfalse.spends hclean c u hrest

theorem advance_departs {mode : Mode} (hmode : mode ≠ .template) :
    Departs ctx n (advance mode) where
  leavesAt s hs hlive :=
    { halts := nofun
      spends := by
        rintro - _ _ ⟨⟩
        exact Cursor.credit_advance_lt hs.poised hlive fun h => absurd h hmode }

instance : Departs ctx n next := advance_departs nofun

instance : Departs ctx n nextInTag := advance_departs nofun

theorem advance_template_leavesAt (hs : s.cursor.Poised ctx.source.text)
    (hkind : s.cursor.kind.Solid) : LeavesAt ctx s (advance .template) where
  halts := nofun
  spends := by
    rintro - _ _ ⟨⟩
    exact Cursor.credit_advance_lt hs hkind.1 fun _ => hkind.2

/-! ## Errors -/

instance (cause : SyntaxError.Cause) (start stop : Nat) :
    Leaves ctx n (failAt cause start stop) where
  leavesAt s hs :=
    { halts := nofun
      spends := by
        rintro hclean _ _ ⟨⟩
        show (s.cursor.fail _ _ _ _).credit < _
        rw [Cursor.credit_fail]
        exact Cursor.credit_pos hclean }

instance (cause : SyntaxError.Cause) : Leaves ctx n (failHere cause) where
  leavesAt s hs := .look rfl (Leaves.leavesAt s hs)

instance : Looks ctx found := .of_ok fun _ => ⟨_, rfl⟩

/-! ## Tokens that have to be there -/

theorem eat_cases {b : Bool} (hrun : eat k ctx s = .ok (b, t)) :
    b = true ∧ s.cursor.kind = k ∧ next ctx s = .ok ((), t) ∨
      b = false ∧ s.cursor.kind ≠ k ∧ t = s := by
  obtain ⟨_, _, ⟨⟩, hrun⟩ := bind_ok hrun
  split at hrun
  · rename_i hkind
    obtain ⟨_, _, ⟨⟩, ⟨⟩⟩ := bind_ok hrun
    exact .inl ⟨rfl, beq_iff_eq.mp hkind, rfl⟩
  · rename_i hkind
    cases hrun
    exact .inr ⟨rfl, fun h => hkind (beq_iff_eq.mpr h), rfl⟩

theorem eatWord_cases {word : Contextual} {b : Bool} (hrun : eatWord word ctx s = .ok (b, t)) :
    b = true ∧ s.cursor.kind = .name ∧ next ctx s = .ok ((), t) ∨ b = false ∧ t = s := by
  obtain ⟨_, _, ⟨⟩, hrun⟩ := bind_ok hrun
  split at hrun
  · rename_i hword
    obtain ⟨_, _, ⟨⟩, ⟨⟩⟩ := bind_ok hrun
    simp only [Cursor.isWord, Bool.and_eq_true, beq_iff_eq] at hword
    exact .inl ⟨rfl, hword.1, rfl⟩
  · cases hrun
    exact .inr ⟨rfl, rfl⟩

theorem eat_halts_at (k : Kind) (s : State) : eat k ctx s ≠ .error .outOfFuel := by
  refine bind_halts nofun ?_
  rintro _ _ ⟨⟩
  split
  · exact nofun
  · exact nofun

theorem eat_spends (hk : k ≠ .eof) (hs : s.cursor.Poised ctx.source.text)
    (hrun : eat k ctx s = .ok (true, t)) : t.cursor.credit < s.cursor.credit := by
  rcases eat_cases hrun with ⟨-, hkind, ⟨⟩⟩ | ⟨⟨⟩, -⟩
  exact Cursor.credit_advance_lt hs (by rw [hkind]; exact hk) nofun

theorem eatWord_halts_at (word : Contextual) (s : State) :
    eatWord word ctx s ≠ .error .outOfFuel := by
  refine bind_halts nofun ?_
  rintro _ _ ⟨⟩
  split
  · exact nofun
  · exact nofun

theorem eatWord_spends {word : Contextual} (hs : s.cursor.Poised ctx.source.text)
    (hrun : eatWord word ctx s = .ok (true, t)) : t.cursor.credit < s.cursor.credit := by
  rcases eatWord_cases hrun with ⟨-, hkind, ⟨⟩⟩ | ⟨⟨⟩, -⟩
  exact Cursor.credit_advance_lt hs (by rw [hkind]; exact nofun) nofun

theorem eat_or_leavesAt {g : Bool → Parser β} (hk : k ≠ .eof) (hs : s.cursor.Poised ctx.source.text)
    (hflow : Flows ctx (g true))
    (htrue : ∀ t, eat k ctx s = .ok (true, t) → g true ctx t ≠ .error .outOfFuel)
    (hfalse : s.cursor.kind ≠ k → LeavesAt ctx s (g false)) : LeavesAt ctx s (eat k >>= g) where
  halts := by
    refine bind_halts (eat_halts_at k s) fun b t hrun => ?_
    rcases eat_cases hrun with ⟨rfl, -, -⟩ | ⟨rfl, hkind, rfl⟩
    · exact htrue t hrun
    · exact (hfalse hkind).halts
  spends hclean c u hrun := by
    obtain ⟨b, t, heat, hrest⟩ := bind_ok hrun
    rcases eat_cases heat with ⟨rfl, -, -⟩ | ⟨rfl, hkind, rfl⟩
    · have ht := ((inferInstance : Flows ctx (eat k)).course s _ t heat).poised hs
      exact Nat.lt_of_le_of_lt ((hflow.course t c u hrest).credit ht) (eat_spends hk hs heat)
    · exact (hfalse hkind).spends hclean c u hrest

theorem eat_or_leaves {g : Bool → Parser β} (hk : k ≠ .eof) [htrue : Halts ctx n (g true)]
    [hflow : Flows ctx (g true)] [hfalse : Leaves ctx n (g false)] :
    Leaves ctx n (eat k >>= g) where
  leavesAt s hs := eat_or_leavesAt hk hs.poised hflow
    (fun t hrun =>
      htrue.halts t (hs.course ((inferInstance : Flows ctx (eat k)).course s _ t hrun)))
    fun _ => hfalse.leavesAt s hs

theorem eat_halts {g : Bool → Parser β} (hk : k ≠ .eof) (htrue : Halts ctx n (g true))
    (hfalse : Halts ctx (n + 1) (g false)) : Halts ctx (n + 1) (eat k >>= g) where
  halts s hs := by
    refine bind_halts (eat_halts_at k s) fun b t hrun => ?_
    rcases eat_cases hrun with ⟨rfl, -, -⟩ | ⟨rfl, -, rfl⟩
    · have hcourse := (inferInstance : Flows ctx (eat k)).course s true t hrun
      exact htrue.halts t (hs.spent hcourse (eat_spends hk hs.poised hrun))
    · exact hfalse.halts t hs

theorem expect_leavesAt (hk : k ≠ .eof ∨ s.cursor.kind ≠ .eof) (hs : Room ctx n s) :
    LeavesAt ctx s (expect k) := by
  by_cases hkind : k = .eof
  · -- the end of the input is not there to be eaten
    refine .bind_right (eat_halts_at k s) hs.poised inferInstance inferInstance fun b t hrun => ?_
    rcases eat_cases hrun with ⟨-, heof, -⟩ | ⟨rfl, -, rfl⟩
    · rw [hkind] at heof
      exact absurd heof (hk.resolve_left (not_not_intro hkind))
    · exact Leaves.leavesAt (p := expecting k.label) t hs
  · exact eat_or_leavesAt hkind hs.poised inferInstance (fun _ _ => nofun) fun _ =>
      Leaves.leavesAt (p := expecting k.label) s hs

theorem expect_leaves (hk : k ≠ .eof) : Leaves ctx n (expect k) :=
  ⟨fun _ hs => expect_leavesAt (.inl hk) hs⟩

instance : Leaves ctx n (expect .parenL) := expect_leaves nofun

instance : Leaves ctx n (expect .braceL) := expect_leaves nofun

instance (k : Kind) : Halts ctx n (expect k) := .of_defined

instance (k : Kind) : Halts ctx n (eat k) := .of_defined

instance (k : Kind) : Halts ctx n (skip k) := .of_defined

instance (word : Contextual) : Halts ctx n (eatWord word) := .of_defined

instance (k : Kind) : Departs ctx n (expect k) :=
  ⟨fun _ hs hlive => expect_leavesAt (.inr hlive) hs⟩

/-! ## Identifiers -/

instance (role : Option Role) : Leaves ctx n (identifier role) where
  leavesAt s hs := by
    refine .look rfl ?_
    split
    · rename_i hkind
      have hlive : s.cursor.kind ≠ .eof := by
        rw [beq_iff_eq.mp hkind]
        exact nofun
      cases role with
      | none =>
        have hdeparts : Departs ctx n (position >>= fun _ => next >>= fun _ => pure ()) :=
          inferInstance
        exact hdeparts.leavesAt s hs.succ hlive
      | some r =>
        have hdeparts : Departs ctx n (position >>= fun index => next >>= fun _ =>
            setRole index r) :=
          inferInstance
        exact hdeparts.leavesAt s hs.succ hlive
    · exact Leaves.leavesAt s hs

instance : Leaves ctx n identifierName where
  leavesAt s hs := by
    refine .look rfl ?_
    split
    · rename_i hkind
      have hsolid := solid_of_isReserved hkind
      have hturned : s.cursor.Turned ctx.source.text { s.cursor with kind := .name } :=
        Cursor.kind_turned hs.poised hsolid (by decide)
      have hcredit : { s.cursor with kind := .name }.credit = s.cursor.credit := by
        simp [Cursor.credit, hsolid.2]
      refine ⟨nofun, fun _ b u hrun => ?_⟩
      obtain ⟨_, _, ⟨⟩, ⟨⟩⟩ := bind_ok hrun
      rw [← hcredit]
      exact Cursor.credit_advance_lt hturned.poised nofun nofun
    · exact Leaves.leavesAt s hs

theorem token_or_name_leaves (hk : k ≠ .eof) :
    Leaves ctx n (seeing k >>= fun b => if b = true then next else identifierName) where
  leavesAt s hs := by
    refine .look rfl ?_
    split
    · rename_i hkind
      rw [beq_iff_eq] at hkind
      exact Departs.leavesAt s hs.succ (by rw [hkind]; exact hk)
    · exact Leaves.leavesAt s hs

instance : Leaves ctx n moduleName := token_or_name_leaves nofun

end Leaving

/-! ## Loops -/

section Loops

set_option synthInstance.maxSize 1000

variable {round test : Parser Bool} {body item : Parser Unit}

instance repeatUpTo_flows [Flows ctx round] (m : Nat) : Flows ctx (repeatUpTo round m) := by
  induction m with
  | zero => exact ⟨fun _ _ _ => nofun⟩
  | succ m ih =>
    unfold repeatUpTo
    infer_instance

/-- There are not more rounds than the credit has units. -/
theorem repeatUpTo_halts_at [hround : Halts ctx n round] [hflow : Flows ctx round]
    [hrounds : Rounds ctx n round] {m : Nat} (hs : Room ctx n s) (hm : s.cursor.credit < m) :
    repeatUpTo round m ctx s ≠ .error .outOfFuel := by
  induction m generalizing s with
  | zero => exact absurd hm (Nat.not_lt_zero _)
  | succ m ih =>
    unfold repeatUpTo
    refine bind_halts (hround.halts s hs) fun b t hrun => ?_
    cases b with
    | false => exact nofun
    | true =>
      have hlt := hrounds.roundsAt s hs true t hrun rfl
      exact ih (hs.course (hflow.course s true t hrun)) (by omega)

instance [Halts ctx n round] [Flows ctx round] [Rounds ctx n round] :
    Halts ctx n (repeatWhile round) where
  halts s hs := bind_halts (p := (read : Parser Context)) (Looks.halts _) <| by
    rintro _ _ ⟨⟩
    exact repeatUpTo_halts_at hs hs.fits

theorem repeatWhile_leavesAt [Halts ctx n round] [hflow : Flows ctx round] [Rounds ctx n round]
    (hs : Room ctx (n + 1) s) (hclean : s.cursor.error = none) (hround : LeavesAt ctx s round) :
    LeavesAt ctx s (repeatWhile round) := by
  refine .look rfl ?_
  obtain ⟨m, hm⟩ : ∃ m, ctx.budget = m + 1 := ⟨ctx.budget - 1, by have := hs.fits; omega⟩
  rw [hm]
  unfold repeatUpTo
  refine hround.bind_left hs.poised hflow inferInstance fun b t hrun => ?_
  cases b with
  | false => exact nofun
  | true =>
    have hlt := hround.spends hclean true t hrun
    have hfits := hs.fits
    exact repeatUpTo_halts_at (hs.spent (hflow.course s true t hrun) hlt) (by omega)

instance repeatWhile_leaves [hround : Leaves ctx n round] [hflow : Flows ctx round]
    [Rounds ctx n round] : Leaves ctx n (repeatWhile round) where
  leavesAt s hs := by
    refine .look rfl ?_
    obtain ⟨m, hm⟩ : ∃ m, ctx.budget = m + 1 := ⟨ctx.budget - 1, by have := hs.fits; omega⟩
    rw [hm]
    unfold repeatUpTo
    refine (hround.leavesAt s hs).bind_left hs.poised hflow inferInstance fun b t hrun => ?_
    cases b with
    | false => exact nofun
    | true =>
      have hlt := Rounds.roundsAt s hs true t hrun rfl
      have hfits := hs.fits
      exact repeatUpTo_halts_at (hs.course (hflow.course s true t hrun)) (by omega)

section Turning

variable {p : Parser α} {g : α → Parser β} {more : β → Prop}

namespace RoundsAt

theorem look (hp : p ctx s = .ok (a, s)) (hg : RoundsAt ctx s (g a) more) :
    RoundsAt ctx s (p >>= g) more := by
  intro b t hrun
  rw [bind_of_ok hp] at hrun
  exact hg b t hrun

/-- What comes before a round that lowers the credit does not raise it. -/
theorem bind [hflow : Flows ctx p] (hs : s.cursor.Poised ctx.source.text)
    (hg : ∀ a t, p ctx s = .ok (a, t) → RoundsAt ctx t (g a) more) :
    RoundsAt ctx s (p >>= g) more := by
  intro b u hrun hmore
  obtain ⟨a, t, hpa, hgb⟩ := bind_ok hrun
  exact Nat.lt_of_lt_of_le (hg a t hpa b u hgb hmore) ((hflow.course s a t hpa).credit hs)

theorem last {b : β} (hlast : ¬ more b) : RoundsAt ctx s (pure b) more := by
  rintro _ _ ⟨⟩ hmore
  exact absurd hmore hlast

theorem of_leaves {round : Parser β} (h : LeavesAt ctx s round) (hclean : s.cursor.error = none) :
    RoundsAt ctx s round more :=
  fun b t hrun _ => h.spends hclean b t hrun

end RoundsAt

/-- The round, started in `s`, meets no bound, and lowers the credit when it answers that there is
`more`. -/
structure TurnsAt (ctx : Context) (s : State) (round : Parser β) (more : β → Prop) : Prop where
  halts : round ctx s ≠ .error .outOfFuel
  rounds : RoundsAt ctx s round more

namespace TurnsAt

theorem look (hp : p ctx s = .ok (a, s)) (hg : TurnsAt ctx s (g a) more) :
    TurnsAt ctx s (p >>= g) more where
  halts := by
    rw [bind_of_ok hp]
    exact hg.halts
  rounds := .look hp hg.rounds

theorem looking [hp : Looks ctx p] (hg : ∀ a, TurnsAt ctx s (g a) more) :
    TurnsAt ctx s (p >>= g) more where
  halts := bind_halts (hp.halts s) fun a t hpa => by
    obtain rfl := hp.still s a t hpa
    exact (hg a).halts
  rounds b u hrun hmore := by
    obtain ⟨a, t, hpa, hgb⟩ := bind_ok hrun
    obtain rfl := hp.still s a t hpa
    exact (hg a).rounds b u hgb hmore

theorem last {b : β} (hlast : ¬ more b) : TurnsAt ctx s (pure b) more :=
  ⟨nofun, .last hlast⟩

theorem of_leaves {round : Parser β} (h : LeavesAt ctx s round) (hclean : s.cursor.error = none) :
    TurnsAt ctx s round more := ⟨h.halts, .of_leaves h hclean⟩

theorem of_departs {round : Parser β} [h : Departs ctx n round] (hs : Room ctx (n + 1) s)
    (hlive : s.cursor.kind ≠ .eof) : TurnsAt ctx s round more :=
  of_leaves (h.leavesAt s hs hlive) (hs.clean hlive)

theorem of_kind {round : Parser β} [Departs ctx n round] (hs : Room ctx (n + 1) s)
    (hkind : s.cursor.kind = k) (hk : k ≠ .eof) : TurnsAt ctx s round more :=
  of_departs hs (live_of_kind hkind hk)

theorem attempt {p : Parser Bool} [∀ m, Keeps ctx m m p] (hp : LeavesAt ctx s p)
    (hclean : s.cursor.error = none) : TurnsAt ctx s (Grammar.attempt p) (· = true) where
  halts hrun := by
    rw [attempt_eq] at hrun
    rcases bind_error hrun with hpf | ⟨b, t, -, hrest⟩
    · exact hp.halts hpf
    · cases b <;> cases hrest
  rounds b t hrun hmore := by
    rcases attempt_ok (keepsAt_here s) hrun with ⟨-, hpt⟩ | ⟨rfl, -⟩
    · exact hp.spends hclean true t hpt
    · cases hmore

end TurnsAt

end Turning

theorem repeatWhile_halts_of_turns (h : ∀ s, Room ctx n s → TurnsAt ctx s round (· = true))
    (hflow : Flows ctx round) : Halts ctx n (repeatWhile round) :=
  have : Halts ctx n round := ⟨fun s hs => (h s hs).halts⟩
  have : Rounds ctx n round := ⟨fun s hs => (h s hs).rounds⟩
  inferInstance

theorem eat_rounds (hk : k ≠ .eof) : Rounds ctx n (eat k) :=
  ⟨fun _ hs _ _ hrun hmore => eat_spends hk hs.poised (hmore ▸ hrun)⟩

instance : Rounds ctx n (eat .dot) := eat_rounds nofun

instance : Rounds ctx n (eat .comma) := eat_rounds nofun

instance : Rounds ctx n (eat .bitAnd) := eat_rounds nofun

instance : Rounds ctx n (eat .bitOr) := eat_rounds nofun

instance : Rounds ctx n (eat .bracketL) := eat_rounds nofun

instance (priority := low) Rounds.of_defined {p q : Parser Bool} [h : Defined p q]
    [hq : Rounds ctx n q] : Rounds ctx n p := h.eq ▸ hq

instance Rounds.bind {p : Parser α} {g : α → Parser Bool} [hflow : Flows ctx p]
    [hg : ∀ a, Rounds ctx n (g a)] : Rounds ctx n (p >>= g) where
  roundsAt s hs := .bind hs.poised fun a t hpa =>
    (hg a).roundsAt t (hs.course (hflow.course s a t hpa))

instance : Rounds ctx n (pure false) := ⟨fun _ _ => .last (by simp)⟩

instance {p q : Parser Bool} [Decidable c] [hp : Rounds ctx n p] [hq : Rounds ctx n q] :
    Rounds ctx n (if c then p else q) := by
  split
  · exact hp
  · exact hq

theorem whileRound_ok {test : Parser Bool} {body : Parser Unit} {more : Bool}
    (hrun : whileRound test body ctx s = .ok (more, u)) (hmore : more = true) :
    ∃ t, test ctx s = .ok (true, t) ∧ body ctx t = .ok ((), u) := by
  subst hmore
  obtain ⟨b, t, htest, hrun⟩ := bind_ok hrun
  cases b with
  | false => cases hrun
  | true =>
    obtain ⟨_, _, hbody, ⟨⟩⟩ := bind_ok hrun
    exact ⟨t, htest, hbody⟩

/-- The test takes a token when it holds. -/
instance whileRound_rounds_of_test [htest : Rounds ctx n test] [hflow : Flows ctx test]
    [hbody : Flows ctx body] : Rounds ctx n (whileRound test body) where
  roundsAt s hs _ u hrun hmore := by
    obtain ⟨t, ht, hu⟩ := whileRound_ok hrun hmore
    have hpoised := (hflow.course s true t ht).poised hs.poised
    exact Nat.lt_of_le_of_lt ((hbody.course t () u hu).credit hpoised)
      (htest.roundsAt s hs true t ht rfl)

/-- After a test that takes a token there is room below one less. -/
theorem whileTrue_halts_of_test [htest : Halts ctx (n + 1) test] [hflow : Flows ctx test]
    [hrounds : Rounds ctx (n + 1) test] [hbody : Halts ctx n body] [Flows ctx body] :
    Halts ctx (n + 1) (whileTrue test body) := by
  have hround : Halts ctx (n + 1) (whileRound test body) := by
    refine ⟨fun s hs => bind_halts (htest.halts s hs) fun b t ht => ?_⟩
    cases b with
    | false => exact nofun
    | true =>
      have hlt := hrounds.roundsAt s hs true t ht rfl
      exact bind_halts (hbody.halts t (hs.spent (hflow.course s true t ht) hlt)) fun _ _ _ => nofun
  infer_instance

/-- The test only looks, and holds at no end of the input. -/
class Sees (ctx : Context) (test : Parser Bool) : Prop extends Looks ctx test where
  live : ∀ s t, test ctx s = .ok (true, t) → s.cursor.kind ≠ .eof

theorem seeing_sees (hk : k ≠ .eof) : Sees ctx (seeing k) where
  live s t hrun := by
    have hkind : (s.cursor.kind == k) = true := (Prod.mk.inj (Except.ok.inj hrun)).1
    rw [beq_iff_eq.mp hkind]
    exact hk

instance (close : Kind) : Sees ctx (do return !(← seeingAny [close, .eof])) where
  live s t hrun := by
    obtain ⟨_, _, ⟨⟩, hrun⟩ := bind_ok hrun
    have hkind : (!([close, .eof].contains s.cursor.kind)) = true :=
      (Prod.mk.inj (Except.ok.inj hrun)).1
    intro heof
    rw [heof] at hkind
    simp at hkind

/-- What begins where there is a token leaves it. -/
instance whileRound_rounds_of_leaves [htest : Sees ctx test] [hbody : Leaves ctx n body] :
    Rounds ctx n (whileRound test body) where
  roundsAt s hs _ u hrun hmore := by
    obtain ⟨t, ht, hu⟩ := whileRound_ok hrun hmore
    obtain rfl := htest.still s true t ht
    exact (hbody.leavesAt t hs).spends (hs.clean (htest.live t t ht)) () u hu

theorem whileRound_rounds_of_departs (htest : Sees ctx test) (hbody : Departs ctx n body) :
    Rounds ctx (n + 1) (whileRound test body) where
  roundsAt s hs _ u hrun hmore := by
    obtain ⟨t, ht, hu⟩ := whileRound_ok hrun hmore
    obtain rfl := htest.still s true t ht
    have hlive := htest.live t t ht
    exact (hbody.leavesAt t hs hlive).spends (hs.clean hlive) () u hu

instance [htest : Sees ctx test] [hbody : Departs ctx n body] :
    Rounds ctx n (whileRound test body) :=
  ⟨fun s hs => (whileRound_rounds_of_departs htest hbody).roundsAt s hs.succ⟩

theorem whileTrue_halts_of_departs (htest : Sees ctx test) (hbody : Departs ctx n body)
    (hflow : Flows ctx body) : Halts ctx (n + 1) (whileTrue test body) := by
  have hround : Halts ctx (n + 1) (whileRound test body) := by
    refine ⟨fun s hs => bind_halts (htest.halts s) fun b t ht => ?_⟩
    obtain rfl := htest.still s b t ht
    cases b with
    | false => exact nofun
    | true => exact bind_halts (hbody.leavesAt t hs (htest.live t t ht)).halts fun _ _ _ => nofun
  have hrounds : Rounds ctx (n + 1) (whileRound test body) :=
    whileRound_rounds_of_departs htest hbody
  infer_instance

instance [htest : Sees ctx test] [hbody : Departs ctx n body] [hflow : Flows ctx body] :
    Halts ctx n (whileTrue test body) :=
  (whileTrue_halts_of_departs htest hbody hflow).mono

instance [Leaves ctx n item] [Flows ctx item] : Leaves ctx n (listedOrNone item) := by
  have hitem : Leaves ctx n (listed .bracketR item) := inferInstance
  exact @eat_or_leaves _ _ _ _ _ nofun inferInstance inferInstance hitem

/-- The recursion `f`, bounded by more than the credit, does not meet its bound. -/
class Bounded (ctx : Context) (n : Nat) (f : Nat → Parser α) : Prop where
  halts : ∀ m s, Room ctx n s → s.cursor.credit < m → f m ctx s ≠ .error .outOfFuel

/-- The rounds of a recursion that goes on lower the credit. -/
theorem Bounded.of_rounds {f : α → Nat → Parser β} {round : α → Parser (α ⊕ β)}
    (hf : ∀ x m, f x (m + 1) = round x >>= Sum.elim (f · m) pure)
    (hround : ∀ x s, Room ctx n s → TurnsAt ctx s (round x) (·.isLeft))
    (hflow : ∀ x, Flows ctx (round x)) (x : α) : Bounded ctx n (f x) where
  halts m s hs hm := by
    induction m generalizing s x with
    | zero => exact absurd hm (Nat.not_lt_zero _)
    | succ m ih =>
      have hturns := hround x s hs
      rw [hf]
      refine bind_halts hturns.halts fun found t hrun => ?_
      cases found with
      | inr b => exact nofun
      | inl y =>
        have hlt := hturns.rounds (.inl y) t hrun rfl
        exact ih y t (hs.course ((hflow x).course s _ t hrun)) (by omega)

/-- The bound on loops is more than the credit. -/
instance (priority := high) {f : Nat → Parser α} {g : α → Parser β} [hf : Bounded ctx n f]
    [hflow : ∀ m, Flows ctx (f m)] [hg : ∀ a, Halts ctx n (g a)] :
    Halts ctx n (read >>= fun c : Context => f c.budget >>= g) where
  halts s hs := bind_halts (p := (read : Parser Context)) (Looks.halts _) <| by
    rintro _ _ ⟨⟩
    exact bind_halts (hf.halts _ s hs hs.fits) fun a t hrun =>
      (hg a).halts t (hs.course ((hflow _).course s a t hrun))

instance (priority := high) {f : Nat → Parser α} {g : α → Parser β} [hf : Bounded ctx n f]
    [hflow : ∀ m, Flows ctx (f m)] [hg : ∀ a, Leaves ctx n (g a)] [∀ a, Flows ctx (g a)] :
    Leaves ctx n (read >>= fun c : Context => f c.budget >>= g) where
  leavesAt s hs := .look rfl (.bind_right (hf.halts _ s hs hs.fits) hs.poised inferInstance
    inferInstance fun a t hrun => (hg a).leavesAt t (hs.course ((hflow _).course s a t hrun)))

end Loops

end Downlevel.Grammar
