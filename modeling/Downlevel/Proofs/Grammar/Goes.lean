import Downlevel.Proofs.Grammar.Keeps
import Downlevel.Proofs.Grammar.Run

/-!
# Going on without error

A logic for parsers. `Moves ctx s h p Q` says of a parser `p` that starts in the state `s`: when it
ends without error, then there was no error before, and if `s` is sound and `h` holds, it came to
its end by a run and left what `Q` says. The first half needs no assumption, so that an error on the
way never has to be looked at.

Nearly all parsers take code, in which brackets come in pairs: they go on (`Goes`). What follows an
open bracket goes on until it closes it (`Closes`), and with the bracket before it, it goes on too.

A production is walked through from its first step to its last. Looking changes nothing, and its
answer is put in place of the step. What a step leaves is known to all that follow.
-/

namespace Downlevel.Grammar

open State
open Token (At Sided)
open Phrase (Spans)

variable {α β : Type} {ctx : Context} {s t u : State} {h : Prop} {a : α} {p q : Parser α}
  {g : α → Parser β} {Q : α → State → Prop} {R : β → State → Prop} {k o : Kind}
  {b isFunction : Bool}
  {index start : Nat} {word : Contextual} {label : String} {item : Parser Unit}
  {rest : Unit → Parser β} {body : Parser Unit} {cause : SyntaxError.Cause} {f : Token → Token}
  {words : List Contextual}

/-- The parser `p`, started in `s` where `h` holds, ends in an error or comes to `Q` by a run. -/
def Moves (ctx : Context) (s : State) (h : Prop) (p : Parser α) (Q : α → State → Prop) : Prop :=
  ∀ a s', p ctx s = .ok (a, s') → s'.Clean →
    s.Clean ∧ (Sound ctx s → h → Run ctx s s' ∧ Q a s')

/-- The tokens since the state `s` are a phrase. -/
def Adds (p : Phrase) (s t : State) : Prop := Spans t.tokens p s.tokens.size t.tokens.size

/-- From `s` to `t` code was taken, and the cursor is left outside of tags. -/
structure Onward (ctx : Context) (s t : State) : Prop where
  run : Run ctx s t
  adds : Adds .code s t
  outside : t.Outside

/-- The state `t` has the first `low` tokens from `s`, and is on the same side of the types. -/
structure Held (low : Nat) (s t : State) : Prop where
  tokens : ∀ i < low, t.tokens[i]? = s.tokens[i]?
  inType : t.cursor.inType = s.cursor.inType

/-- The parser `p`, started in `s` outside of tags where `h` holds, ends in an error or takes code
up to `Q`. -/
def Goes (ctx : Context) (s : State) (h : Prop) (p : Parser α) (Q : α → State → Prop) : Prop :=
  Moves ctx s (h ∧ s.Outside) p fun a t => Onward ctx s t ∧ Q a t

/-- The parser goes on from everywhere. -/
def Steady (ctx : Context) (p : Parser α) : Prop := ∀ s h, Goes ctx s h p fun _ _ => True

/-- The parser goes on from everywhere, and takes a token at least. -/
def Grows (ctx : Context) (p : Parser α) : Prop :=
  ∀ s h, Goes ctx s h p fun _ s' => s.tokens.size < s'.tokens.size

/-- The parser goes on from every token that opens and closes nothing, and takes one at least. -/
def Takes (ctx : Context) (p : Parser α) : Prop :=
  ∀ s h, (h → s.cursor.kind.Plain) →
    Goes ctx s h p fun _ s' => s.tokens.size < s'.tokens.size

/-- The parser goes on from every token of the kind `o`, and takes one at least. -/
def TakesAt (ctx : Context) (o : Kind) (p : Parser α) : Prop :=
  ∀ s h, (h → s.cursor.kind = o) →
    Goes ctx s h p fun _ s' => s.tokens.size < s'.tokens.size

/-! ## Composition -/

namespace Moves

variable {R : α → State → Prop} {S : β → State → Prop} {good : α → Prop}

theorem bind (hp : Moves ctx s h p Q)
    (hg : ∀ a t, Moves ctx t (h ∧ Run ctx s t ∧ Q a t) (g a) S) : Moves ctx s h (p >>= g) S := by
  intro b u hrun hclean
  obtain ⟨a, t, hpa, hgb⟩ := bind_ok hrun
  obtain ⟨hclean', hgo'⟩ := hg a t b u hgb hclean
  obtain ⟨hclean'', hgo⟩ := hp a t hpa hclean'
  refine ⟨hclean'', fun hsound hh => ?_⟩
  obtain ⟨hrun₁, hq⟩ := hgo hsound hh
  obtain ⟨hrun₂, hr⟩ := hgo' (hrun₁.sound hsound) ⟨hh, hrun₁, hq⟩
  exact ⟨hrun₁.trans hrun₂, hr⟩

theorem pure (hq : Sound ctx s → h → Q a s) : Moves ctx s h (Pure.pure a) Q := by
  rintro _ _ ⟨⟩ hclean
  exact ⟨hclean, fun hsound hh => ⟨.refl s, hq hsound hh⟩⟩

theorem mono {k : Prop} (hp : Moves ctx s k p Q) (hpre : h → k)
    (hpost : ∀ a t, h → Run ctx s t → Q a t → R a t) : Moves ctx s h p R := by
  intro a t hrun hclean
  obtain ⟨hclean', hgo⟩ := hp a t hrun hclean
  refine ⟨hclean', fun hsound hh => ?_⟩
  obtain ⟨hrun', hq⟩ := hgo hsound (hpre hh)
  exact ⟨hrun', hpost a t hh hrun' hq⟩

theorem pre {k : Prop} (hp : Moves ctx s k p Q) (hpre : h → k) : Moves ctx s h p Q :=
  hp.mono hpre fun _ _ _ _ hq => hq

theorem clean (hp : Moves ctx s (h ∧ s.Clean) p Q) : Moves ctx s h p Q := by
  intro a t hrun hclean
  obtain ⟨hclean', hgo⟩ := hp a t hrun hclean
  exact ⟨hclean', fun hsound hh => hgo hsound ⟨hh, hclean'⟩⟩

theorem sound (hp : Moves ctx s (h ∧ Sound ctx s) p Q) : Moves ctx s h p Q := by
  intro a t hrun hclean
  obtain ⟨hclean', hgo⟩ := hp a t hrun hclean
  exact ⟨hclean', fun hsound hh => hgo hsound ⟨hh, hsound⟩⟩

theorem throw (e : Fault) : Moves ctx s h (MonadExcept.throw e : Parser α) Q := by
  rintro a t ⟨⟩

theorem look (hp : p ctx s = .ok (a, s)) (hg : Moves ctx s h (g a) S) :
    Moves ctx s h (p >>= g) S := by
  intro b u hrun hclean
  obtain ⟨a', t, hpa, hgb⟩ := bind_ok hrun
  rw [hp] at hpa
  cases hpa
  exact hg b u hgb hclean

theorem looking (hp : ∀ a t, p ctx s = .ok (a, t) → t = s ∧ good a)
    (hg : ∀ a, good a → Moves ctx s h (g a) S) : Moves ctx s h (p >>= g) S := by
  intro b u hrun hclean
  obtain ⟨a, t, hpa, hgb⟩ := bind_ok hrun
  obtain ⟨rfl, ha⟩ := hp a t hpa
  exact hg a ha b u hgb hclean

/-- What leaves older tokens alone leaves them as they were. -/
theorem held {low : Nat} (hlow : low ≤ s.tokens.size) [hkeeps : Keeps ctx low s.tokens.size p]
    (hp : Moves ctx s h p Q) : Moves ctx s h p fun a t => Held low s t ∧ Q a t := by
  intro a t hrun hclean
  obtain ⟨hclean', hgo⟩ := hp a t hrun hclean
  refine ⟨hclean', fun hsound hh => ?_⟩
  obtain ⟨hrun', hq⟩ := hgo hsound hh
  have habove := (hkeeps.keepsAt hlow s (Nat.le_refl _)).above a t hrun
  exact ⟨hrun', ⟨habove.tokens, hrun'.inType⟩, hq⟩

end Moves

namespace Held

variable {low low' i : Nat}

theorem refl (low : Nat) (s : State) : Held low s s := ⟨fun _ _ => rfl, rfl⟩

theorem trans (h : Held low s t) (h' : Held low t u) : Held low s u :=
  ⟨fun i hi => (h'.tokens i hi).trans (h.tokens i hi), h'.inType.trans h.inType⟩

theorem mono (h : Held low s t) (hle : low' ≤ low) : Held low' s t :=
  ⟨fun i hi => h.tokens i (Nat.lt_of_lt_of_le hi hle), h.inType⟩

theorem took {mode : Mode} (hrun : Run ctx s (s.took ctx mode)) :
    Held s.tokens.size s (s.took ctx mode) :=
  ⟨fun i hi => by simp [State.took, Array.getElem?_push, Nat.ne_of_lt hi], hrun.inType⟩

theorem sided (h : Held low s t) (hi : i < low) (hb : Sided s.tokens b i) :
    Sided t.tokens b i := by
  obtain ⟨p, hp, hb⟩ := hb
  exact ⟨p, (h.tokens i hi).trans hp, hb⟩

theorem sided_all (h : Held s.tokens.size s t) (hb : Sided s.tokens b i) : Sided t.tokens b i :=
  h.sided hb.lt_size hb

end Held

theorem Held.extends (h : Held s.tokens.size s t) : Token.Extends s.tokens t.tokens := by
  constructor
  intro i p hp
  exact ⟨p, (h.tokens i (Array.getElem?_eq_some_iff.mp hp).1).trans hp, rfl, id⟩

/-! ## Code -/

theorem Adds.trans (hs : Adds .code s t) (hrun : Run ctx t u) (ht : Adds .code t u) :
    Adds .code s u := (hs.mono hrun.extends).append ht

theorem Adds.of_size_eq (hsize : t.tokens.size = s.tokens.size) : Adds .code s t := by
  unfold Adds
  rw [hsize]
  exact .nil _

namespace Onward

theorem refl (houtside : s.Outside) : Onward ctx s s := ⟨.refl s, .nil _, houtside⟩

theorem trans (h : Onward ctx s t) (h' : Onward ctx t u) : Onward ctx s u :=
  ⟨h.run.trans h'.run, h.adds.trans h'.run h'.adds, h'.outside⟩

theorem of_size_eq (hrun : Run ctx s t) (hsize : t.tokens.size = s.tokens.size)
    (houtside : t.Outside) : Onward ctx s t := ⟨hrun, .of_size_eq hsize, houtside⟩

theorem size_le (h : Onward ctx s t) : s.tokens.size ≤ t.tokens.size := h.run.size_le

/-- Code does not begin with what is named in a tag. -/
theorem unnamed (h : Onward ctx s t) (hs : s.Outside) : ¬ At t.tokens s.tokens.size .jsxName :=
  (h.run.unnamed fun hname => hs.2 (.inl hname)).2

theorem anchored (h : Onward ctx s t) (hs : s.Anchored index) : t.Anchored index := by
  refine ⟨(hs.code.mono h.run.extends).append h.adds, ?_, h.outside⟩
  intro n hn
  exact h.run.apart (by have := hs.le; omega) (hs.apart n hn)

end Onward

theorem Goes.bind (hp : Goes ctx s h p Q)
    (hg : ∀ a t, Goes ctx t (h ∧ Onward ctx s t ∧ Q a t) (g a) R) : Goes ctx s h (p >>= g) R := by
  refine Moves.bind hp fun a t => (hg a t).mono ?_ ?_
  · rintro ⟨⟨hh, -⟩, -, honward, hq⟩
    exact ⟨⟨hh, honward, hq⟩, honward.outside⟩
  · rintro b u ⟨-, -, honward, -⟩ - ⟨honward', hr⟩
    exact ⟨honward.trans honward', hr⟩

theorem Goes.pure (hq : Sound ctx s → h → Q a s) : Goes ctx s h (Pure.pure a) Q :=
  Moves.pure fun hsound hh => ⟨.refl hh.2, hq hsound hh.1⟩

theorem Goes.done : Goes ctx s h (Pure.pure a) fun _ _ => True := .pure fun _ _ => trivial

theorem Goes.mono {R : α → State → Prop} {k : Prop} (hp : Goes ctx s k p Q)
    (hpre : h → k) (hpost : ∀ a t, h → Run ctx s t → Q a t → R a t) : Goes ctx s h p R :=
  Moves.mono hp (fun hh => ⟨hpre hh.1, hh.2⟩) fun a t hh hrun hq =>
    ⟨hq.1, hpost a t hh.1 hrun hq.2⟩

theorem Goes.pre {k : Prop} (hp : Goes ctx s k p Q)
    (hpre : h → k) : Goes ctx s h p Q := hp.mono hpre fun _ _ _ _ hq => hq

theorem Goes.weaken (hp : Goes ctx s h p Q) :
    Goes ctx s h p fun _ _ => True := hp.mono (fun hh => hh) fun _ _ _ _ _ => trivial

theorem Goes.sound (hp : Goes ctx s (h ∧ Sound ctx s) p Q) : Goes ctx s h p Q :=
  Moves.sound (Moves.pre hp fun hh => ⟨⟨hh.1.1, hh.2⟩, hh.1.2⟩)

theorem Goes.outside (hp : Goes ctx s (h ∧ s.Outside) p Q) :
    Goes ctx s h p Q := Moves.pre hp fun hh => ⟨hh, hh.2⟩

theorem Goes.throw (e : Fault) : Goes ctx s h (MonadExcept.throw e : Parser α) Q := Moves.throw e

theorem Goes.also {R : α → State → Prop} (hp : Goes ctx s h p Q)
    (hr : ∀ a t, p ctx s = .ok (a, t) → t.Clean → Sound ctx s → h ∧ s.Outside → R a t) :
    Goes ctx s h p fun a t => Q a t ∧ R a t := by
  intro a t hrun hclean
  obtain ⟨hclean', hgo⟩ := hp a t hrun hclean
  refine ⟨hclean', fun hsound hh => ?_⟩
  obtain ⟨hrun', honward, hq⟩ := hgo hsound hh
  exact ⟨hrun', honward, hq, hr a t hrun hclean hsound hh⟩

/-- Wherever the parser is started, its answer keeps to `P`. -/
def Answers (ctx : Context) (p : Parser α) (P : α → Prop) : Prop :=
  ∀ s a t, p ctx s = .ok (a, t) → P a

theorem Answers.pure {P : α → Prop} (ha : P a) : Answers ctx (Pure.pure a) P := by
  rintro _ _ _ ⟨⟩
  exact ha

theorem Answers.bind {P : β → Prop} (hg : ∀ a, Answers ctx (g a) P) : Answers ctx (p >>= g) P := by
  intro s b u hrun
  obtain ⟨a, t, -, hgb⟩ := bind_ok hrun
  exact hg a t b u hgb

theorem Answers.ite {c : Prop} [Decidable c] {P : α → Prop}
    (hp : Answers ctx p P) (hq : Answers ctx q P) : Answers ctx (if c then p else q) P := by
  split
  · exact hp
  · exact hq

theorem Grows.steady (hp : Grows ctx p) : Steady ctx p := fun s h => (hp s h).weaken

theorem Steady.bind (hp : Steady ctx p) (hg : ∀ a, Steady ctx (g a)) : Steady ctx (p >>= g) :=
  fun s h => (hp s h).bind fun a t => hg a t _

/-- What comes after a token was taken does not take it back. -/
theorem Goes.taking (hp : Goes ctx s h p fun _ t => s.tokens.size < t.tokens.size)
    (hg : ∀ a t, Goes ctx t (h ∧ Onward ctx s t) (g a) fun _ _ => True) :
    Goes ctx s h (p >>= g) fun _ t => s.tokens.size < t.tokens.size := by
  refine hp.bind fun a t => (hg a t).mono (fun hh => ⟨hh.1, hh.2.1⟩) ?_
  rintro _ u ⟨-, -, hlt⟩ hrun -
  exact Nat.lt_of_lt_of_le hlt hrun.size_le

theorem Grows.bind (hp : Grows ctx p) (hg : ∀ a, Steady ctx (g a)) : Grows ctx (p >>= g) :=
  fun s h => (hp s h).taking fun a t => hg a t _

theorem Grows.takesAt (hp : Grows ctx p) : TakesAt ctx o p :=
  fun s h _ => hp s h

theorem Takes.bind (hp : Takes ctx p) (hg : ∀ a, Steady ctx (g a)) : Takes ctx (p >>= g) :=
  fun s h hlive => (hp s h hlive).taking fun a t => hg a t _

/-- What was looked at before takes nothing away. -/
theorem Steady.grows_bind (hp : Steady ctx p)
    (hg : ∀ a, Grows ctx (g a)) : Grows ctx (p >>= g) := by
  intro s h
  refine (hp s h).bind fun a t => (hg a t _).mono (fun hh => hh) ?_
  rintro _ u ⟨-, hrun, -⟩ - hlt
  exact Nat.lt_of_le_of_lt hrun.size_le hlt

theorem Goes.of_takes (hp : Takes ctx p) (hplain : h → s.cursor.kind.Plain) :
    Goes ctx s h p fun _ _ => True := (hp s h hplain).weaken

theorem Goes.of_takesAt (hp : TakesAt ctx o p)
    (hkind : h → s.cursor.kind = o) : Goes ctx s h p fun _ _ => True := (hp s h hkind).weaken

theorem TakesAt.of_kind (hp : TakesAt ctx o p)
    (hkind : s.cursor.kind = o) : Goes ctx s h p fun _ t => s.tokens.size < t.tokens.size :=
  hp s h fun _ => hkind

theorem TakesAt.bind (hp : TakesAt ctx o p)
    (hg : ∀ a, Steady ctx (g a)) : TakesAt ctx o (p >>= g) :=
  fun s h hkind => (hp s h hkind).taking fun a t => hg a t _

theorem discard_goes {Q : State → Prop} (hp : Goes ctx s h p fun _ => Q) :
    Goes ctx s h (discard p) fun _ => Q := by
  intro a t hrun hclean
  obtain ⟨⟨a', u⟩, hpa, hrest⟩ := bind_eq_ok_iff.mp hrun
  cases hrest
  exact hp a' t hpa hclean

theorem Goes.discard {g : Unit → Parser β}
    (hg : Goes ctx s h (p >>= fun _ => g ()) R) : Goes ctx s h (discard p >>= g) R := by
  rwa [discard_bind]

theorem Steady.discard (hp : Steady ctx p) : Steady ctx (discard p) :=
  fun s h => discard_goes (hp s h)

theorem Grows.discard (hp : Grows ctx p) : Grows ctx (discard p) :=
  fun s h => discard_goes (hp s h)

theorem Goes.choose {c : Prop} [Decidable c] {p : Parser Unit}
    (hp : c → Goes ctx s h p fun _ _ => True)
    (hrest : ∀ t, Goes ctx t (h ∧ Onward ctx s t) (rest ()) R) :
    Goes ctx s h (if c then p >>= rest else rest ()) R := by
  split
  · rename_i hc
    exact (hp hc).bind fun _ t => (hrest t).pre fun hh => ⟨hh.1, hh.2.1⟩
  · exact .outside ((hrest s).pre fun hh => ⟨hh.1, .refl hh.2⟩)

theorem Goes.optional {c : Prop} [Decidable c] {p : Parser Unit}
    (hp : c → Goes ctx s h p fun _ _ => True) (hrest : Steady ctx (rest ())) :
    Goes ctx s h (if c then p >>= rest else rest ()) fun _ _ => True :=
  .choose hp fun t => hrest t _

theorem Goes.optional₂ {c : Prop} [Decidable c] {q : α → Parser Unit}
    (hp : c → Goes ctx s h (p >>= q) fun _ _ => True) (hrest : Steady ctx (rest ())) :
    Goes ctx s h (if c then p >>= fun a => q a >>= rest else rest ()) fun _ _ => True := by
  simp only [← bind_assoc]
  exact .optional hp hrest

theorem Steady.pure (a : α) : Steady ctx (Pure.pure a) := fun _ _ => .done

/-! ## Looking -/

theorem Goes.look (hp : p ctx s = .ok (a, s)) (hg : Goes ctx s h (g a) R) :
    Goes ctx s h (p >>= g) R := Moves.look hp hg

section Looking

variable {g : Bool → Parser β} {ks : List Kind}

theorem Goes.kind {g : Kind → Parser β} (hg : Goes ctx s h (g s.cursor.kind) R) :
    Goes ctx s h (Grammar.kind >>= g) R := .look rfl hg

theorem Goes.seeing
    (hg : Goes ctx s h (g (s.cursor.kind == k)) R) : Goes ctx s h (Grammar.seeing k >>= g) R :=
  .look rfl hg

theorem Goes.seeingAny (hg : Goes ctx s h (g (ks.contains s.cursor.kind)) R) :
    Goes ctx s h (Grammar.seeingAny ks >>= g) R := .look rfl hg

theorem Goes.seeingWord (hg : Goes ctx s h (g (s.cursor.isWord word)) R) :
    Goes ctx s h (Grammar.seeingWord word >>= g) R := .look rfl hg

theorem Goes.seeingAnyWord (hg : Goes ctx s h (g (words.any s.cursor.isWord)) R) :
    Goes ctx s h (Grammar.seeingAnyWord words >>= g) R := .look rfl hg

theorem lineBreakBefore_ok (hrun : lineBreakBefore ctx s = .ok (b, t)) : t = s := by
  obtain ⟨_, _, ⟨⟩, hdemand⟩ := bind_ok hrun
  exact (demand_ok hdemand).2

theorem Goes.lineBreakBefore (hg : ∀ b, Goes ctx s h (g b) R) :
    Goes ctx s h (Grammar.lineBreakBefore >>= g) R :=
  Moves.looking (fun _ _ hrun => ⟨lineBreakBefore_ok hrun, trivial⟩) fun b _ => hg b

theorem Goes.canEnd (hg : ∀ b, Goes ctx s h (g b) R) : Goes ctx s h (Grammar.canEnd >>= g) R := by
  unfold Grammar.canEnd
  rw [bind_assoc]
  refine .seeingAny ?_
  rw [bind_assoc]
  exact .lineBreakBefore fun b => hg _

theorem Goes.failed (hg : Goes ctx s h (g s.cursor.error.isSome) R) :
    Goes ctx s h (Grammar.failed >>= g) R := .look rfl hg

theorem Goes.currentText {g : String → Parser β} (hg : ∀ text, Goes ctx s h (g text) R) :
    Goes ctx s h (Grammar.currentText >>= g) R := .look rfl (hg _)

theorem lookahead_ok {ahead : Lookahead} (hrun : lookahead ctx s = .ok (ahead, t)) :
    t = s ∧ ahead.kind = (s.cursor.advance ctx.source .code).kind ∧
      ahead.keyword = (s.cursor.advance ctx.source .code).keyword := by
  obtain ⟨rfl, u, hahead⟩ := peek_ok (keepsAt_here s) hrun
  obtain ⟨_, _, ⟨⟩, hahead⟩ := bind_ok hahead
  obtain ⟨_, _, ⟨⟩, hahead⟩ := bind_ok hahead
  obtain ⟨b, _, hb, hahead⟩ := bind_ok hahead
  cases hahead
  exact ⟨rfl, rfl, rfl⟩

theorem Goes.lookahead {g : Lookahead → Parser β}
    (hg : ∀ ahead, ahead.kind = (s.cursor.advance ctx.source .code).kind →
      ahead.keyword = (s.cursor.advance ctx.source .code).keyword → Goes ctx s h (g ahead) R) :
    Goes ctx s h (Grammar.lookahead >>= g) R :=
  Moves.looking (fun _ _ => lookahead_ok) fun ahead hahead => hg ahead hahead.1 hahead.2

theorem Goes.nextKind {g : Kind → Parser β}
    (hg : Goes ctx s h (g (s.cursor.advance ctx.source .code).kind) R) :
    Goes ctx s h (Grammar.nextKind >>= g) R := by
  unfold Grammar.nextKind
  rw [bind_assoc]
  refine .lookahead fun ahead hkind _ => ?_
  rw [hkind]
  exact hg

theorem Goes.beforeAny
    (hg : Goes ctx s h (g (ks.contains (s.cursor.advance ctx.source .code).kind)) R) :
    Goes ctx s h (Grammar.beforeAny ks >>= g) R := by
  unfold Grammar.beforeAny
  rw [bind_assoc]
  exact .nextKind hg

theorem Goes.dialect {g : Dialect → Parser β} (hg : Goes ctx s h (g ctx.source.dialect) R) :
    Goes ctx s h (Grammar.dialect >>= g) R := .look rfl hg

theorem Goes.typescript (hg : Goes ctx s h (g ctx.source.dialect.typescript) R) :
    Goes ctx s h (Grammar.typescript >>= g) R := .look rfl hg

theorem Goes.flow (hg : Goes ctx s h (g ctx.source.dialect.flow) R) :
    Goes ctx s h (Grammar.flow >>= g) R := .look rfl hg

theorem Goes.typed (hg : Goes ctx s h (g ctx.source.dialect.typed) R) :
    Goes ctx s h (Grammar.typed >>= g) R := .look rfl hg

theorem Goes.get {g : State → Parser β} (hg : Goes ctx s h (g s) R) :
    Goes ctx s h (MonadState.get >>= g) R := .look rfl hg

theorem Goes.read {g : Context → Parser β} (hg : Goes ctx s h (g ctx) R) :
    Goes ctx s h (MonadReader.read >>= g) R := .look rfl hg

theorem Goes.declarationRole {g : Role → Parser β} {binding : Binding} {shorthand : Bool}
    (hg : ∀ role, Goes ctx s h (g role) R) :
    Goes ctx s h (Grammar.declarationRole binding shorthand >>= g) R := .look rfl (hg _)

/-- The index of the current token, which is no part of a template. -/
theorem Goes.position {g : Nat → Parser β}
    (hg : Goes ctx s (h ∧ s.Anchored s.tokens.size) (g s.tokens.size) R) :
    Goes ctx s h (Grammar.position >>= g) R :=
  .look rfl
    (.sound (.outside (hg.pre fun hh => ⟨hh.1.1, hh.1.2.anchored hh.2⟩)))

end Looking

/-! ## Moving -/

@[simp] theorem took_tokens_size (mode : Mode) :
    (s.took ctx mode).tokens.size = s.tokens.size + 1 := Array.size_push ..

@[simp] theorem took_cursor (mode : Mode) :
    (s.took ctx mode).cursor = s.cursor.advance ctx.source mode := rfl

section Moving

variable {Q : Unit → State → Prop} {g : Unit → Parser β} {mode : Mode}

theorem advance_moves (hpass : h → s.Passable mode)
    (hq : h → Q () (s.took ctx mode)) : Moves ctx s h (advance mode) Q := by
  rintro _ _ ⟨⟩ hclean
  exact ⟨Cursor.error_of_advance hclean, fun _ hh => ⟨.take (hpass hh) hclean, hq hh⟩⟩

theorem Moves.advance (hpass : h → s.Passable mode)
    (hg : Moves ctx (s.took ctx mode) (h ∧ Run ctx s (s.took ctx mode)) (g ()) R) :
    Moves ctx s h (Grammar.advance mode >>= g) R := by
  intro b u hrun hclean
  obtain ⟨hclean', hgo⟩ := hg b u hrun hclean
  refine ⟨Cursor.error_of_advance hclean', fun hsound hh => ?_⟩
  have hrun₁ : Run ctx s (s.took ctx mode) := .take (hpass hh) hclean'
  obtain ⟨hrun₂, hr⟩ := hgo (hrun₁.sound hsound) ⟨hh, hrun₁⟩
  exact ⟨hrun₁.trans hrun₂, hr⟩

theorem at_took (ctx : Context) (s : State) (mode : Mode) :
    At (s.took ctx mode).tokens s.tokens.size s.cursor.kind :=
  .push _ s.cursor.token

theorem at_taken : At s.taken s.tokens.size s.cursor.kind := .push _ s.cursor.token

theorem sided_taken : Sided s.taken s.cursor.inType s.tokens.size :=
  ⟨s.cursor.token, Array.getElem?_push_size, rfl⟩

theorem onward_took (hrun : Run ctx s (s.took ctx .code)) (hplain : s.cursor.kind.Plain)
    (houtside : s.Outside) (hclean : (s.took ctx .code).Clean) :
    Onward ctx s (s.took ctx .code) := by
  refine ⟨hrun, ?_, (houtside.passable hplain.ne_eof).outside hclean⟩
  unfold Adds
  rw [took_tokens_size]
  exact .single (at_took _ _ .code) hplain

section

variable (hplain : h → s.cursor.kind.Plain)
include hplain

theorem next_goes_to (hq : h → Q () (s.took ctx .code)) : Goes ctx s h next Q := by
  rintro _ _ ⟨⟩ hclean
  refine ⟨Cursor.error_of_advance hclean, fun _ hh => ?_⟩
  have hrun : Run ctx s (s.took ctx .code) :=
    .take (hh.2.passable (hplain hh.1).ne_eof) hclean
  exact ⟨hrun, onward_took hrun (hplain hh.1) hh.2 hclean, hq hh.1⟩

/-- What comes after a token was taken in code starts from a known state. -/
theorem Goes.next
    (hg : Goes ctx (s.took ctx .code) (h ∧ Onward ctx s (s.took ctx .code)) (g ()) R) :
    Goes ctx s h (Grammar.next >>= g) R := by
  refine Moves.advance (fun hh => hh.2.passable (hplain hh.1).ne_eof)
    (.clean (Moves.mono hg ?_ ?_))
  · rintro ⟨⟨hh, hrun⟩, hclean⟩
    have honward := onward_took hrun (hplain hh.1) hh.2 hclean
    exact ⟨⟨hh.1, honward⟩, honward.outside⟩
  · rintro b u ⟨⟨hh, hrun⟩, hclean⟩ - ⟨honward, hr⟩
    exact ⟨(onward_took hrun (hplain hh.1) hh.2 hclean).trans honward, hr⟩

theorem Goes.nextMarking
    (hg : Goes ctx (s.took ctx .code) (h ∧ Onward ctx s (s.took ctx .code)) (g ())
      fun _ _ => True) :
    Goes ctx s h (Grammar.next >>= g) fun _ t => At t.tokens s.tokens.size s.cursor.kind :=
  .next hplain (hg.mono id fun _ _ _ hrun _ => (at_took _ _ .code).mono hrun.extends)

theorem Goes.nextTaking
    (hg : Goes ctx (s.took ctx .code) (h ∧ Onward ctx s (s.took ctx .code)) (g ())
      fun _ _ => True) :
    Goes ctx s h (Grammar.next >>= g) fun _ t => s.tokens.size < t.tokens.size :=
  (Goes.nextMarking hplain hg).mono id fun _ _ _ _ hat => hat.lt_size

theorem next_goes : Goes ctx s h next fun _ _ => True :=
  next_goes_to hplain fun _ => trivial

end

theorem next_takes : Takes ctx next := fun _ _ hplain => next_goes_to hplain fun _ => by simp

theorem plain_of_kind (hkind : s.cursor.kind = k) (hk : k.Plain) :
    s.cursor.kind.Plain := by
  rw [hkind]
  exact hk

theorem Takes.of_kind (hp : Takes ctx p) (hkind : s.cursor.kind = k)
    (hk : k.Plain) : Goes ctx s h p fun _ t => s.tokens.size < t.tokens.size :=
  hp s h fun _ => plain_of_kind hkind hk

theorem plain_of_seeing (hkind : (s.cursor.kind == k) = true) (hk : k.Plain) :
    s.cursor.kind.Plain := plain_of_kind (beq_iff_eq.mp hkind) hk

theorem plain_of_seeingAny {ks : List Kind} (hkind : ks.contains s.cursor.kind = true)
    (hks : ∀ k ∈ ks, k.Plain) : s.cursor.kind.Plain :=
  hks _ (List.contains_iff_mem.mp hkind)

theorem plain_of_isWord (hword : s.cursor.isWord word = true) : s.cursor.kind.Plain := by
  simp only [Cursor.isWord, Bool.and_eq_true, beq_iff_eq] at hword
  exact plain_of_kind hword.1 (by decide)

theorem plain_of_anyWord (hword : words.any s.cursor.isWord = true) :
    s.cursor.kind.Plain := by
  obtain ⟨word, -, hword⟩ := List.any_eq_true.mp hword
  exact plain_of_isWord hword

theorem Steady.ifSeeingAt (hp : TakesAt ctx k p) (hq : Steady ctx q) :
    Steady ctx (Grammar.seeing k >>= fun b => if b = true then p else q) := by
  intro s h
  refine .seeing ?_
  split
  · rename_i hkind
    exact .of_takesAt hp fun _ => beq_iff_eq.mp hkind
  · exact hq s h

theorem Takes.at (hp : Takes ctx p) (hk : k.Plain) : TakesAt ctx k p :=
  fun s h hkind => hp s h fun hh => plain_of_kind (hkind hh) hk

theorem Steady.ifSeeing (hk : k.Plain) (hp : Takes ctx p) (hq : Steady ctx q) :
    Steady ctx (Grammar.seeing k >>= fun b => if b = true then p else q) :=
  .ifSeeingAt (hp.at hk) hq

theorem Steady.unlessSeeing (hp : Steady ctx p) (hq : Steady ctx q) :
    Steady ctx (Grammar.seeing k >>= fun b => if (!b) = true then p else q) := by
  intro s h
  refine .seeing ?_
  split
  · exact hp s h
  · exact hq s h

theorem eat_ok (hrun : eat k ctx s = .ok (b, t)) :
    b = true ∧ s.cursor.kind = k ∧ t = s.took ctx .code ∨
      b = false ∧ s.cursor.kind ≠ k ∧ t = s := by
  obtain ⟨_, _, ⟨⟩, hrun⟩ := bind_ok hrun
  split at hrun
  · rename_i hkind
    cases hrun
    exact .inl ⟨rfl, beq_iff_eq.mp hkind, rfl⟩
  · rename_i hkind
    cases hrun
    exact .inr ⟨rfl, fun heq => hkind (beq_iff_eq.mpr heq), rfl⟩

theorem Goes.eat {g : Bool → Parser β} (hk : k.Plain) (hyes : s.cursor.kind = k →
      Goes ctx (s.took ctx .code) (h ∧ Onward ctx s (s.took ctx .code)) (g true) R)
    (hno : s.cursor.kind ≠ k → Goes ctx s h (g false) R) :
    Goes ctx s h (Grammar.eat k >>= g) R := by
  unfold Grammar.eat
  rw [bind_assoc]
  refine .seeing ?_
  split
  · rename_i hkind
    rw [beq_iff_eq] at hkind
    rw [bind_assoc]
    exact .next (fun _ => by rw [hkind]; exact hk) (hyes hkind)
  · rename_i hkind
    rw [beq_iff_eq] at hkind
    exact hno hkind

theorem eat_steady (hk : k.Plain) : Steady ctx (eat k) := by
  intro s h
  have hgo : Goes ctx s h (Grammar.eat k >>= Pure.pure) fun _ _ => True :=
    .eat hk (fun _ => .done) fun _ => .done
  rwa [bind_pure] at hgo

theorem Goes.eatWord {g : Bool → Parser β} (hyes : s.cursor.isWord word = true →
      Goes ctx (s.took ctx .code) (h ∧ Onward ctx s (s.took ctx .code)) (g true) R)
    (hno : s.cursor.isWord word = false → Goes ctx s h (g false) R) :
    Goes ctx s h (Grammar.eatWord word >>= g) R := by
  unfold Grammar.eatWord
  rw [bind_assoc]
  refine .seeingWord ?_
  split
  · rename_i hword
    rw [bind_assoc]
    exact .next (fun _ => plain_of_isWord hword) (hyes hword)
  · rename_i hword
    exact hno (by simpa using hword)

theorem eatWord_steady : Steady ctx (eatWord word) := by
  intro s h
  have hgo : Goes ctx s h (Grammar.eatWord word >>= Pure.pure) fun _ _ => True :=
    .eatWord (fun _ => .done) fun _ => .done
  rwa [bind_pure] at hgo

theorem skip_steady (hk : k.Plain) : Steady ctx (skip k) := by
  unfold skip
  exact .ifSeeing hk next_takes (.pure _)

end Moving

/-! ## Errors -/

section Errors

variable {Q : Unit → State → Prop}

theorem failAt_moves {stop : Nat} :
    Moves ctx s h (failAt cause start stop) Q := by
  rintro _ _ ⟨⟩ hclean
  exact (Cursor.not_failed hclean).elim

theorem failHere_moves : Moves ctx s h (failHere cause) Q :=
  .look rfl failAt_moves

theorem expecting_moves : Moves ctx s h (expecting label) Q :=
  .look rfl failHere_moves

theorem expecting_goes : Goes ctx s h (expecting label) Q := expecting_moves

theorem Moves.expecting {g : Unit → Parser β}
    (hg : ∀ t, Moves ctx t False (g ()) R) : Moves ctx s h (Grammar.expecting label >>= g) R :=
  expecting_moves.bind fun _ t => (hg t).pre fun hh => hh.2.2

theorem Goes.expecting {g : Unit → Parser β}
    (hg : ∀ t, Goes ctx t False (g ()) R) : Goes ctx s h (Grammar.expecting label >>= g) R :=
  expecting_goes.bind fun _ t => (hg t).pre fun hh => hh.2.2

/-- The parser ends in an error when it is started in `s`. -/
def Stops (ctx : Context) (s : State) (p : Parser α) : Prop :=
  ∀ a t, p ctx s = .ok (a, t) → ¬ t.Clean

theorem Stops.look (hp : p ctx s = .ok (a, s))
    (hg : Stops ctx s (g a)) : Stops ctx s (p >>= g) := by
  intro b u hrun
  obtain ⟨a', t, hpa, hgb⟩ := bind_ok hrun
  rw [hp] at hpa
  cases hpa
  exact hg b u hgb

theorem Stops.bind (hp : Stops ctx s p)
    (hg : ∀ a t, Moves ctx t False (g a) fun _ _ => False) : Stops ctx s (p >>= g) := by
  intro b u hrun hclean
  obtain ⟨a, t, hpa, hgb⟩ := bind_ok hrun
  exact hp a t hpa (hg a t b u hgb hclean).1

theorem expecting_stops : Stops ctx s (expecting label) := by
  rintro _ _ ⟨⟩ hclean
  exact Cursor.not_failed hclean

theorem expect_stops (hk : s.cursor.kind ≠ k) : Stops ctx s (expect k) := by
  refine .look (a := false) ?_ expecting_stops
  have hno : (s.cursor.kind == k) = false := by simpa using hk
  show (if (s.cursor.kind == k) = true then _ else _ : Parser Bool) ctx s = _
  rw [hno]
  rfl

theorem unexpected_goes : Goes ctx s h unexpected Q := .look rfl failHere_moves

theorem unsupported_goes {what : String} : Goes ctx s h (unsupported what) Q := failHere_moves

theorem expect_moves (hpass : s.cursor.kind = k → h → s.Passable .code) :
    Moves ctx s h (expect k) fun _ t =>
      At t.tokens s.tokens.size k ∧ t.tokens.size = s.tokens.size + 1 ∧ t.Outside := by
  unfold expect eat
  rw [bind_assoc]
  refine .look rfl ?_
  split
  · rename_i hkind
    rw [beq_iff_eq] at hkind
    rw [bind_assoc]
    refine Moves.advance (hpass hkind) (.clean (.pure fun _ hh => ?_))
    have houtside := (hpass hkind hh.1.1).outside hh.2
    rw [← hkind]
    exact ⟨at_took _ _ .code, took_tokens_size .code, houtside⟩
  · exact expecting_moves

theorem expect_grows (hk : k.Plain) : Grows ctx (expect k) := by
  intro s h
  refine (expect_moves fun hkind hh => hh.2.passable (live_of_kind hkind hk.ne_eof)).mono id
    fun _ t _ hrun hat => ⟨⟨hrun, ?_, hat.2.2⟩, hat.1.lt_size⟩
  unfold Adds
  rw [hat.2.1]
  exact .single hat.1 hk

theorem expect_steady (hk : k.Plain) : Steady ctx (expect k) := (expect_grows hk).steady

theorem expectWord_steady : Steady ctx (expectWord word label) := by
  intro s h
  unfold expectWord
  exact .eatWord (fun _ => .done) fun _ => expecting_goes

theorem semicolon_steady : Steady ctx semicolon := by
  intro s h
  unfold semicolon
  refine .eat (by decide) (fun _ => ?_) fun _ => ?_
  · exact .canEnd fun _ => .done
  · refine .canEnd fun b => ?_
    split
    · exact expecting_goes
    · exact .done

end Errors

/-! ## Notes -/

theorem note_moves {Q : Unit → State → Prop} (hf : h → Note s index f)
    (hq : h → Q () (s.noting index f)) :
    Moves ctx s h (note index f) Q := by
  rintro _ _ ⟨⟩ hclean
  exact ⟨hclean, fun _ hh => ⟨.note (hf hh), hq hh⟩⟩

theorem noteAt_moves {Q : Unit → State → Prop} (hf : h → Note s index f)
    (hq : h → Q () (s.noting index f)) :
    Moves ctx s h (noteAt index f) Q := by
  refine .look rfl ?_
  split
  · exact note_moves hf hq
  · exact .throw _

theorem onward_noting (hf : Note s index f) (houtside : s.Outside) :
    Onward ctx s (s.noting index f) :=
  .of_size_eq (.note hf) (Array.size_modify ..)
    ((recast_noting s index hf.harmless).outside houtside)

/-- What is not named in a tag can have any role. -/
theorem setRole_goes {role : Role} (hnamed : h → ¬ At s.tokens index .jsxName) :
    Goes ctx s h (setRole index role) fun _ _ => True := by
  have hnote : h → Note s index fun t => { t with role := some role } :=
    fun hh => .role role fun hname => absurd hname (hnamed hh)
  exact note_moves (fun hh => hnote hh.1) fun hh => ⟨onward_noting (hnote hh.1) hh.2, trivial⟩

theorem setRhsEnd_steady : Steady ctx (setRhsEnd index) := fun _ _ =>
  .look rfl (noteAt_moves (fun _ => .rhsEnd) fun hh => ⟨onward_noting .rhsEnd hh.2, trivial⟩)

theorem nextWithRhs_takes {p : Parser Unit} (hp : Steady ctx p) : Takes ctx (nextWithRhs p) := by
  intro s h hplain
  refine .position (Goes.taking (next_takes s _ fun hh => hplain hh.1) fun _ t => ?_)
  exact (hp t _).bind fun _ u => setRhsEnd_steady u _

theorem markTypeFrom_goes (htyped : h → ctx.source.dialect.typed = true)
    (hstart : h → s.Anchored start) : Goes ctx s h (markTypeFrom start) fun _ _ => True := by
  rintro _ _ ⟨⟩ hclean
  refine ⟨hclean, fun _ hh => ?_⟩
  have hrun : Run ctx s (s.marking start) := .mark (htyped hh.1) (hstart hh.1)
  exact ⟨hrun, .of_size_eq hrun Array.size_mapIdx ((recast_marking s start).outside hh.2), trivial⟩

theorem allTypeFrom_ok (hrun : allTypeFrom start ctx s = .ok (b, t)) :
    t = s ∧ b = (s.tokens.toList.drop start).all (·.isType) := by
  obtain ⟨_, _, ⟨⟩, hrun⟩ := bind_ok hrun
  split at hrun
  · cases hrun
    exact ⟨rfl, rfl⟩
  · cases hrun

theorem Goes.allTypeFrom {g : Bool → Parser β}
    (hg : Goes ctx s h (g ((s.tokens.toList.drop start).all (·.isType))) R) :
    Goes ctx s h (Grammar.allTypeFrom start >>= g) R := by
  refine Moves.looking (fun _ _ => allTypeFrom_ok) ?_
  rintro _ rfl
  exact hg

theorem lastToken_ok {last : Token} (hrun : lastToken ctx s = .ok (last, t)) : t = s := by
  obtain ⟨_, _, ⟨⟩, hdemand⟩ := bind_ok hrun
  exact (demand_ok hdemand).2

theorem Goes.lastToken {g : Token → Parser β}
    (hg : ∀ last, Goes ctx s h (g last) R) : Goes ctx s h (Grammar.lastToken >>= g) R :=
  Moves.looking (fun _ _ hrun => ⟨lastToken_ok hrun, trivial⟩) fun last _ => hg last

theorem Goes.keep (hp : Goes ctx s (s.Anchored start) p fun _ _ => True)
    (hg : ∀ a t, Goes ctx t (t.Anchored start) (g a) R) :
    Goes ctx s (s.Anchored start) (p >>= g) R :=
  hp.bind fun a t => (hg a t).pre fun hh => hh.2.1.anchored hh.1

theorem Goes.keepOptional {c : Prop} [Decidable c] {p : Parser Unit}
    (hp : c → Goes ctx s (s.Anchored start) p fun _ _ => True)
    (hrest : ∀ t, Goes ctx t (t.Anchored start) (rest ()) R) :
    Goes ctx s (s.Anchored start) (if c then p >>= rest else rest ()) R :=
  .choose hp fun t => (hrest t).pre fun hh => hh.2.anchored hh.1

/-! ## Types, scopes and attempts -/

section Around

section

variable (htyped : ctx.source.dialect.typed = true)
include htyped

theorem typeContext_goes (hp : Goes ctx (s.typing true) h p Q) :
    Goes ctx s h (typeContext p) fun a t => ∃ u, Q a u ∧ t = u.typing s.cursor.inType := by
  intro a t hrun hclean
  obtain ⟨⟨a', u⟩, hpa, hrest⟩ := (bind_eq_ok_iff (x := p ctx (s.typing true))).mp hrun
  cases hrest
  obtain ⟨hclean', hgo⟩ := hp a u hpa hclean
  refine ⟨hclean', fun hsound hh => ?_⟩
  obtain ⟨hrun', honward, hq⟩ := hgo (hsound.typing htyped true) hh
  have hrun₁ : Run ctx s (u.typing s.cursor.inType) := .typing htyped honward.adds hrun'
  exact ⟨hrun₁, ⟨hrun₁, honward.adds, honward.outside⟩, u, hq, rfl⟩

theorem typeContext_takes (hp : Takes ctx p) : Takes ctx (typeContext p) := by
  intro s h hplain
  refine (typeContext_goes htyped (hp (s.typing true) h hplain)).mono (fun hh => hh) ?_
  rintro _ _ - - ⟨u, hlt, rfl⟩
  exact hlt

/-- A name that is read in a type is a name, and `class` is `class`. -/
theorem nextAsType_goes
    (hplain : s.cursor.kind.Plain) (hnext : (s.cursor.advance ctx.source .code).kind = k)
    (hk : k = .name ∨ k = .kwClass) :
    Goes ctx s h nextAsType fun _ t => t.cursor.kind = k ∧ s.tokens.size < t.tokens.size := by
  refine (typeContext_goes (Q := fun _ t => t = (s.typing true).took ctx .code) htyped
    (next_goes_to (fun _ => hplain) fun _ => rfl)).mono id ?_
  rintro _ _ - - ⟨u, rfl, rfl⟩
  have hread := Cursor.advance_inType hnext (hk.imp_right .inr) true
  refine ⟨(congrArg (·.kind) hread).trans hnext, ?_⟩
  show s.tokens.size < ((s.typing true).took ctx .code).tokens.size
  rw [took_tokens_size]
  exact Nat.lt_succ_self _

theorem nextAsType_takes : Takes ctx nextAsType :=
  typeContext_takes htyped next_takes

end

theorem inScope_goes (hp : Goes ctx s.deeper h p Q) :
    Goes ctx s h (inScope isFunction p) fun a t => ∃ u, Q a u ∧ t = u.leaving s isFunction := by
  intro a t hrun hclean
  rw [inScope_eq] at hrun
  obtain ⟨a', u, hpa, hrest⟩ := bind_ok hrun
  obtain ⟨_, v, hclose, ⟨⟩⟩ := bind_ok hrest
  obtain ⟨_, _, ⟨⟩, hclose⟩ := bind_ok hclose
  split at hclose
  · cases hclose
  cases hclose
  obtain ⟨hclean', hgo⟩ := hp a u hpa hclean
  refine ⟨hclean', fun hsound hh => ?_⟩
  obtain ⟨hrun', honward, hq⟩ := hgo hsound.deeper hh
  have hrun₁ : Run ctx s (u.leaving s isFunction) := .scope isFunction hrun'
  exact ⟨hrun₁, ⟨hrun₁, honward.adds, honward.outside⟩, u, hq, rfl⟩

theorem inScope_steady (hp : Steady ctx p) :
    Steady ctx (inScope isFunction p) := fun _ h => (inScope_goes (hp _ h)).weaken

theorem inScope_grows (hp : Grows ctx p) : Grows ctx (inScope isFunction p) := by
  intro s h
  refine (inScope_goes (hp _ h)).mono (fun hh => hh) ?_
  rintro _ _ - - ⟨u, hlt, rfl⟩
  exact hlt

/-- An attempt that is given up leaves the state it began in, so that it may be given up
anywhere. -/
theorem attempt_of_moves {p : Parser Bool} [∀ n, Keeps ctx n n p] {Q : Bool → State → Prop}
    (hp : Moves ctx s (h ∧ s.Outside) p fun b t => b = true → Onward ctx s t ∧ Q b t) :
    Goes ctx s h (attempt p) fun b t => if b then Q true t else t = s := by
  intro b t hrun hclean
  rcases attempt_ok (keepsAt_here s) hrun with ⟨rfl, hpt⟩ | ⟨rfl, rfl⟩
  · obtain ⟨hclean', hgo⟩ := hp true t hpt hclean
    exact ⟨hclean', fun hsound hh => (hgo hsound hh).imp_right fun hq => hq rfl⟩
  · exact ⟨hclean, fun _ hh => ⟨.refl _, .refl hh.2, rfl⟩⟩

theorem attempt_goes {p : Parser Bool} [∀ n, Keeps ctx n n p] {Q : Bool → State → Prop}
    (hp : Goes ctx s h p Q) :
    Goes ctx s h (attempt p) fun b t => if b then Q true t else t = s :=
  attempt_of_moves (Moves.mono hp id fun _ _ _ _ hq _ => hq)

/-- What was tried has taken a token, or left all as it was. -/
def Tried (s : State) (b : Bool) (t : State) : Prop :=
  if b then s.tokens.size < t.tokens.size else t = s

theorem Tried.grows {t : State} (ht : Tried s b t) (hb : b = true) :
    s.tokens.size < t.tokens.size := by
  simpa [Tried, hb] using ht

theorem Tried.eq {t : State} (ht : Tried s b t) (hb : ¬ b = true) : t = s := by
  simpa [Tried, hb] using ht

theorem attempt_tried {p : Parser Bool} [∀ n, Keeps ctx n n p]
    (hp : Goes ctx s h p fun _ t => s.tokens.size < t.tokens.size) :
    Goes ctx s h (attempt p) (Tried s) := attempt_goes hp

/-- What was looked at before going back is forgotten. -/
theorem peek_goes [∀ n, Keeps ctx n n p] (hq : ∀ a, Q a s) : Goes ctx s h (peek p) Q := by
  intro a t hrun hclean
  obtain ⟨rfl, -⟩ := peek_ok (keepsAt_here s) hrun
  exact ⟨hclean, fun _ hh => ⟨.refl _, .refl hh.2, hq a⟩⟩

theorem attempt_steady {p : Parser Bool} [∀ n, Keeps ctx n n p] (hp : Steady ctx p) :
    Steady ctx (attempt p) :=
  fun s h => (attempt_goes (hp s h)).weaken

end Around

/-! ## Loops -/

theorem repeatUpTo_steady {body : Parser Bool} (hbody : Steady ctx body) (n : Nat) :
    Steady ctx (repeatUpTo body n) := by
  induction n with
  | zero => exact fun s h => .throw _
  | succ n ih =>
    refine hbody.bind fun b => ?_
    split
    · exact ih
    · exact .pure _

theorem repeatWhile_steady {body : Parser Bool} (hbody : Steady ctx body) :
    Steady ctx (repeatWhile body) := fun s h => .read (repeatUpTo_steady hbody _ s h)

/-- A loop that tests before each round; `P` is what the test tells. -/
theorem whileTrue_steady {test : Parser Bool} (P : State → Prop)
    (htest : ∀ s h, Goes ctx s h test fun b t => b = true → P t)
    (hbody : ∀ s, Goes ctx s (P s) body fun _ _ => True) : Steady ctx (whileTrue test body) := by
  refine repeatWhile_steady fun s h => ?_
  refine (htest s h).bind fun b t => ?_
  split
  · rename_i hb
    refine ((hbody t).pre fun hh => hh.2.2 hb).bind fun _ _ => .done
  · exact .done

theorem untilClose_steady {close : Kind} (hclose : close.Plain) (hbody : Steady ctx body) :
    Steady ctx (untilClose close body) := by
  refine Steady.bind ?_ fun _ => expect_steady hclose
  refine whileTrue_steady (fun _ => True) (fun s h => ?_) fun s => hbody s _
  exact .seeingAny (.pure fun _ _ _ => trivial)

theorem commaList_steady {close : Kind} (hclose : close.Plain) (hitem : Steady ctx item) :
    Steady ctx (commaList close item) := by
  refine untilClose_steady hclose (hitem.bind fun _ s h => .seeing ?_)
  split
  · exact expect_steady (by decide) s h
  · exact .done

theorem separatedBy_steady {separator : Kind} (hsep : separator.Plain) (hitem : Steady ctx item) :
    Steady ctx (separatedBy separator item) :=
  repeatWhile_steady (hitem.bind fun _ => eat_steady hsep)

/-- A list with separators has one item at least. -/
theorem separatedBy_grows {separator : Kind} (hsep : separator.Plain) (hitem : Grows ctx item) :
    Grows ctx (separatedBy separator item) := by
  intro s h
  refine .read ?_
  cases ctx.budget with
  | zero => exact .throw _
  | succ n =>
    refine Grows.bind (hitem.bind fun _ => eat_steady hsep) (fun b => ?_) s h
    split
    · exact repeatUpTo_steady (hitem.steady.bind fun _ => eat_steady hsep) n
    · exact .pure _

/-! ## Brackets -/

/-- The code since the state `s` is ended by a token of the kind `c`, and code follows it. -/
def Closed (c : Kind) (s t : State) : Prop :=
  ∃ m, Spans t.tokens .code s.tokens.size m ∧ At t.tokens m c ∧
    Spans t.tokens .code (m + 1) t.tokens.size

/-- The parser `p`, started in `s` outside of tags where `h` holds, ends in an error or takes code,
the token of the kind `c` that ends it, and code after that. -/
def Closes (ctx : Context) (c : Kind) (s : State) (h : Prop) (p : Parser α)
    (Q : α → State → Prop) : Prop :=
  Moves ctx s (h ∧ s.Outside) p fun a t => Closed c s t ∧ t.Outside ∧ Q a t

/-- The parser closes what ends in a token of the kind `c`, from everywhere. -/
def Encloses (ctx : Context) (c : Kind) (p : Parser α) : Prop :=
  ∀ s h, Closes ctx c s h p fun _ _ => True

theorem Closed.after {c : Kind} (hadds : Adds .code s t) (hrun : Run ctx t u)
    (hclosed : Closed c t u) : Closed c s u := by
  obtain ⟨m, hcode, hc, hrest⟩ := hclosed
  exact ⟨m, (hadds.mono hrun.extends).append hcode, hc, hrest⟩

theorem Closed.before {c : Kind} (hclosed : Closed c s t) (hrun : Run ctx t u)
    (hadds : Adds .code t u) : Closed c s u := by
  obtain ⟨m, hcode, hc, hrest⟩ := hclosed
  have hext := hrun.extends
  exact ⟨m, hcode.mono hext, hc.mono hext, (hrest.mono hext).append hadds⟩

section Brackets

variable {c : Kind}

theorem Closes.inside (hp : Goes ctx s h p Q)
    (hg : ∀ a t, Closes ctx c t (h ∧ Onward ctx s t ∧ Q a t) (g a) R) :
    Closes ctx c s h (p >>= g) R := by
  refine Moves.bind hp fun a t => (hg a t).mono ?_ ?_
  · rintro ⟨⟨hh, -⟩, -, honward, hq⟩
    exact ⟨⟨hh, honward, hq⟩, honward.outside⟩
  · rintro b u ⟨-, -, honward, -⟩ hrun ⟨hclosed, hr⟩
    exact ⟨.after honward.adds hrun hclosed, hr⟩

theorem Closes.bind (hp : Closes ctx c s h p Q)
    (hg : ∀ a t, Goes ctx t (h ∧ Run ctx s t ∧ Q a t) (g a) R) :
    Closes ctx c s h (p >>= g) R := by
  refine Moves.bind hp fun a t => Moves.mono (hg a t) ?_ ?_
  · rintro ⟨⟨hh, -⟩, hrun, -, houtside, hq⟩
    exact ⟨⟨hh, hrun, hq⟩, houtside⟩
  · rintro b u ⟨-, -, hclosed, -⟩ hrun ⟨honward, hr⟩
    exact ⟨hclosed.before hrun honward.adds, honward.outside, hr⟩

theorem Closes.look (hp : p ctx s = .ok (a, s)) (hg : Closes ctx c s h (g a) R) :
    Closes ctx c s h (p >>= g) R := Moves.look hp hg

theorem Closes.optional {b : Prop} [Decidable b] {p : Parser Unit}
    (hp : b → Goes ctx s h p fun _ _ => True) (hrest : Encloses ctx c (rest ())) :
    Closes ctx c s h (if b then p >>= rest else rest ()) fun _ _ => True := by
  split
  · rename_i hb
    exact .inside (hp hb) fun _ t => hrest t _
  · exact hrest s h

theorem Steady.inside (hp : Steady ctx p) (hg : ∀ a, Encloses ctx c (g a)) :
    Encloses ctx c (p >>= g) := fun s h => .inside (hp s h) fun a t => hg a t _

theorem Encloses.bind (hp : Encloses ctx c p) (hg : ∀ a, Steady ctx (g a)) :
    Encloses ctx c (p >>= g) := fun s h => Closes.bind (hp s h) fun a t => hg a t _

theorem expect_encloses (hc : c ≠ .eof) : Encloses ctx c (expect c) := by
  intro s h
  refine (expect_moves fun hkind hh => hh.2.passable (live_of_kind hkind hc)).mono id
    fun _ t _ _ hat => ⟨⟨s.tokens.size, .nil _, hat.1, ?_⟩, hat.2.2, trivial⟩
  rw [hat.2.1]
  exact .nil _

theorem untilClose_encloses (hc : c ≠ .eof) (hbody : Steady ctx body) :
    Encloses ctx c (untilClose c body) := by
  refine Steady.inside ?_ fun _ => expect_encloses hc
  refine whileTrue_steady (fun _ => True) (fun s h => ?_) fun s => hbody s _
  exact .seeingAny (.pure fun _ _ _ => trivial)

theorem commaList_encloses (hc : c ≠ .eof) (hitem : Steady ctx item) :
    Encloses ctx c (commaList c item) :=
  untilClose_encloses hc (hitem.bind fun _ =>
    .unlessSeeing (expect_steady (by decide)) (.pure _))

theorem Closed.group (hclosed : Closed c (s.took ctx .code) u) (hpair : o.Pair c)
    (hkind : s.cursor.kind = o) (hrun : Run ctx (s.took ctx .code) u) : Adds .code s u := by
  obtain ⟨m, hcode, hc, hrest⟩ := hclosed
  have hopen : At (s.took ctx .code).tokens s.tokens.size o := by
    rw [← hkind]
    exact at_took _ _ .code
  rw [took_tokens_size] at hcode
  exact .group hpair (hopen.mono hrun.extends) hcode hc hrest

theorem Goes.opening {g : Unit → Parser β} (hpair : o.Pair c) (hkind : h → s.cursor.kind = o)
    (hg : Closes ctx c (s.took ctx .code) (h ∧ Run ctx s (s.took ctx .code)) (g ()) R) :
    Goes ctx s h (Grammar.next >>= g) R := by
  refine Moves.advance (fun hh => hh.2.passable (live_of_kind (hkind hh.1) hpair.live.1))
    (.clean (Moves.mono hg ?_ ?_))
  · rintro ⟨⟨hh, hrun⟩, hclean⟩
    exact ⟨⟨hh.1, hrun⟩,
      (hh.2.passable (live_of_kind (hkind hh.1) hpair.live.1)).outside hclean⟩
  · rintro b u ⟨⟨hh, hrun⟩, -⟩ hrun' ⟨hclosed, houtside, hr⟩
    exact ⟨⟨hrun.trans hrun', hclosed.group hpair (hkind hh.1) hrun', houtside⟩, hr⟩

theorem Encloses.takesAt {g : Unit → Parser β} (hpair : o.Pair c) (hg : Encloses ctx c (g ())) :
    TakesAt ctx o (Grammar.next >>= g) := by
  intro s h hkind
  refine .opening hpair hkind (Moves.mono (hg _ _) id fun _ t _ hrun hclosed =>
    ⟨hclosed.1, hclosed.2.1, ?_⟩)
  have hsize := hrun.size_le
  rwa [took_tokens_size] at hsize

theorem Encloses.grows {g : Unit → Parser β} (hpair : o.Pair c) (hg : Encloses ctx c (g ())) :
    Grows ctx (Grammar.expect o >>= g) := by
  intro s h
  unfold expect eat
  rw [bind_assoc, bind_assoc]
  refine .look rfl ?_
  split
  · rename_i hkind
    rw [bind_assoc]
    exact (hg.takesAt hpair).of_kind (beq_iff_eq.mp hkind)
  · exact Moves.expecting fun t => Moves.mono (hg t False) (fun hno => hno.elim)
      fun _ _ hno _ _ => hno.elim

/-- The parser `p` ends in an error, or closes what ends in a token of the kind `c`, or gives up. -/
def MayClose (ctx : Context) (c : Kind) (s : State) (h : Prop) (p : Parser Bool) : Prop :=
  Moves ctx s (h ∧ s.Outside) p fun b t => b = true → Closed c s t ∧ t.Outside

theorem MayClose.inside {g : α → Parser Bool} (hp : Goes ctx s h p Q)
    (hg : ∀ a t, MayClose ctx c t (h ∧ Onward ctx s t ∧ Q a t) (g a)) :
    MayClose ctx c s h (p >>= g) := by
  refine Moves.bind hp fun a t => Moves.mono (hg a t) ?_ ?_
  · rintro ⟨⟨hh, -⟩, -, honward, hq⟩
    exact ⟨⟨hh, honward, hq⟩, honward.outside⟩
  · rintro b u ⟨-, -, honward, -⟩ hrun hclosed hb
    exact (hclosed hb).imp_left (.after honward.adds hrun)

theorem MayClose.look {g : α → Parser Bool} (hp : p ctx s = .ok (a, s))
    (hg : MayClose ctx c s h (g a)) : MayClose ctx c s h (p >>= g) := Moves.look hp hg

theorem MayClose.giveUp : MayClose ctx c s h (pure false) := Moves.pure fun _ _ => nofun

theorem Encloses.mayClose {p : Parser Bool} (hp : Encloses ctx c p) : MayClose ctx c s h p :=
  Moves.mono (hp s h) id fun _ _ _ _ hclosed _ => ⟨hclosed.1, hclosed.2.1⟩

theorem attempt_opening {p : Parser Bool} [∀ n, Keeps ctx n n p] {g : Unit → Parser Bool}
    (hp : p = (Grammar.next >>= g)) (hpair : o.Pair c) (hkind : s.cursor.kind = o)
    (hg : ∀ h, MayClose ctx c (s.took ctx .code) h (g ())) :
    Goes ctx s h (attempt p) fun _ _ => True := by
  refine (attempt_of_moves (Q := fun _ _ => True) ?_).weaken
  rw [hp]
  refine Moves.advance (fun hh => hh.2.passable (live_of_kind hkind hpair.live.1))
    (.clean (Moves.mono (hg True) ?_ ?_))
  · exact fun hh => ⟨trivial,
      (hh.1.1.2.passable (live_of_kind hkind hpair.live.1)).outside hh.2⟩
  · rintro b u ⟨⟨-, hrun⟩, -⟩ hrun' hclosed hb
    obtain ⟨hclosed, houtside⟩ := hclosed hb
    exact ⟨⟨hrun.trans hrun', hclosed.group hpair hkind hrun', houtside⟩, trivial⟩

end Brackets

/-! ## Identifiers -/

theorem plain_of_isReserved (h : (k == .name || k.isReserved) = true) : k.Plain := by
  cases k <;> first | decide | cases h

theorem Moves.onCursor {g : Unit → Parser β} {f : Cursor → Cursor}
    (hclean : (f s.cursor).error = none → s.Clean) (hlive : h → s.cursor.kind ≠ .eof ∧ s.Outside)
    (hread : Sound ctx s → h → (f s.cursor).error = none → Reread s.cursor (f s.cursor))
    (hg : Moves ctx { s with cursor := f s.cursor }
      (h ∧ Run ctx s { s with cursor := f s.cursor } ∧ Reread s.cursor (f s.cursor)) (g ()) R) :
    Moves ctx s h (Grammar.onCursor f >>= g) R := by
  intro b u hrun hclean'
  obtain ⟨herror, hgo⟩ := hg b u hrun hclean'
  refine ⟨hclean herror, fun hsound hh => ?_⟩
  have hreread := hread hsound hh herror
  have hrun₁ : Run ctx s { s with cursor := f s.cursor } :=
    .reread hreread (hlive hh).1 (hlive hh).2 herror
  obtain ⟨hrun₂, hr⟩ := hgo (hrun₁.sound hsound) ⟨hh, hrun₁, hreread⟩
  exact ⟨hrun₁.trans hrun₂, hr⟩

theorem Goes.onCursor {g : Unit → Parser β} {f : Cursor → Cursor}
    (hclean : (f s.cursor).error = none → s.Clean) (hlive : h → s.cursor.kind ≠ .eof)
    (hread : Sound ctx s → h → (f s.cursor).error = none → Reread s.cursor (f s.cursor))
    (hg : Goes ctx { s with cursor := f s.cursor } h (g ()) R) :
    Goes ctx s h (Grammar.onCursor f >>= g) R := by
  refine Moves.onCursor hclean (fun hh => ⟨hlive hh.1, hh.2⟩) (fun hsound hh => hread hsound hh.1)
    (Moves.mono hg (fun hh => ⟨hh.1.1, hh.2.2.outside⟩) ?_)
  rintro b u ⟨-, hrun, hreread⟩ - ⟨honward, hr⟩
  have hread : Onward ctx s { s with cursor := f s.cursor } := .of_size_eq hrun rfl hreread.outside
  exact ⟨hread.trans honward, hr⟩

theorem reread_goes {f : Cursor → Option Cursor} {Q : Unit → State → Prop}
    (hlive : h → s.cursor.kind ≠ .eof)
    (hclean : ∀ c, f s.cursor = some c → c.error = none → s.Clean)
    (hread : ∀ c, f s.cursor = some c → c.error = none → Sound ctx s → h →
      Reread s.cursor c ∧ Q () { s with cursor := c }) : Goes ctx s h (reread f) Q := by
  intro _ t hrun hclean'
  obtain ⟨_, _, ⟨⟩, hrun⟩ := bind_ok hrun
  obtain ⟨c, _, hdemand, hset⟩ := bind_ok hrun
  obtain ⟨hc, rfl⟩ := demand_ok hdemand
  cases hset
  refine ⟨hclean c hc hclean', fun hsound hh => ?_⟩
  obtain ⟨hreread, hq⟩ := hread c hc hclean' hsound hh.1
  have hrun' := @Run.reread ctx _ _ hreread (hlive hh.1) hh.2 hclean'
  exact ⟨hrun', .of_size_eq hrun' rfl hreread.outside, hq⟩

theorem Sound.rest_ne_nil (hsound : Sound ctx s) (hlive : s.cursor.kind ≠ .eof) :
    s.cursor.start.rest ≠ [] := by
  intro hnil
  have hwide := hsound.standing.wide ⟨hlive, hsound.standing.notPiece⟩
  obtain ⟨n, hstop⟩ := hsound.standing.stop
  rw [hstop] at hwide
  simp [Text.Point.skip, hnil] at hwide

theorem reread_kind
    (hk : k.Solid ∧ k.spelling = none ∧ k ≠ .jsxTagEnd ∧ k ≠ .ellipsis ∧ k ≠ .colon ∧ k ≠ .semi ∧
      k ≠ .jsxName ∧ k ≠ .eq ∧ k ≠ .string)
    (hsound : Sound ctx s) (hlive : s.cursor.kind ≠ .eof) (hclean : s.Clean)
    (hlexed : s.cursor.Lexed → ({ s.cursor with kind := k } : Cursor).Lexed) :
    Reread s.cursor { s.cursor with kind := k } := by
  have hwide := hsound.standing.wide ⟨hlive, hsound.standing.notPiece⟩
  exact ⟨rfl, rfl, rfl, rfl, hclean, hk, hsound.standing.stop, hwide, hlexed⟩

theorem identifierName_grows : Grows ctx identifierName := by
  intro s h
  unfold identifierName
  refine .kind ?_
  split
  · rename_i hname
    have hkind : s.cursor.kind ≠ .eof := (plain_of_isReserved hname).ne_eof
    refine .onCursor id (fun _ => hkind) (fun hsound _ hclean =>
      reread_kind (by decide) hsound hkind
      hclean fun hlexed => hlexed.recastName hname) ?_
    exact next_goes_to (fun _ => (by decide : Kind.name.Plain)) fun _ => by simp
  · exact expecting_goes

theorem identifierName_steady : Steady ctx identifierName := identifierName_grows.steady

theorem identifier_grows {role : Option Role} : Grows ctx (identifier role) := by
  intro s h
  unfold identifier
  refine .seeing ?_
  split
  · rename_i hname
    refine .position (.nextTaking (fun _ => plain_of_seeing hname (by decide)) ?_)
    split
    · exact setRole_goes fun hh => hh.2.unnamed hh.1.2.outside
    · exact .done
  · exact expecting_goes

theorem identifier_steady {role : Option Role} : Steady ctx (identifier role) :=
  identifier_grows.steady

theorem dottedNames_steady : Steady ctx dottedNames :=
  whileTrue_steady (fun _ => True)
    (fun s h => (eat_steady (by decide) s h).mono id fun _ _ _ _ _ _ => trivial)
    fun s => identifierName_steady s _

theorem moduleName_steady : Steady ctx moduleName := by
  unfold moduleName
  exact .ifSeeing (by decide) next_takes identifierName_steady

end Downlevel.Grammar
