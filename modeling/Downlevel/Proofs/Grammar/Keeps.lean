import Downlevel.Proofs.Grammar.Course
import Downlevel.Proofs.Grammar.Loop
import Downlevel.Proofs.Outcome
import Downlevel.Proofs.Token.Ranges

/-!
# What parsers leave alone

Going back to a snapshot drops the tokens and scopes that came after it, and leaves the others as
they are by then. It brings back the state of the snapshot only if nothing was noted on older tokens
in between. Productions do note things on tokens that they have taken, so what they leave alone is
said with two bounds: `Keeps ctx low high p` says that `p`, started with `high` tokens or more,
leaves the first `low` of them as they are, whatever it ends in. A production that notes nothing on
tokens from before keeps all there are, for any bounds.

With it goes what every state keeps to, error or not (`Placed`), the course that parsing takes
(`Course`), that the ranges from tokens to their ends stay nested or disjoint (`Ruled`), and that no
fault is met but those that are foreseen.

`Keeps` is a class, and its instances follow the text of a parser: what is made of parsers that keep
is found to keep.
-/

namespace Downlevel.Grammar

open Token (Ruled)

variable {α β : Type} {ctx : Context} {s t u : State} {low high : Nat} {a : α} {f : Fault}
  {c : Prop} {index start : Nat} {k : Kind} {mode : Mode} {q : Parser α}

/-! ## Runs of a parser -/

theorem bind_ok {p : Parser α} {g : α → Parser β} {b : β} {u : State}
    (hrun : (p >>= g) ctx s = .ok (b, u)) :
    ∃ a t, p ctx s = .ok (a, t) ∧ g a ctx t = .ok (b, u) := by
  obtain ⟨⟨a, t⟩, hp, hg⟩ := bind_eq_ok_iff.mp hrun
  exact ⟨a, t, hp, hg⟩

theorem bind_of_ok {p : Parser α} {g : α → Parser β} (hp : p ctx s = .ok (a, t)) :
    (p >>= g) ctx s = g a ctx t := by
  show (p ctx s >>= fun (x : α × State) => g x.1 ctx x.2) = _
  rw [hp]
  rfl

theorem bind_of_error {p : Parser α} {g : α → Parser β} (hp : p ctx s = .error f) :
    (p >>= g) ctx s = .error f :=
  bind_eq_error_iff.mpr (.inl hp)

theorem bind_error {p : Parser α} {g : α → Parser β} (hrun : (p >>= g) ctx s = .error f) :
    p ctx s = .error f ∨ ∃ a t, p ctx s = .ok (a, t) ∧ g a ctx t = .error f := by
  rcases bind_eq_error_iff.mp hrun with hp | ⟨⟨a, t⟩, hp, hg⟩
  · exact .inl hp
  · exact .inr ⟨a, t, hp, hg⟩

theorem demand_ok {o : Option α} (hrun : demand f o ctx s = .ok (a, t)) :
    o = some a ∧ t = s := by
  cases o with
  | none => cases hrun
  | some b =>
    cases hrun
    exact ⟨rfl, rfl⟩

/-! ## States -/

/-- What a state keeps to, whether or not there was an error. -/
structure Placed (text : List Char) (s : State) : Prop where
  cursor : s.cursor.Placed text
  scopes : ∀ c ∈ s.scopes, c.start ≤ c.stop ∧ c.stop ≤ s.tokens.size

/-- The state `t` is one that `s` can lead to, and has its first `low` tokens from `s`. -/
structure Above (text : List Char) (low : Nat) (s t : State) : Prop where
  size : s.tokens.size ≤ t.tokens.size
  tokens : ∀ i < low, t.tokens[i]? = s.tokens[i]?
  scopes : s.scopes.toList <+: t.scopes.toList
  depth : t.cursor.depth = s.cursor.depth
  placed : Placed text s → Placed text t
  course : Course text s t
  ruled : Ruled s.tokens → Ruled t.tokens

namespace Above

variable {text : List Char}

theorem refl (low : Nat) (s : State) : Above text low s s :=
  ⟨Nat.le_refl _, fun _ _ => rfl, List.prefix_refl _, rfl, id, .refl s, id⟩

theorem trans (h : Above text low s t) (h' : Above text low t u) : Above text low s u :=
  ⟨Nat.le_trans h.size h'.size, fun i hi => (h'.tokens i hi).trans (h.tokens i hi),
    h.scopes.trans h'.scopes, h'.depth.trans h.depth, fun hs => h'.placed (h.placed hs),
    h.course.trans h'.course, fun hs => h'.ruled (h.ruled hs)⟩

theorem mono {low' : Nat} (h : Above text low s t) (hle : low' ≤ low) : Above text low' s t :=
  ⟨h.size, fun i hi => h.tokens i (by omega), h.scopes, h.depth, h.placed, h.course, h.ruled⟩

theorem of_cursor {c : Cursor} (hdepth : c.depth = s.cursor.depth)
    (hplaced : s.cursor.Placed text → c.Placed text)
    (hcourse : Course text s { s with cursor := c }) : Above text low s { s with cursor := c } :=
  ⟨Nat.le_refl _, fun _ _ => rfl, List.prefix_refl _, hdepth,
    fun hs => ⟨hplaced hs.cursor, hs.scopes⟩, hcourse, id⟩

theorem failed {source : Source} {cause : SyntaxError.Cause} {stop : Nat}
    (h : Above source.text low s t)
    (hplaces : s.cursor.Poised source.text →
      Text.Place source.text start ∧ Text.Place source.text stop) :
    Above source.text low s { t with cursor := t.cursor.fail source cause start stop } :=
  ⟨h.size, h.tokens, h.scopes, h.depth,
    fun hs => ⟨Cursor.fail_placed (h.placed hs).cursor, (h.placed hs).scopes⟩,
    .of_poised h.course.spans fun hs => h.course.trans
      (.of_turned fun ht => Cursor.fail_turned ht (hplaces hs).1 (hplaces hs).2), h.ruled⟩

end Above

theorem shrink_size_eq {xs ys : Array α} (h : xs.toList <+: ys.toList) :
    ys.shrink xs.size = xs := by
  obtain ⟨rest, hrest⟩ := h
  apply Array.toList_inj.mp
  rw [Array.toList_shrink, ← hrest, ← Array.length_toList, List.take_left]

/-- Dropping what came later brings back a state all of whose tokens were left alone. -/
theorem Above.restored {text : List Char} (h : Above text s.tokens.size s t) :
    t.back s.snapshot = s := by
  have htokens : s.tokens.toList <+: t.tokens.toList := by
    rw [List.prefix_iff_eq_take]
    apply List.ext_getElem?
    intro i
    rw [List.getElem?_take, Array.length_toList]
    split
    · rename_i hi
      simpa using (h.tokens i hi).symm
    · rename_i hi
      simpa using hi
  rw [State.back, State.snapshot]
  dsimp only
  rw [shrink_size_eq htokens, shrink_size_eq h.scopes]

/-! ## Keeping -/

/-- The tokens end in `export`, or in `export type`. -/
inductive Exporting : Array Token → Prop where
  | plain (before : Array Token) {word : Token} (hword : word.kind = .kwExport) :
      Exporting (before.push word)
  | typed (before : Array Token) {word type : Token} (hword : word.kind = .kwExport)
      (htype : type.isWord .kwType = true) : Exporting ((before.push word).push type)

/-- A fault that parsing can end in from `s`: a bound was too small, or parsing came to an export
clause that missed one of its names. -/
def Foreseen (ctx : Context) (s : State) (f : Fault) : Prop :=
  f = .outOfFuel ∨ ∃ s' locals t, Course ctx.source.text s s' ∧ Placed ctx.source.text s' ∧
    Exporting s'.tokens ∧ exportList ctx s' = .ok (locals, t) ∧ markExports locals ctx t = .error f

theorem Foreseen.after (h : Course ctx.source.text s t) (hf : Foreseen ctx t f) :
    Foreseen ctx s f := by
  rcases hf with hfuel | ⟨s', locals, u, hcourse, hclause⟩
  · exact .inl hfuel
  · exact .inr ⟨s', locals, u, h.trans hcourse, hclause⟩

/-- The parser `p`, started in `s`, leaves the first `low` tokens as they are. -/
structure KeepsAt (ctx : Context) (low : Nat) (s : State) (p : Parser α) : Prop where
  above : ∀ a t, p ctx s = .ok (a, t) → Above ctx.source.text low s t
  fault : Placed ctx.source.text s → ∀ f, p ctx s = .error f → Foreseen ctx s f

/-- The parser `p`, started with `high` tokens or more, leaves the first `low` as they are. -/
class Keeps (ctx : Context) (low high : Nat) (p : Parser α) : Prop where
  keepsAt : low ≤ high → ∀ s, high ≤ s.tokens.size → KeepsAt ctx low s p

namespace KeepsAt

variable {p : Parser α} {g : α → Parser β}

theorem bind (hp : KeepsAt ctx low s p)
    (hg : ∀ a t, p ctx s = .ok (a, t) → KeepsAt ctx low t (g a)) : KeepsAt ctx low s (p >>= g) := by
  constructor
  · intro b u hrun
    obtain ⟨a, t, hpa, hgb⟩ := bind_ok hrun
    exact (hp.above a t hpa).trans ((hg a t hpa).above b u hgb)
  · intro hs f hrun
    rcases bind_error hrun with hpf | ⟨a, t, hpa, hgf⟩
    · exact hp.fault hs f hpf
    · exact .after (hp.above a t hpa).course ((hg a t hpa).fault
        ((hp.above a t hpa).placed hs) f hgf)

theorem look (hp : p ctx s = .ok (a, s)) (hg : KeepsAt ctx low s (g a)) :
    KeepsAt ctx low s (p >>= g) := by
  constructor
  · intro b u hrun
    rw [bind_of_ok hp] at hrun
    exact hg.above b u hrun
  · intro hs f hrun
    rw [bind_of_ok hp] at hrun
    exact hg.fault hs f hrun

theorem pure (a : α) : KeepsAt ctx low s (Pure.pure a) := by
  constructor
  · rintro _ _ ⟨⟩
    exact .refl _ _
  · rintro _ _ ⟨⟩

theorem of_ok (hp : p ctx s = .ok (a, t)) (h : Above ctx.source.text low s t) :
    KeepsAt ctx low s p := by
  constructor
  · intro a' t' hrun
    rw [hp] at hrun
    cases hrun
    exact h
  · intro _ f hrun
    rw [hp] at hrun
    cases hrun

theorem throw (h : Placed ctx.source.text s → Foreseen ctx s f) :
    KeepsAt ctx low s (MonadExcept.throw f : Parser α) := by
  constructor
  · rintro _ _ ⟨⟩
  · rintro hs _ ⟨⟩
    exact h hs

/-- Something that is there in every state that keeps to `Placed`. -/
theorem demand {o : Option α} (h : Placed ctx.source.text s → ∃ a, o = some a) :
    KeepsAt ctx low s (Grammar.demand f o) := by
  cases o with
  | some a => exact .pure a
  | none => exact .throw fun hs => nomatch h hs

end KeepsAt

section Closure

variable {p : Parser α} {g : α → Parser β}

theorem Keeps.bind (hp : Keeps ctx low high p) (hg : ∀ a, Keeps ctx low high (g a)) :
    Keeps ctx low high (p >>= g) where
  keepsAt hle s hs := by
    refine (hp.keepsAt hle s hs).bind fun a t hpa => (hg a).keepsAt hle t ?_
    exact Nat.le_trans hs ((hp.keepsAt hle s hs).above a t hpa).size

instance [hp : Keeps ctx low high p] [hg : ∀ a, Keeps ctx low high (g a)] :
    Keeps ctx low high (p >>= g) := hp.bind hg

instance Keeps.pure (a : α) : Keeps ctx low high (Pure.pure a) := ⟨fun _ _ _ => .pure a⟩

instance (priority := low) Keeps.of_defined {p q : Parser α} [h : Defined p q]
    [hq : Keeps ctx low high q] : Keeps ctx low high p := h.eq ▸ hq

theorem Keeps.ite [Decidable c] {p : Parser α} (hp : Keeps ctx low high p)
    (hq : Keeps ctx low high q) : Keeps ctx low high (if c then p else q) := by
  split
  · exact hp
  · exact hq

instance [Decidable c] {p : Parser α} [hp : Keeps ctx low high p] [hq : Keeps ctx low high q] :
    Keeps ctx low high (if c then p else q) := hp.ite hq

instance (priority := high) [Decidable c] {p : Parser Unit} {rest : Unit → Parser β}
    [hp : Keeps ctx low high p] [hrest : ∀ a, Keeps ctx low high (rest a)] :
    Keeps ctx low high (if c then p >>= rest else rest ()) := (hp.bind hrest).ite (hrest ())

instance (priority := high) [Decidable c] {p : Parser α} {q : α → Parser Unit}
    {rest : Unit → Parser β} [hp : Keeps ctx low high p] [hq : ∀ a, Keeps ctx low high (q a)]
    [hrest : ∀ a, Keeps ctx low high (rest a)] :
    Keeps ctx low high (if c then p >>= fun a => q a >>= rest else rest ()) :=
  (hp.bind fun a => (hq a).bind hrest).ite (hrest ())

theorem discard_bind (p : Parser α) (g : Unit → Parser β) :
    (discard p >>= g) = p >>= fun _ => g () := by
  rw [discard_eq, bind_assoc]
  exact congrArg (p >>= ·) (funext fun _ => pure_bind _ _)

instance Keeps.outOfFuel : Keeps ctx low high (throw .outOfFuel : Parser α) :=
  ⟨fun _ _ _ => .throw fun _ => .inl rfl⟩

theorem Keeps.above [hp : Keeps ctx low low p] (hlow : low ≤ s.tokens.size)
    (hrun : p ctx s = .ok (a, t)) : Above ctx.source.text low s t :=
  (hp.keepsAt (Nat.le_refl low) s hlow).above a t hrun

/-- What keeps takes no token back. -/
theorem Keeps.size_le [hp : Keeps ctx 0 0 p] (hrun : p ctx s = .ok (a, t)) :
    s.tokens.size ≤ t.tokens.size := (hp.above (Nat.zero_le _) hrun).size

theorem Keeps.ruled [hp : Keeps ctx 0 0 p] (hrun : p ctx s = .ok (a, t)) (h : Ruled s.tokens) :
    Ruled t.tokens := (hp.above (Nat.zero_le _) hrun).ruled h

/-- The index of the current token, of which there are at least as many before. -/
theorem Keeps.position {g : Nat → Parser β}
    (hg : ∀ index, low ≤ index → high ≤ index → Keeps ctx low index (g index)) :
    Keeps ctx low high (Grammar.position >>= g) where
  keepsAt hle s hs :=
    have hlow := Nat.le_trans hle hs
    .look rfl ((hg s.tokens.size hlow hs).keepsAt hlow s (Nat.le_refl _))

instance {g : Nat → Parser β} [hg : ∀ index : { i // low ≤ i }, Keeps ctx low index (g index)] :
    Keeps ctx low high (Grammar.position >>= g) := .position fun index hlow _ => hg ⟨index, hlow⟩

instance fact_le_val (index : { i // low ≤ i }) : Fact (low ≤ index) := ⟨index.2⟩

instance fact_zero_le (index : Nat) : Fact (0 ≤ index) := ⟨Nat.zero_le index⟩

end Closure

/-! ## Looking -/

section Looking

/-- The parser only looks, and always has an answer. -/
class Peeks (p : Parser α) : Prop where
  answers : ∀ ctx s, ∃ a, p ctx s = .ok (a, s)

instance (priority := low) Keeps.of_peeks {p : Parser α} [hp : Peeks p] : Keeps ctx low high p where
  keepsAt _ s _ := by
    obtain ⟨a, ha⟩ := hp.answers ctx s
    exact .of_ok ha (.refl _ _)

instance : Peeks (get : Parser State) := ⟨fun _ _ => ⟨_, rfl⟩⟩

instance : Peeks (read : Parser Context) := ⟨fun _ _ => ⟨_, rfl⟩⟩

instance : Peeks kind := ⟨fun _ _ => ⟨_, rfl⟩⟩

instance (k : Kind) : Peeks (seeing k) := ⟨fun _ _ => ⟨_, rfl⟩⟩

instance (ks : List Kind) : Peeks (seeingAny ks) := ⟨fun _ _ => ⟨_, rfl⟩⟩

instance (word : Contextual) : Peeks (seeingWord word) := ⟨fun _ _ => ⟨_, rfl⟩⟩

instance (words : List Contextual) : Peeks (seeingAnyWord words) := ⟨fun _ _ => ⟨_, rfl⟩⟩

instance : Peeks failed := ⟨fun _ _ => ⟨_, rfl⟩⟩

instance : Peeks currentText := ⟨fun _ _ => ⟨_, rfl⟩⟩

instance : Peeks dialect := ⟨fun _ _ => ⟨_, rfl⟩⟩

instance : Peeks typescript := ⟨fun _ _ => ⟨_, rfl⟩⟩

instance : Peeks flow := ⟨fun _ _ => ⟨_, rfl⟩⟩

instance : Peeks typed := ⟨fun _ _ => ⟨_, rfl⟩⟩

instance (binding : Binding) (shorthand : Bool) : Peeks (declarationRole binding shorthand) :=
  ⟨fun _ _ => ⟨_, rfl⟩⟩

instance : Keeps ctx low high lineBreakBefore where
  keepsAt _ _ _ := .look rfl (.demand fun hs => Cursor.lineBreakBefore?_isSome hs.cursor)

end Looking

/-! ## Moving -/

theorem above_took (mode : Mode) (hlow : low ≤ s.tokens.size) :
    Above ctx.source.text low s
      { s with
        tokens := s.tokens.push s.cursor.token
        cursor := s.cursor.advance ctx.source mode } := by
  refine ⟨by simp, fun i hi => ?_, List.prefix_refl _, Cursor.advance_depth .., fun hs => ?_,
    .took mode s, (·.push rfl)⟩
  · rw [Array.getElem?_push, if_neg (by omega)]
  · refine ⟨Cursor.advance_placed hs.cursor, fun c hc => ?_⟩
    obtain ⟨hstart, hstop⟩ := hs.scopes c hc
    exact ⟨hstart, by rw [Array.size_push]; omega⟩

instance (mode : Mode) : Keeps ctx low high (advance mode) where
  keepsAt hle _ hs := .of_ok rfl (above_took mode (Nat.le_trans hle hs))

theorem Keeps.advance {g : Unit → Parser β} (hg : Keeps ctx low (high + 1) (g ())) :
    Keeps ctx low high (Grammar.advance mode >>= g) where
  keepsAt hle s hs := by
    refine (KeepsAt.of_ok rfl (above_took mode (Nat.le_trans hle hs))).bind ?_
    rintro _ _ ⟨⟩
    exact hg.keepsAt (by omega) _ (by simpa using hs)

theorem reread_keepsAt {f : Cursor → Option Cursor}
    (hsome : s.cursor.Placed ctx.source.text → ∃ c, f s.cursor = some c)
    (hplaced : ∀ c, f s.cursor = some c → c.depth = s.cursor.depth ∧
      (s.cursor.Placed ctx.source.text → c.Placed ctx.source.text))
    (hturned : ∀ c, f s.cursor = some c → s.cursor.Poised ctx.source.text →
      s.cursor.Turned ctx.source.text c) :
    KeepsAt ctx low s (reread f) := by
  refine .look rfl ((KeepsAt.demand fun hs => hsome hs.cursor).bind ?_)
  intro c t hrun
  obtain ⟨hread, rfl⟩ := demand_ok hrun
  obtain ⟨hdepth, hc⟩ := hplaced c hread
  exact .of_ok rfl (.of_cursor hdepth hc (.of_turned (hturned c hread)))

/-! ## Going back -/

theorem attempt_eq (p : Parser Bool) : attempt p ctx s =
    (p >>= fun b => if b = true then pure true else
      modify (·.back s.snapshot) >>= fun _ => pure false : Parser Bool) ctx s := rfl

theorem peek_eq (p : Parser α) : peek p ctx s =
    (p >>= fun a => modify (·.back s.snapshot) >>= fun _ => pure a : Parser α) ctx s := rfl

theorem keepsAt_here {p : Parser α} (s : State) [hp : Keeps ctx s.tokens.size s.tokens.size p] :
    KeepsAt ctx s.tokens.size s p := hp.keepsAt (Nat.le_refl _) s (Nat.le_refl _)

/-- An attempt succeeds as what is tried does, or leaves the state it began in. -/
theorem attempt_ok {p : Parser Bool} {b : Bool} (hp : KeepsAt ctx s.tokens.size s p)
    (hrun : attempt p ctx s = .ok (b, t)) :
    b = true ∧ p ctx s = .ok (true, t) ∨ b = false ∧ t = s := by
  rw [attempt_eq] at hrun
  obtain ⟨b', u, hpb, hrest⟩ := bind_ok hrun
  cases b' with
  | true =>
    cases hrest
    exact .inl ⟨rfl, hpb⟩
  | false =>
    cases hrest
    exact .inr ⟨rfl, (hp.above false u hpb).restored⟩

theorem peek_ok {p : Parser α} (hp : KeepsAt ctx s.tokens.size s p)
    (hrun : peek p ctx s = .ok (a, t)) : t = s ∧ ∃ u, p ctx s = .ok (a, u) := by
  rw [peek_eq] at hrun
  obtain ⟨a', u, hpa, hrest⟩ := bind_ok hrun
  cases hrest
  exact ⟨(hp.above a u hpa).restored, u, hpa⟩

instance attempt_keeps {p : Parser Bool} [∀ n, Keeps ctx n n p] :
    Keeps ctx low high (attempt p) where
  keepsAt hle s hs := by
    have hkeeps : KeepsAt ctx s.tokens.size s p := keepsAt_here s
    constructor
    · intro b t hrun
      rcases attempt_ok hkeeps hrun with ⟨-, hpt⟩ | ⟨-, rfl⟩
      · exact (hkeeps.above true t hpt).mono (Nat.le_trans hle hs)
      · exact .refl _ _
    · intro hplaced f hrun
      rw [attempt_eq] at hrun
      rcases bind_error hrun with hpf | ⟨b, t, -, hrest⟩
      · exact hkeeps.fault hplaced f hpf
      · cases b <;> cases hrest

instance peek_keeps {p : Parser α} [∀ n, Keeps ctx n n p] : Keeps ctx low high (peek p) where
  keepsAt _ s _ := by
    have hkeeps : KeepsAt ctx s.tokens.size s p := keepsAt_here s
    constructor
    · intro a t hrun
      obtain ⟨rfl, -⟩ := peek_ok hkeeps hrun
      exact .refl _ _
    · intro hplaced f hrun
      rw [peek_eq] at hrun
      rcases bind_error hrun with hpf | ⟨a, t, -, hrest⟩
      · exact hkeeps.fault hplaced f hpf
      · cases hrest

/-! ## Errors -/

instance (cause : SyntaxError.Cause) : Keeps ctx low high (failHere cause) where
  keepsAt _ s _ := .look rfl <| .look rfl <|
    .of_ok rfl ((Above.refl low s).failed fun hs => ⟨hs.start.place, hs.stop.place⟩)

instance (label : String) : Keeps ctx low high (expecting label) where
  keepsAt hle s hs := .look rfl (Keeps.keepsAt hle s hs)

instance : Keeps ctx low high unexpected where
  keepsAt hle s hs := .look rfl (Keeps.keepsAt hle s hs)

instance (k : Kind) : Keeps ctx low high (expect k) := .of_defined

instance (k : Kind) : Keeps ctx low high (eat k) := .of_defined

instance (k : Kind) : Keeps ctx low high (skip k) := .of_defined

instance (word : Contextual) : Keeps ctx low high (eatWord word) := .of_defined

instance (word : Contextual) (label : String) : Keeps ctx low high (expectWord word label) :=
  .of_defined

instance (ks : List Kind) : Keeps ctx low high (beforeAny ks) := .of_defined

instance : Keeps ctx low high semicolon := .of_defined

/-! ## Notes -/

theorem above_tokens {tokens : Array Token} {text : List Char} (hsize : tokens.size = s.tokens.size)
    (htokens : ∀ i < low, tokens[i]? = s.tokens[i]?) (hcourse : Course text s { s with tokens })
    (hruled : Ruled s.tokens → Ruled tokens) : Above text low s { s with tokens } :=
  ⟨Nat.le_of_eq hsize.symm, htokens, List.prefix_refl _, rfl,
    fun hs => ⟨hs.cursor, fun c hc => by rw [hsize]; exact hs.scopes c hc⟩, hcourse, hruled⟩

/-- What is noted on a token leaves its kind and its place. -/
def Noted (f : Token → Token) : Prop := ∀ tok, (f tok).kind = tok.kind ∧ (f tok).span = tok.span

theorem note_course {text : List Char} {f : Token → Token} (hf : Noted f) (index : Nat)
    (s : State) :
    Course text s { s with tokens := s.tokens.modify index f } := by
  refine .of_tokens (Array.size_modify ..) fun i tok htok => ?_
  rw [Array.getElem?_modify, htok]
  split
  · exact ⟨f tok, rfl, hf tok⟩
  · exact ⟨tok, rfl, rfl, rfl⟩

theorem note_keeps {f : Token → Token} (hf : Noted f) (hends : ∀ t, (f t).rhsEnd = t.rhsEnd)
    (hlow : low ≤ index) :
    Keeps ctx low high (note index f) where
  keepsAt _ s _ := by
    refine .of_ok rfl (above_tokens (Array.size_modify ..) (fun i hi => ?_) (note_course hf index s)
      (·.mono (Nat.le_of_eq (Array.size_modify ..).symm) fun {i t} ht => .inr ?_))
    · rw [Array.getElem?_modify, if_neg (by omega)]
    · rw [Array.getElem?_modify] at ht
      split at ht
      · obtain ⟨u, hu, rfl⟩ := Option.map_eq_some_iff.mp ht
        exact ⟨u, hu, (hends u).symm⟩
      · exact ⟨t, ht, rfl⟩

theorem noteAt_keeps {f : Token → Token} (hf : Noted f) (hends : ∀ t, (f t).rhsEnd = t.rhsEnd)
    (hlow : low ≤ index) (hhigh : index < high) :
    Keeps ctx low high (noteAt index f) where
  keepsAt hle s hs := by
    refine .look rfl ?_
    rw [if_pos (by omega)]
    exact (note_keeps hf hends hlow).keepsAt hle s hs

instance {role : Role} [hlow : Fact (low ≤ index)] :
    Keeps ctx low high (setRole index role) :=
  note_keeps (fun _ => ⟨rfl, rfl⟩) (fun _ => rfl) hlow.out

theorem setShape_keeps {shape : ElementShape} (hlow : low ≤ index) (hhigh : index < high) :
    Keeps ctx low high (setShape index shape) :=
  noteAt_keeps (fun _ => ⟨rfl, rfl⟩) (fun _ => rfl) hlow hhigh

instance [hlow : Fact (low ≤ start)] : Keeps ctx low high (markTypeFrom start) where
  keepsAt _ s _ := by
    have := hlow.out
    refine .of_ok rfl (above_tokens Array.size_mapIdx (fun i hi => ?_)
      (.of_tokens Array.size_mapIdx fun i tok htok => ?_)
      (·.mono (Nat.le_of_eq Array.size_mapIdx.symm) fun {i t} ht => .inr ?_))
    · rw [Array.getElem?_mapIdx]
      cases s.tokens[i]? with
      | none => rfl
      | some t => rw [Option.map_some, if_neg (by omega)]
    · rw [Array.getElem?_mapIdx, htok, Option.map_some]
      split
      · exact ⟨_, rfl, rfl, rfl⟩
      · exact ⟨tok, rfl, rfl, rfl⟩
    · rw [Array.getElem?_mapIdx] at ht
      obtain ⟨u, hu, rfl⟩ := Option.map_eq_some_iff.mp ht
      refine ⟨u, hu, ?_⟩
      split <;> rfl

theorem allTypeFrom_keeps (hhigh : start ≤ high) :
    Keeps ctx low high (allTypeFrom start) where
  keepsAt _ s hs := by
    refine .look rfl ?_
    rw [if_pos (by omega)]
    exact .look rfl (.pure _)

theorem lastToken_keeps (hhigh : 0 < high) : Keeps ctx low high lastToken where
  keepsAt _ s hs := by
    have hlt : s.tokens.size - 1 < s.tokens.size := by omega
    exact .look rfl (.demand fun _ => ⟨_, Array.getElem?_eq_getElem hlt⟩)

/-! ## After a token -/

/-- The parser `p`, in a state `t` to which `s` led, leaves the first `low` tokens of `s` as they
are. -/
structure KeepsOn (ctx : Context) (low : Nat) (s t : State) (p : Parser α) : Prop where
  above : ∀ a u, p ctx t = .ok (a, u) → Above ctx.source.text low s u
  fault : Placed ctx.source.text s → ∀ f, p ctx t = .error f → Foreseen ctx s f

theorem KeepsAt.on {p : Parser α} (hp : KeepsAt ctx low t p) (h : Above ctx.source.text low s t) :
    KeepsOn ctx low s t p :=
  ⟨fun a u hrun => h.trans (hp.above a u hrun),
    fun hplaced f hrun => .after h.course (hp.fault (h.placed hplaced) f hrun)⟩

theorem KeepsOn.step {p : Parser α} {g : α → Parser β} (hp : p ctx t = .ok (a, u))
    (hg : KeepsOn ctx low s u (g a)) : KeepsOn ctx low s t (p >>= g) := by
  constructor <;> rw [bind_of_ok hp]
  · exact hg.above
  · exact hg.fault

theorem KeepsOn.bind {p : Parser α} {g : α → Parser β} {low' : Nat}
    (h : Above ctx.source.text low' s t) (hp : KeepsAt ctx low' t p)
    (hg : ∀ a u, p ctx t = .ok (a, u) → Above ctx.source.text low' t u →
      KeepsOn ctx low s u (g a)) :
    KeepsOn ctx low s t (p >>= g) := by
  constructor
  · intro b v hrun
    obtain ⟨a, u, hpa, hgb⟩ := bind_ok hrun
    exact (hg a u hpa (hp.above a u hpa)).above b v hgb
  · intro hplaced f hrun
    rcases bind_error hrun with hpf | ⟨a, u, hpa, hgf⟩
    · exact (hp.on h).fault hplaced f hpf
    · exact (hg a u hpa (hp.above a u hpa)).fault hplaced f hgf

/-- The parser `p`, in a state to which `s` led by taking one token and more, leaves the first `low`
as they are. It may note an end on the token that was taken first, since no range from before
reaches past it, and find an error that begins at it. -/
class KeepsFrom (ctx : Context) (low : Nat) (s : State) (p : Parser α) : Prop where
  keeps : low ≤ s.tokens.size → ∀ t, Above ctx.source.text s.tokens.size s t →
    s.tokens.size < t.tokens.size → KeepsOn ctx low s t p

section After

variable {p : Parser α} {g : α → Parser β}

instance (priority := low) [hp : Keeps ctx low (s.tokens.size + 1) p] : KeepsFrom ctx low s p where
  keeps hle t habove hlt := (hp.keepsAt (Nat.le_succ_of_le hle) t hlt).on (habove.mono hle)

instance [hp : Keeps ctx s.tokens.size (s.tokens.size + 1) p]
    [hg : ∀ a, KeepsFrom ctx low s (g a)] :
    KeepsFrom ctx low s (p >>= g) where
  keeps hle t habove hlt := .bind habove (hp.keepsAt (Nat.le_succ _) t hlt) fun a u _ hu =>
    (hg a).keeps hle u (habove.trans hu) (Nat.lt_of_lt_of_le hlt hu.size)

instance [Decidable c] [hp : KeepsFrom ctx low s p] [hq : KeepsFrom ctx low s q] :
    KeepsFrom ctx low s (if c then p else q) := by
  split
  · exact hp
  · exact hq

theorem KeepsFrom.position {g : Nat → Parser β}
    (hg : ∀ here, s.tokens.size < here → KeepsFrom ctx low s (g here)) :
    KeepsFrom ctx low s (Grammar.position >>= g) where
  keeps hle t habove hlt := .step rfl ((hg _ hlt).keeps hle t habove hlt)

theorem setRhsEnd_ok (h : Above ctx.source.text s.tokens.size s t) (hlow : low ≤ s.tokens.size)
    (hlt : s.tokens.size < t.tokens.size) : ∃ u, setRhsEnd s.tokens.size ctx t = .ok ((), u) ∧
      u.tokens.size = t.tokens.size ∧ Above ctx.source.text low s u := by
  let f (token : Token) : Token := { token with rhsEnd := some t.tokens.size }
  have hsize : (t.tokens.modify s.tokens.size f).size = t.tokens.size := Array.size_modify ..
  refine ⟨{ t with tokens := t.tokens.modify s.tokens.size f }, ?_, hsize, hsize ▸ h.size,
    fun i hi => ?_, h.scopes, h.depth,
    fun hs => ⟨(h.placed hs).cursor, hsize ▸ (h.placed hs).scopes⟩,
    h.course.trans (note_course (f := f) (fun _ => ⟨rfl, rfl⟩) _ t),
    fun hs => (h.ruled hs).ending hlt ?_⟩
  · show (if _ then note _ f else throw _ : Parser Unit) ctx t = _
    rw [if_pos hlt]
    rfl
  · rw [Array.getElem?_modify, if_neg (by omega), h.tokens i (by omega)]
  · rintro i r ⟨token, htoken, hr⟩ hi
    rw [h.tokens i hi] at htoken
    exact (hs.bounds ⟨token, htoken, hr⟩).2

instance (priority := high) {g : Unit → Parser β} [hg : Keeps ctx low (s.tokens.size + 1) (g ())] :
    KeepsFrom ctx low s (setRhsEnd s.tokens.size >>= g) where
  keeps hle t habove hlt := by
    obtain ⟨u, hnote, hsize, hended⟩ := setRhsEnd_ok habove hle hlt
    have hkept := hg.keepsAt (Nat.le_succ_of_le hle) u (hsize ▸ hlt)
    exact .step hnote (hkept.on hended)

instance (priority := high) {cause : SyntaxError.Cause} : KeepsFrom ctx low s
    (get >>= fun t : State => failAt cause s.cursor.start.offset t.cursor.stop.offset) where
  keeps hle t habove _ := by
    constructor
    · rintro _ _ ⟨⟩
      refine (habove.mono hle).failed fun hs => ⟨hs.start.place, ?_⟩
      exact (habove.course.poised hs).stop.place
    · rintro _ _ ⟨⟩

theorem KeepsAt.take {g : Unit → Parser β}
    (hg : KeepsOn ctx low s { s with
      tokens := s.tokens.push s.cursor.token
      cursor := s.cursor.advance ctx.source mode } (g ())) :
    KeepsAt ctx low s (advance mode >>= g) := ⟨hg.above, hg.fault⟩

theorem KeepsAt.taking {g : Unit → Parser β} (hlow : low ≤ s.tokens.size)
    (hg : KeepsFrom ctx low s (g ())) : KeepsAt ctx low s (advance mode >>= g) :=
  .take (hg.keeps hlow _ (above_took mode (Nat.le_refl _)) (by simp))

/-- A token that is taken, after which its end may be noted. -/
theorem Keeps.ranging {g : Nat → Parser β}
    (hg : ∀ s : State, low ≤ s.tokens.size → KeepsFrom ctx low s (g s.tokens.size)) :
    Keeps ctx low high (Grammar.position >>= fun index => Grammar.next >>= fun _ => g index) where
  keepsAt hle s hs :=
    have hlow := Nat.le_trans hle hs
    .look rfl (.taking hlow (hg s hlow))

instance {p : Parser Unit} [hp : ∀ low n, Keeps ctx low n p] :
    Keeps ctx low high (nextWithRhs p) := by
  rw [show nextWithRhs p = position >>= fun index => next >>= fun _ => p >>= fun _ =>
    setRhsEnd index >>= Pure.pure by simp only [nextWithRhs, bind_pure]]
  exact .ranging fun s _ => inferInstance

end After

/-! ## Types and scopes -/

theorem typeContext_keepsAt {p : Parser α}
    (hp : KeepsAt ctx low { s with cursor := { s.cursor with inType := true } } p) :
    KeepsAt ctx low s (typeContext p) := by
  have hinType : ∀ (t : State) (inType : Bool),
      Above ctx.source.text low t { t with cursor := { t.cursor with inType } } :=
    fun t inType => .of_cursor rfl (fun hc => ⟨hc.lastEnd, hc.start, hc.stop, hc.headed⟩)
      (.around t inType _)
  refine .look rfl ((KeepsAt.of_ok rfl (hinType s true)).bind ?_)
  rintro _ _ ⟨⟩
  exact hp.bind fun a t _ => .of_ok rfl (hinType t _)

instance typeContext_keeps {p : Parser α} [hp : Keeps ctx low high p] :
    Keeps ctx low high (typeContext p) where
  keepsAt hle s hs := typeContext_keepsAt (hp.keepsAt hle _ (by exact hs))

theorem inScope_eq (isFunction : Bool) (p : Parser α) : inScope isFunction p ctx s =
    (p >>= fun a => closeScope >>= fun _ => modify (fun t =>
      { t with scopes := t.scopes.push ⟨s.tokens.size, t.tokens.size, isFunction⟩ }) >>= fun _ =>
        pure a : Parser α) ctx { s with cursor := { s.cursor with depth := s.cursor.depth + 1 } } :=
  rfl

theorem closeScope_eq {g : Unit → Parser β} {depth : Nat} (h : s.cursor.depth = depth + 1) :
    (closeScope >>= g) ctx s = g () ctx { s with cursor := { s.cursor with depth } } := by
  refine bind_of_ok (a := ()) ?_
  show (if s.cursor.depth = 0 then throw .noScope
    else onCursor fun c => { c with depth := c.depth - 1 } : Parser Unit) ctx s = _
  rw [if_neg (by omega)]
  show Except.ok ((), { s with cursor := { s.cursor with depth := s.cursor.depth - 1 } }) = _
  rw [h, Nat.add_sub_cancel]

instance inScope_keeps {p : Parser α} {isFunction : Bool} [hp : Keeps ctx low high p] :
    Keeps ctx low high (inScope isFunction p) where
  keepsAt hle s hs := by
    have hin := hp.keepsAt hle
      { s with cursor := { s.cursor with depth := s.cursor.depth + 1 } } hs
    have hplaced : ∀ (t : State) (depth : Nat), Placed ctx.source.text t →
        Placed ctx.source.text { t with cursor := { t.cursor with depth } } := fun t depth h =>
      ⟨⟨h.cursor.lastEnd, h.cursor.start, h.cursor.stop, h.cursor.headed⟩, h.scopes⟩
    constructor
    · intro a u hrun
      rw [inScope_eq] at hrun
      obtain ⟨a', t, hpa, hrest⟩ := bind_ok hrun
      obtain ⟨hsize, htokens, hscopes, hdepth, hplaced', hcourse, hruled⟩ := hin.above a' t hpa
      -- the scope that is closed is the one that was opened
      rw [closeScope_eq hdepth] at hrest
      cases hrest
      refine ⟨hsize, htokens, ?_, rfl, fun h => ?_,
        .of_scopes _ (((Course.around s _ _).trans hcourse).trans (.around t _ _)), hruled⟩
      · rw [Array.toList_push]
        exact hscopes.trans (List.prefix_append _ _)
      · obtain ⟨hcursor, hold⟩ := hplaced t s.cursor.depth (hplaced' (hplaced s _ h))
        refine ⟨hcursor, fun c hc => ?_⟩
        rcases Array.mem_push.mp hc with hc | rfl
        · exact hold c hc
        · exact ⟨hsize, Nat.le_refl _⟩
    · intro h f hrun
      rw [inScope_eq] at hrun
      rcases bind_error hrun with hpf | ⟨a, t, hpa, hrest⟩
      · exact .after (.around s _ _) (hin.fault (hplaced s _ h) f hpf)
      · rw [closeScope_eq (hin.above a t hpa).depth] at hrest
        cases hrest

/-! ## Loops -/

section Loops

variable {test round : Parser Bool} {body : Parser Unit}

theorem repeatUpTo_keeps (h : Keeps ctx low high round) (n : Nat) :
    Keeps ctx low high (repeatUpTo round n) := by
  induction n with
  | zero => exact Keeps.outOfFuel
  | succ n ih =>
    unfold repeatUpTo
    infer_instance

theorem repeatWhile_keeps (h : Keeps ctx low high round) : Keeps ctx low high (repeatWhile round) :=
  .bind inferInstance fun _ => repeatUpTo_keeps h _

instance [h : Keeps ctx low high round] : Keeps ctx low high (repeatWhile round) :=
  repeatWhile_keeps h

theorem untilClose_keeps {close : Kind} (h : Keeps ctx low high body) :
    Keeps ctx low high (untilClose close body) := by
  unfold untilClose
  infer_instance

instance {close : Kind} [h : Keeps ctx low high body] :
    Keeps ctx low high (untilClose close body) :=
  untilClose_keeps h

end Loops

/-! ## Identifiers -/

theorem live_of_kind (hkind : s.cursor.kind = k) (hk : k ≠ .eof) :
    s.cursor.kind ≠ .eof := by rwa [hkind]

theorem solid_of_kind (hkind : s.cursor.kind = k) (hk : k.Solid) :
    s.cursor.kind.Solid := by rwa [hkind]

theorem solid_of_isReserved (h : (k == .name || k.isReserved) = true) : k.Solid := by
  cases k <;> first | decide | cases h

theorem onCursor_kind_keepsAt {kind : Kind} (hsolid : s.cursor.kind.Solid) (hsolid' : kind.Solid)
    (hinitial : kind.initial = none) :
    KeepsAt ctx low s (onCursor fun c => { c with kind }) := by
  refine .of_ok rfl (.of_cursor rfl (fun hc => ⟨hc.lastEnd, hc.start, hc.stop, fun ch hch => ?_⟩)
    (.of_turned fun hc => Cursor.kind_turned hc hsolid hsolid'))
  rw [show kind.initial = some ch from hch] at hinitial
  cases hinitial

instance : Keeps ctx low high identifierName where
  keepsAt hle s hs := by
    refine .look rfl ?_
    split
    · rename_i hkind
      refine (onCursor_kind_keepsAt (solid_of_isReserved hkind) (by decide) rfl).bind ?_
      rintro _ _ ⟨⟩
      exact Keeps.keepsAt hle _ hs
    · exact Keeps.keepsAt hle s hs

instance (role : Option Role) : Keeps ctx low high (identifier role) := by
  unfold identifier
  cases role <;> dsimp only <;> infer_instance

end Downlevel.Grammar
