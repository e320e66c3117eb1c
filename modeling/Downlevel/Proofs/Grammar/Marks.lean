import Downlevel.Proofs.Grammar.Program
import Downlevel.Proofs.Token.Nesting

/-!
# What the notes on tokens say

Of what is noted on the tokens of a snippet, lowering goes by which of them belong to types and
which shape an element has. Types come in whole stretches of code (`parse_covered`). An element has
the parts that its shape says (`parse_formed`); for this the decorated exports are left out, where
any token may stand for `class`. Of its first tag it is known anyway that it is a fragment's or has
a name (`parse_titled`).
-/

namespace Downlevel

open Token (At Opens Sided Extends)
open Phrase (Spans)

variable {tokens tokens' : Array Token}

theorem Undecorated.of_extends (h : Undecorated tokens') (hext : Extends tokens tokens') :
    Undecorated tokens :=
  fun i _ hdefault hmark => h i (hdefault.mono hext).lt_size (hdefault.mono hext) (hmark.mono hext)

namespace Grammar

open State

variable {ctx : Context} {s t : State} {i start : Nat} {b : Bool}

/-! ## Sides -/

theorem sided_of_marking (h : Sided (s.marking start).tokens true i) :
    start ≤ i ∨ Sided s.tokens true i := by
  obtain ⟨p, hp, hb⟩ := h
  obtain ⟨q, hq, rfl⟩ := getElem?_marking hp
  split at hb
  · exact .inl (by assumption)
  · exact .inr ⟨q, hq, hb⟩

theorem sided_marking (start : Nat) (h : Sided s.tokens b i) :
    Sided (s.marking start).tokens (if start ≤ i then true else b) i := by
  obtain ⟨p, hp, hb⟩ := h
  refine ⟨if start ≤ i then { p with isType := true } else p, ?_, ?_⟩
  · show (s.tokens.mapIdx _)[i]? = _
    rw [Array.getElem?_mapIdx, hp]
    rfl
  · split
    · rfl
    · exact hb

/-- What belongs to a type once does so from then on. -/
theorem Run.sided (h : Run ctx s t) (hi : Sided s.tokens true i) : Sided t.tokens true i := by
  induction h with
  | refl | reread => exact hi
  | trans _ _ ih₁ ih₂ => exact ih₂ (ih₁ hi)
  | take => exact hi.push _
  | piece => exact ((hi.push _).push _).push _
  | typing _ _ _ ih | scope _ _ ih => exact ih hi
  | note hf => exact sided_noting _ _ hf.harmless hi
  | @mark s start => simpa using sided_marking start hi

/-- The tokens that a run takes belong to types if the current one does. -/
theorem Run.sided_new (h : Run ctx s t) (hs : s.cursor.inType = true) (hle : s.tokens.size ≤ i)
    (hlt : i < t.tokens.size) : Sided t.tokens true i := by
  have htook : ∀ {s : State} (mode : Mode), s.cursor.inType = true →
      Sided (s.took ctx mode).tokens true s.tokens.size := fun mode hs => hs ▸ sided_taken
  induction h with
  | refl | reread => exact absurd hlt (Nat.not_lt.mpr hle)
  | @trans s t u hrun hrun' ih₁ ih₂ =>
    by_cases hlt' : i < t.tokens.size
    · exact hrun'.sided (ih₁ hs hle hlt')
    · exact ih₂ (hrun.inType.trans hs) (by omega) hlt
  | @take s mode =>
    rw [took_tokens_size] at hlt
    obtain rfl : i = s.tokens.size := by omega
    exact htook mode hs
  | @piece s _ _ _ hclean =>
    have hclean₂ := Cursor.error_of_advance hclean
    have hs₁ : (s.took ctx .template).cursor.inType = true :=
      (Cursor.advance_moved (Cursor.error_of_advance hclean₂)).inType.trans hs
    have hs₂ : ((s.took ctx .template).took ctx .code).cursor.inType = true :=
      (Cursor.advance_moved hclean₂).inType.trans hs₁
    rw [took_tokens_size, took_tokens_size, took_tokens_size] at hlt
    obtain rfl | rfl | rfl : i = s.tokens.size ∨ i = s.tokens.size + 1 ∨ i = s.tokens.size + 2 := by
      omega
    · exact ((htook .template hs).push _).push _
    · rw [← @took_tokens_size ctx _ .template]
      exact (htook .code hs₁).push _
    · have hlast := htook .code hs₂
      rwa [took_tokens_size, took_tokens_size] at hlast
  | typing _ _ _ ih => exact ih rfl hle hlt
  | scope _ _ ih => exact ih hs hle hlt
  | @note s index f hf =>
    have := (recast_noting s index hf.harmless).size
    omega
  | @mark s start =>
    have := (recast_marking s start).size
    omega

/-! ## Types in stretches -/

theorem Run.covered (h : Run ctx s t) (hi : Covered s.tokens i) : Covered t.tokens i := by
  obtain ⟨a, b, hai, hib, hcode, htypes⟩ := hi
  exact ⟨a, b, hai, hib, hcode.mono h.extends, fun y hay hyb => h.sided (htypes y hay hyb)⟩

/-- A run gives tokens to types in whole stretches, unless all of its tokens belong to one. -/
theorem Run.covers (h : Run ctx s t) (hi : Sided t.tokens true i) :
    Covered t.tokens i ∨ Sided s.tokens true i ∨
      (s.tokens.size ≤ i ∧ s.cursor.inType = true) := by
  have htook : ∀ {s : State} {mode : Mode}, Sided (s.took ctx mode).tokens true i →
      Sided s.tokens true i ∨ (s.tokens.size ≤ i ∧ s.cursor.inType = true) := by
    rintro s mode ⟨p, hp, hb⟩
    rcases Tiled.getElem?_push_cases hp with ⟨hp, -⟩ | ⟨hi, rfl⟩
    · exact .inl ⟨p, hp, hb⟩
    · exact .inr ⟨Nat.le_of_eq hi.symm, hb⟩
  induction h with
  | refl | reread => exact .inr (.inl hi)
  | @trans s t u hrun hrun' ih₁ ih₂ =>
    rcases ih₂ hi with hi | hi | ⟨hle, htype⟩
    · exact .inl hi
    · exact (ih₁ hi).imp_left hrun'.covered
    · exact .inr (.inr ⟨Nat.le_trans hrun.size_le hle, hrun.inType ▸ htype⟩)
  | take => exact .inr (htook hi)
  | @piece s _ _ _ hclean =>
    have hclean₂ := Cursor.error_of_advance hclean
    have hs₁ : (s.took ctx .template).cursor.inType = s.cursor.inType :=
      (Cursor.advance_moved (Cursor.error_of_advance hclean₂)).inType
    have hs₂ : ((s.took ctx .template).took ctx .code).cursor.inType = s.cursor.inType :=
      (Cursor.advance_moved hclean₂).inType.trans hs₁
    rcases htook hi with hi | ⟨hle, htype⟩
    · rcases htook hi with hi | ⟨hle, htype⟩
      · exact .inr (htook hi)
      · rw [took_tokens_size] at hle
        exact .inr (.inr ⟨by omega, hs₁ ▸ htype⟩)
    · rw [took_tokens_size, took_tokens_size] at hle
      exact .inr (.inr ⟨by omega, hs₂ ▸ htype⟩)
  | @typing s t _ hcode hrun ih =>
    rcases ih hi with hcovered | hi | ⟨hle, -⟩
    · exact .inl hcovered
    · exact .inr (.inl hi)
    · exact .inl ⟨_, _, hle, hi.lt_size, hcode, fun y hle hlt => hrun.sided_new rfl hle hlt⟩
  | scope _ _ ih => exact ih hi
  | note hf =>
    obtain ⟨p, hp, hb⟩ := hi
    obtain ⟨q, hq, htype⟩ := isType_noting hf.harmless hp
    exact .inr (.inl ⟨q, hq, htype ▸ hb⟩)
  | @mark s start _ hstart =>
    have hsize := (recast_marking s start).size
    rcases sided_of_marking hi with hle | hi'
    · have hlt := hi.lt_size
      refine .inl ⟨start, s.tokens.size, hle, hsize ▸ hlt,
        hstart.code.mono (extends_marking s start), fun y hle hlt => ?_⟩
      have hy : Sided s.tokens s.tokens[y].isType y := ⟨_, Array.getElem?_eq_getElem hlt, rfl⟩
      simpa [hle] using sided_marking start hy
    · exact .inr (.inl hi')

/-! ## Shapes -/

/-- Every element that has a shape has the parts that it says. The last `>` may be the current
token. -/
def State.Formed (s : State) : Prop :=
  ∀ {i : Nat} {t : Token} {shape : ElementShape}, s.tokens[i]? = some t → t.shape = some shape →
    At s.tokens i .jsxTagStart ∧ ∃ e, Shaped s.tokens i shape e ∧
      (At s.tokens e .jsxTagEnd ∨ (e = s.tokens.size ∧ s.cursor.kind = .jsxTagEnd))

theorem formed_took {mode : Mode} (hs : s.Formed) : (s.took ctx mode).Formed := by
  intro i p shape hp hshape
  rcases Tiled.getElem?_push_cases hp with ⟨hp, -⟩ | ⟨-, rfl⟩
  · obtain ⟨hstart, e, hshaped, hend⟩ := hs hp hshape
    refine ⟨hstart.mono (.push _ _), e, hshaped.mono (.push _ _) fun b => ⟨b, fun _ _ _ hb =>
      hb.push _⟩, .inl ?_⟩
    rcases hend with hend | ⟨rfl, hkind⟩
    · exact hend.mono (.push _ _)
    · rw [← hkind]
      exact at_took ctx s mode
  · cases hshape

/-- No token is read again inside a tag. -/
theorem formed_reread {c : Cursor} (hs : s.Formed) (houtside : s.Outside) :
    State.Formed { s with cursor := c } := by
  intro i p shape hp hshape
  obtain ⟨hstart, e, hshaped, hend | ⟨-, hend⟩⟩ := hs hp hshape
  · exact ⟨hstart, e, hshaped, .inl hend⟩
  · exact absurd hend houtside.1

theorem formed_noting {index : Nat} {f : Token → Token} (hs : s.Formed) (hf : Note s index f) :
    (s.noting index f).Formed := by
  intro i p shape hp hshape
  have hext := extends_noting s index hf.harmless
  have hsize : (s.noting index f).tokens.size = s.tokens.size := Array.size_modify ..
  have hkeep : ∀ {e}, Shaped s.tokens i shape e → Shaped (s.noting index f).tokens i shape e :=
    fun hshaped => hshaped.mono hext fun b => ⟨b, fun _ _ _ => sided_noting s index hf.harmless⟩
  have hold : ∀ {q}, s.tokens[i]? = some q → q.shape = some shape →
      At (s.noting index f).tokens i .jsxTagStart ∧
        ∃ e, Shaped (s.noting index f).tokens i shape e ∧
          (At (s.noting index f).tokens e .jsxTagEnd ∨
            (e = (s.noting index f).tokens.size ∧ s.cursor.kind = .jsxTagEnd)) := by
    intro q hq hshape
    obtain ⟨hstart, e, hshaped, hend⟩ := hs hq hshape
    rw [hsize]
    exact ⟨hstart.mono hext, e, hkeep hshaped, hend.imp_left (·.mono hext)⟩
  obtain ⟨q, hq, rfl | ⟨rfl, rfl⟩⟩ := getElem?_noting hp
  · exact hold hq hshape
  · cases hf with
    | role | rhsEnd => exact hold hq hshape
    | shape hstart hshaped hend =>
      cases hshape
      exact ⟨hstart.mono hext, _, hkeep hshaped, .inr ⟨hsize.symm, hend⟩⟩

/-- A stretch that is given to a type holds an element as a whole, or nothing of it. -/
theorem formed_marking (hs : s.Formed) (hplain : Undecorated s.tokens)
    (hstart : s.Anchored start) : (s.marking start).Formed := by
  intro i p shape hp hshape
  have hext := extends_marking s start
  obtain ⟨q, hq, rfl⟩ := getElem?_marking hp
  have hshape' : q.shape = some shape := by split at hshape <;> exact hshape
  obtain ⟨htag, e, hshaped, hend | ⟨-, hend⟩⟩ := hs hq hshape'
  · refine ⟨htag.mono hext, e, hshaped.mono hext fun b => ?_, .inl (hend.mono hext)⟩
    by_cases hle : start ≤ i
    · exact ⟨true, fun y hy _ hb => by
        simpa [Nat.le_trans hle hy] using sided_marking start hb⟩
    by_cases hlt : e < start
    · refine ⟨b, fun y _ hy hb => ?_⟩
      simpa [show ¬ start ≤ y by omega] using sided_marking start hb
    · have hopens : Opens s.tokens i := by
        obtain ⟨q', hq', hkind⟩ := htag
        obtain rfl := Option.some.inj (hq.symm.trans hq')
        exact ⟨q, hq, hkind, by rw [hshape']; rfl⟩
      exact absurd hstart.code (Spans.not_inside hplain (hshaped.spans hopens hend) (by omega)
        (by omega) hend.lt_size)
  · exact absurd hend hstart.outside.1

theorem Run.formed (h : Run ctx s t) (hplain : Undecorated t.tokens) (hs : s.Formed) :
    t.Formed := by
  induction h with
  | refl => exact hs
  | trans _ hrun ih₁ ih₂ => exact ih₂ hplain (ih₁ (hplain.of_extends hrun.extends) hs)
  | take => exact formed_took hs
  | piece => exact formed_took (formed_took (formed_took hs))
  | reread _ _ houtside => exact formed_reread hs houtside
  | typing _ _ _ ih | scope _ _ ih => exact ih hplain hs
  | note hf => exact formed_noting hs hf
  | mark _ hstart =>
    exact formed_marking hs (hplain.of_extends (extends_marking _ _)) hstart

/-! ## Names of tags -/

section Titled

/-- More tokens and notes leave a tag its name. -/
theorem titled_of_extends (hs : Titled tokens) (hext : Extends tokens tokens') {q : Token}
    (hq : tokens[i]? = some q) (hshape : q.shape.isSome = true) :
    At tokens' (i + 1) .jsxTagEnd ∨ ∃ n, Headed tokens' (i + 1) n :=
  (hs.tag hq hshape).imp (·.mono hext) fun ⟨n, hheaded⟩ => ⟨n, hheaded.mono hext⟩

section

variable (hs : Titled s.tokens)
include hs

theorem titled_taken : Titled s.taken := by
  constructor
  · intro i p hp hshape
    rcases Tiled.getElem?_push_cases hp with ⟨hp, -⟩ | ⟨-, rfl⟩
    · exact titled_of_extends hs (.push _ _) hp hshape
    · cases hshape
  · intro i p hp hkind
    rcases Tiled.getElem?_push_cases hp with ⟨hp, -⟩ | ⟨-, rfl⟩
    · exact hs.role hp hkind
    · exact .inl rfl

theorem titled_noting {index : Nat} {f : Token → Token}
    (hf : Note s index f) : Titled (s.noting index f).tokens := by
  have hext := extends_noting s index hf.harmless
  constructor
  · intro i p hp hshape
    obtain ⟨q, hq, rfl | ⟨rfl, rfl⟩⟩ := getElem?_noting hp
    · exact titled_of_extends hs hext hq hshape
    · cases hf with
      | role | rhsEnd => exact titled_of_extends hs hext hq hshape
      | shape _ hshaped =>
        exact hshaped.titled.imp (·.mono hext) fun ⟨n, hheaded⟩ => ⟨n, hheaded.mono hext⟩
  · intro i p hp hkind
    obtain ⟨q, hq, rfl | ⟨rfl, rfl⟩⟩ := getElem?_noting hp
    · exact hs.role hq hkind
    · cases hf with
      | role role hnamed => exact .inr (congrArg some (hnamed ⟨q, hq, hkind⟩))
      | rhsEnd | shape =>
        have hrole := hs.role hq hkind
        exact hrole

theorem titled_marking : Titled (s.marking start).tokens := by
  have hext := extends_marking s start
  constructor
  · intro i p hp hshape
    obtain ⟨q, hq, rfl⟩ := getElem?_marking hp
    refine titled_of_extends hs hext hq ?_
    split at hshape <;> exact hshape
  · intro i p hp hkind
    obtain ⟨q, hq, rfl⟩ := getElem?_marking hp
    by_cases hle : start ≤ i
    · rw [if_pos hle] at hkind ⊢
      have hrole := hs.role hq hkind
      exact hrole
    · rw [if_neg hle] at hkind ⊢
      exact hs.role hq hkind

theorem Run.titled (h : Run ctx s t) : Titled t.tokens := by
  induction h with
  | refl | reread => exact hs
  | trans _ _ ih₁ ih₂ => exact ih₂ (ih₁ hs)
  | take => exact titled_taken hs
  | @piece s =>
    exact titled_taken (s := (s.took ctx .template).took ctx .code)
      (titled_taken (titled_taken hs))
  | typing _ _ _ ih | scope _ _ ih => exact ih hs
  | note hf => exact titled_noting hs hf
  | mark => exact titled_marking hs

end

end Titled

end Grammar

/-! ## Whole snippets -/

open Grammar

section

variable {text : List Char} {dialect : Dialect} {stream : TokenStream} {i : Nat}
  (h : parse text dialect = .ok (.ok stream))
include h

omit h in
theorem Read.inType {t : State} (hread : Read text dialect stream t) :
    (State.first ⟨text, dialect⟩).cursor.inType = false ∧ t.cursor.inType = false := by
  have hfirst : (State.first ⟨text, dialect⟩).cursor.inType = false :=
    (Cursor.advance_moved (c := Cursor.before text) hread.clean).inType
  exact ⟨hfirst, hread.run.inType.trans hfirst⟩

theorem parse_last_untyped : Sided stream.tokens false (stream.tokens.size - 1) := by
  obtain ⟨t, hread⟩ := parse_runs h
  rw [hread.tokens, State.taken, Array.size_push]
  exact hread.inType.2 ▸ sided_taken

/-- Every token that belongs to a type lies in a stretch of code that does. -/
theorem parse_covered (hi : Sided stream.tokens true i) : Covered stream.tokens i := by
  obtain ⟨t, hread⟩ := parse_runs h
  obtain ⟨hfirst, hlast⟩ := hread.inType
  rw [hread.tokens] at hi ⊢
  obtain ⟨p, hp, hb⟩ := hi
  rcases Tiled.getElem?_push_cases hp with ⟨hp, -⟩ | ⟨-, rfl⟩
  · rcases hread.run.covers ⟨p, hp, hb⟩ with hcovered | hi | ⟨-, htype⟩
    · obtain ⟨a, b, hai, hib, hcode, htypes⟩ := hcovered
      exact ⟨a, b, hai, hib, hcode.mono (.push _ _), fun y hay hyb => (htypes y hay hyb).push _⟩
    · exact absurd hi.lt_size (Nat.not_lt_zero i)
    · rw [hfirst] at htype
      cases htype
  · cases hlast.symm.trans hb

/-- Elements have the names that their tags show, decorated exports or not. -/
theorem parse_titled : Titled stream.tokens := by
  obtain ⟨t, hread⟩ := parse_runs h
  rw [hread.tokens]
  exact titled_taken (hread.run.titled
    ⟨fun hp => by simp [State.first] at hp, fun hp => by simp [State.first] at hp⟩)

theorem parse_formed (hplain : Undecorated stream.tokens) : Formed stream.tokens := by
  obtain ⟨t, hread⟩ := parse_runs h
  rw [hread.tokens] at hplain ⊢
  have hformed : t.Formed := hread.run.formed (hplain.of_extends (.push _ _))
    fun hp => by simp [State.first] at hp
  intro i p shape hp hshape
  rcases Tiled.getElem?_push_cases hp with ⟨hp, -⟩ | ⟨-, rfl⟩
  · obtain ⟨hstart, e, hshaped, hend | ⟨-, hend⟩⟩ := hformed hp hshape
    · exact ⟨hstart.mono (.push _ _), e, hshaped.mono (.push _ _) fun b => ⟨b, fun _ _ _ hb =>
        hb.push _⟩, hend.mono (.push _ _)⟩
    · cases hread.ended.symm.trans hend
  · cases hshape

end

end Downlevel
