import Downlevel.Proofs.Grammar.Marks

/-!
# How statements begin

Every statement of a snippet was read by one run of the parser for statements, and what comes later
leaves its tokens alone (`parse_stated`).
-/

namespace Downlevel

open Grammar State
open Token (At EndsAt Ruled Sided)
open Phrase (Spans)

variable {p : Parser StatementKind} {dialect : Dialect} {stream : TokenStream} {text : List Char}
  {g : Unit → Parser StatementKind} {i : Nat} {kind : StatementKind} {q : Parser StatementKind}

namespace Grammar

variable {ctx : Context} {k : Knot} {s t u : State}

/-- The parser `p` read the statement `c`, as of the given kind, from the state `s` to the state
`t`; `tokens` are those in the end. -/
structure Stated (ctx : Context) (p : Parser StatementKind) (tokens : Array Token) (c : Statement)
    (found : StatementKind) (s t : State) : Prop where
  run : p ctx s = .ok (found, t)
  clean : t.Clean
  sound : Sound ctx s
  outside : s.Outside
  value : s.cursor.inType = false
  ruled : Ruled t.tokens
  start : c.start = s.tokens.size
  stop : c.stop = t.tokens.size
  kind : c.kind = if (t.tokens.toList.drop c.start).all (·.isType) then .typeOnly else found
  expressionEnd : c.expressionEnd =
    if c.kind == .expression && t.tokens.back?.any (·.kind == .semi) then c.stop - 1 else c.stop
  tokens : ∀ i < c.stop, tokens[i]? = t.tokens[i]?

theorem endsInSemicolon_ok {b : Bool} (h : endsInSemicolon kind ctx s = .ok (b, t)) :
    t = s ∧ b = (kind == .expression && s.tokens.back?.any (·.kind == .semi)) := by
  unfold endsInSemicolon at h
  split at h
  · rename_i hkind
    obtain ⟨last, _, hlast, ⟨⟩⟩ := bind_ok h
    obtain ⟨_, _, ⟨⟩, hlast⟩ := bind_ok hlast
    obtain ⟨hlast, rfl⟩ := demand_ok hlast
    simp [hkind, hlast]
  · rename_i hkind
    cases h
    simp [hkind]

theorem topLevelStatement_ok {c : Statement}
    (h : topLevelStatement k ctx s = .ok (some c, t)) : ∃ found,
      k.statement ctx s = .ok (found, t) ∧ c.start = s.tokens.size ∧ c.stop = t.tokens.size ∧
      c.kind = (if (t.tokens.toList.drop c.start).all (·.isType) then .typeOnly else found) ∧
      c.expressionEnd =
        if c.kind == .expression && t.tokens.back?.any (·.kind == .semi) then c.stop - 1
        else c.stop := by
  obtain ⟨_, _, ⟨⟩, h⟩ := bind_ok h
  obtain ⟨found, t', hrun, h⟩ := bind_ok h
  obtain ⟨_, _, ⟨⟩, h⟩ := bind_ok h
  split at h
  · obtain ⟨_, _, _, h⟩ := bind_ok h
    cases h
  · obtain ⟨all, t₁, hall, h⟩ := bind_ok h
    obtain ⟨ends, t₂, hends, ⟨⟩⟩ := bind_ok h
    obtain ⟨rfl, rfl⟩ := endsInSemicolon_ok hends
    obtain ⟨_, _, ⟨⟩, hall⟩ := bind_ok hall
    split at hall
    · obtain ⟨_, _, ⟨⟩, ⟨⟩⟩ := bind_ok hall
      exact ⟨found, hrun, rfl, rfl, rfl, rfl⟩
    · cases hall

theorem Stated.keep {tokens tokens' : Array Token} {c : Statement}
    {found : StatementKind} (h : Stated ctx p tokens c found s t)
    (hkeep : ∀ i < c.stop, tokens'[i]? = tokens[i]?) : Stated ctx p tokens' c found s t :=
  { h with tokens := fun i hi => (hkeep i hi).trans (h.tokens i hi) }

/-- Each statement that is read at the top level was read by the parser for statements. -/
theorem topLevel_stated (hk : k.Sure ctx) {seen statements : Array Statement} {n : Nat}
    (hrun : topLevel k seen n ctx s = .ok (statements, u)) (hclean : u.Clean)
    (hsound : Sound ctx s) (houtside : s.Outside) (hvalue : s.cursor.inType = false)
    (hruled : Ruled s.tokens) : ∃ cs, statements.toList = seen.toList ++ cs ∧
      ∀ c ∈ cs, ∃ found s' t', Stated ctx k.statement u.tokens c found s' t' := by
  induction n generalizing s seen with
  | zero => cases hrun
  | succ n ih =>
    obtain ⟨_, _, ⟨⟩, hrun⟩ := bind_ok hrun
    split at hrun
    · cases hrun
      exact ⟨[], by simp, nofun⟩
    · obtain ⟨answer, t, hfirst, hrest⟩ := bind_ok hrun
      have := hk.keeping
      cases answer with
      | none =>
        obtain ⟨_, hgo⟩ := topLevelStatement_goes hk _ t hfirst (by cases hrest; exact hclean)
        obtain ⟨-, -, c, hc, -⟩ := hgo hsound ⟨trivial, houtside⟩
        cases hc
      | some c =>
        obtain ⟨hclean', hgo'⟩ := topLevel_goes (h := True) hk n _ u hrest hclean
        obtain ⟨-, hgo⟩ := topLevelStatement_goes hk _ t hfirst hclean'
        obtain ⟨hrun₁, honward, -⟩ := hgo hsound ⟨trivial, houtside⟩
        have hvalue' : t.cursor.inType = false := hrun₁.inType.trans hvalue
        have hruled' : Ruled t.tokens := Keeps.ruled hfirst hruled
        obtain ⟨cs, hcs, hall⟩ := ih hrest (hrun₁.sound hsound) honward.outside hvalue' hruled'
        refine ⟨c :: cs, by simp [hcs], List.forall_mem_cons.mpr ⟨?_, hall⟩⟩
        obtain ⟨found, hstatement, hstart, hstop, hkind, hend⟩ := topLevelStatement_ok hfirst
        have habove := (Keeps.keepsAt (p := topLevel k (seen.push c) n) (Nat.le_refl _) t
          (Nat.le_refl _)).above _ u hrest
        exact ⟨found, s, t, hstatement, hclean', hsound, houtside, hvalue, hruled', hstart, hstop,
          hkind, hend, fun i hi => habove.tokens i (hstop ▸ hi)⟩

/-! ## Words on the side of values -/

/-- The parser `p`, started with `high` tokens or more, leaves the one at `start` on the side of
values, unless it answers that there are but types. -/
class Valued (ctx : Context) (start high : Nat) (p : Parser StatementKind) : Prop where
  sided : ∀ s found t, high ≤ s.tokens.size → start < high → Sided s.tokens false start →
    p ctx s = .ok (found, t) → found ≠ .typeOnly → Sided t.tokens false start

theorem Above.sided {start : Nat} (h : Above text (start + 1) s t)
    (hside : Sided s.tokens false start) : Sided t.tokens false start := by
  obtain ⟨p, hp, hb⟩ := hside
  exact ⟨p, (h.tokens start (Nat.lt_succ_self _)).trans hp, hb⟩

theorem Keeps.get {α : Type} {p : Parser α} {a : α} {token : Token}
    [hp : Keeps ctx (i + 1) (i + 1) p] (hrun : p ctx s = .ok (a, t))
    (h : s.tokens[i]? = some token) : t.tokens[i]? = some token :=
  (((hp.keepsAt (Nat.le_refl _) s (Array.getElem?_eq_some_iff.mp h).1).above a t hrun).tokens i
    (Nat.lt_succ_self i)).trans h

namespace Valued

variable {α : Type} {start high : Nat}

instance bind {p : Parser α} {g : α → Parser StatementKind} [hp : Keeps ctx (start + 1) high p]
    [hg : ∀ a, Valued ctx start high (g a)] : Valued ctx start high (p >>= g) where
  sided s found t hs hlt hside hrun hfound := by
    obtain ⟨a, u, hpa, hga⟩ := bind_ok hrun
    have habove := (hp.keepsAt hlt s hs).above a u hpa
    exact (hg a).sided u found t (Nat.le_trans hs habove.size) hlt (habove.sided hside) hga hfound

instance pure (kind : StatementKind) : Valued ctx start high (Pure.pure kind) where
  sided := by
    rintro s _ _ - - hside ⟨⟩ -
    exact hside

/-- What answers that there are but types may do so with any token. -/
instance (priority := high) typeOnly {p : Parser Unit} :
    Valued ctx start high (p >>= fun _ => Pure.pure .typeOnly) where
  sided s found t _ _ _ hrun hfound := by
    obtain ⟨_, _, -, ⟨⟩⟩ := bind_ok hrun
    exact absurd rfl hfound

instance (priority := high) typeOnly_after {p q : Parser Unit} :
    Valued ctx start high (p >>= fun _ => q >>= fun _ => Pure.pure .typeOnly) where
  sided s found t _ _ _ hrun hfound := by
    obtain ⟨_, _, -, hrun⟩ := bind_ok hrun
    obtain ⟨_, _, -, ⟨⟩⟩ := bind_ok hrun
    exact absurd rfl hfound

theorem ite {c : Prop} [Decidable c] (hp : Valued ctx start high p) (hq : Valued ctx start high q) :
    Valued ctx start high (if c then p else q) := by
  split
  · exact hp
  · exact hq

instance {c : Prop} [Decidable c] [hp : Valued ctx start high p] [hq : Valued ctx start high q] :
    Valued ctx start high (if c then p else q) := hp.ite hq

theorem position {g : Nat → Parser StatementKind}
    (hg : ∀ index, high ≤ index → Valued ctx start index (g index)) :
    Valued ctx start high (Grammar.position >>= g) where
  sided s found t hs hlt hside hrun hfound := by
    obtain ⟨_, _, ⟨⟩, hrun⟩ := bind_ok hrun
    exact (hg _ hs).sided s found t (Nat.le_refl _) (Nat.lt_of_lt_of_le hlt hs) hside hrun hfound

theorem next (hg : Valued ctx start (high + 1) (g ())) :
    Valued ctx start high (Grammar.next >>= g) where
  sided s found t hs hlt hside hrun hfound := by
    refine hg.sided (s.took ctx .code) found t ?_ (by omega) (hside.push _) hrun hfound
    rw [took_tokens_size]
    omega

/-- The side stays the same when the end of what begins at a token is noted. -/
instance setRhsEnd {index : Nat} [hg : Valued ctx start high (g ())] :
    Valued ctx start high (Grammar.setRhsEnd index >>= g) where
  sided s found t hs hlt hside hrun hfound := by
    obtain ⟨_, u, hnote, hrun⟩ := bind_ok hrun
    obtain ⟨_, _, ⟨⟩, hnote⟩ := bind_ok hnote
    obtain ⟨_, _, ⟨⟩, hnote⟩ := bind_ok hnote
    split at hnote
    · cases hnote
      refine hg.sided _ found t ?_ hlt ?_ hrun hfound
      · simpa using hs
      · refine sided_noting s index ?_ hside
        exact fun _ => ⟨rfl, rfl, rfl, id, rfl, rfl⟩
    · cases hnote

theorem exportedKind {index : Nat} (hindex : index < high) :
    Valued ctx start high (Grammar.exportedKind kind start index) := by
  have hall : Keeps ctx (start + 1) high (allTypeFrom (index + 1)) := allTypeFrom_keeps hindex
  unfold Grammar.exportedKind
  infer_instance

end Valued

section Words

set_option synthInstance.maxSize 100000

variable [k.Keeping ctx]

theorem exportDefault_valued {start high : Nat} (hlt : start < high) :
    Valued ctx start high (exportDefault k start) := by
  unfold exportDefault
  refine .position fun index hindex => .next (.position fun here hhere => ?_)
  have hstart : Fact (start + 1 ≤ here) := ⟨by omega⟩
  have hkind : Valued ctx start here (exportedKind .exportDefault start index) :=
    .exportedKind (by omega)
  infer_instance

omit [k.Keeping ctx] in
theorem exportStatement_answers : Answers ctx (exportStatement k) (· ≠ .importStatement) := by
  unfold exportStatement exportDefault exportedKind
  repeat first | exact .pure (by decide) | refine .ite ?_ ?_ | refine .bind fun _ => ?_

/-- The word `export` belongs to no type, unless all of the statement does. -/
theorem exportStatement_side {found : StatementKind}
    (hrun : exportStatement k ctx s = .ok (found, t)) (hvalue : s.cursor.inType = false)
    (hfound : found ≠ .typeOnly) : Sided t.tokens false s.tokens.size := by
  obtain ⟨_, _, ⟨⟩, hrun⟩ := bind_ok hrun
  obtain ⟨_, _, ⟨⟩, hrun⟩ := bind_ok hrun
  have hdefault : Valued ctx s.tokens.size (s.tokens.size + 1) (exportDefault k s.tokens.size) :=
    exportDefault_valued (Nat.lt_succ_self s.tokens.size)
  have hkind : Valued ctx s.tokens.size (s.tokens.size + 1)
      (exportedKind .exportStatement s.tokens.size s.tokens.size) :=
    .exportedKind (Nat.lt_succ_self _)
  have hclause : Valued ctx s.tokens.size (s.tokens.size + 1) (do
      exportClause k
      return .exportStatement) := by
    refine ⟨fun t found u ht _ hside hrun _ => ?_⟩
    obtain ⟨_, _, hclause, ⟨⟩⟩ := bind_ok hrun
    exact (exportClause_above k ht hclause).sided hside
  have hsize : s.tokens.size + 1 ≤ (s.took ctx .code).tokens.size := by simp
  exact Valued.sided (s.took ctx .code) found t hsize (Nat.lt_succ_self _) (hvalue ▸ sided_taken)
    hrun hfound

theorem all_marking (start : Nat) (s : State) :
    ((s.marking start).tokens.toList.drop start).all (·.isType) = true := by
  refine List.all_eq_true.mpr fun p hp => ?_
  obtain ⟨i, hi⟩ := List.mem_iff_getElem?.mp hp
  rw [List.getElem?_drop, Array.getElem?_toList] at hi
  obtain ⟨q, -, rfl⟩ := getElem?_marking hi
  rw [if_pos (Nat.le_add_right _ _)]

/-- The word `import` stays as it was taken, unless all of the statement belongs to types. -/
theorem importStatement_first (hrun : importStatement k ctx s = .ok ((), t)) :
    t.tokens[s.tokens.size]? = some s.cursor.token ∨
      (t.tokens.toList.drop s.tokens.size).all (·.isType) = true := by
  obtain ⟨_, _, ⟨⟩, hrun⟩ := bind_ok hrun
  obtain ⟨_, _, ⟨⟩, hrun⟩ := bind_ok hrun
  have hfirst : (s.took ctx .code).tokens[s.tokens.size]? = some s.cursor.token :=
    Array.getElem?_push_size
  obtain ⟨_, _, ⟨⟩, hrun⟩ := bind_ok hrun
  obtain ⟨isType, u, hlook, hrun⟩ := bind_ok hrun
  replace hfirst := Keeps.get hlook hfirst
  split at hrun
  · obtain ⟨_, u, -, hrun⟩ := bind_ok hrun
    cases hrun
    exact .inr (all_marking _ u)
  · exact .inl (Keeps.get hrun hfirst)

end Words

/-- The word that a statement of the module begins with. -/
def wordOf (kind : StatementKind) : Kind :=
  if kind = .importStatement then .kwImport else .kwExport

/-- What is read from its word on begins with it, as a value. -/
theorem word_moves (hk : k.Sure ctx) {found : StatementKind} (hmodule : found.OfModule)
    (hword : (s.cursor.kind = .kwExport ∧ exportStatement k ctx s = .ok (found, t)) ∨
      (s.cursor.kind = .kwImport ∧ found = .importStatement ∧
        importStatement k ctx s = .ok ((), t)))
    (hclean : t.Clean) : s.Clean ∧ (Sound ctx s → s.Outside → Run ctx s t ∧
      (s.cursor.inType = false → (t.tokens.toList.drop s.tokens.size).all (·.isType) = false →
        At t.tokens s.tokens.size (wordOf found) ∧ Sided t.tokens false s.tokens.size)) := by
  have := hk.keeping
  obtain ⟨hexport, hrun⟩ | ⟨himport, rfl, hrun⟩ := hword
  · obtain ⟨hclean', hgo⟩ := exportStatement_goes hk hexport _ t hrun hclean
    refine ⟨hclean', fun hsound houtside => ?_⟩
    obtain ⟨hrun', -, hfirst, -⟩ := hgo hsound ⟨trivial, houtside⟩
    refine ⟨hrun', fun hvalue _ => ⟨?_, exportStatement_side hrun hvalue ?_⟩⟩
    · rwa [wordOf, if_neg (exportStatement_answers s found t hrun)]
    · rintro rfl
      exact absurd hmodule (by decide)
  · obtain ⟨hclean', hgo⟩ := importStatement_takes hk s True
      (fun _ => plain_of_kind himport (by decide)) _ t hrun hclean
    refine ⟨hclean', fun hsound houtside => ?_⟩
    refine ⟨(hgo hsound ⟨trivial, houtside⟩).1, fun hvalue hall => ?_⟩
    have hfirst := (importStatement_first hrun).resolve_right (Bool.eq_false_iff.mp hall)
    exact ⟨⟨_, hfirst, himport⟩, _, hfirst, hvalue⟩

namespace Stated

variable {tokens : Array Token} {c : Statement} {found : StatementKind}

section

variable (h : Stated ctx p tokens c found s t)
include h

theorem at_of {kind : Kind} (hi : i < c.stop) (hat : At t.tokens i kind) : At tokens i kind := by
  obtain ⟨token, htoken, hkind⟩ := hat
  exact ⟨token, (h.tokens i hi).trans htoken, hkind⟩

theorem sided_of {b : Bool} (hi : i < c.stop) (hside : Sided t.tokens b i) : Sided tokens b i := by
  obtain ⟨token, htoken, hb⟩ := hside
  exact ⟨token, (h.tokens i hi).trans htoken, hb⟩

theorem ends {r : Nat} (hi : i < c.stop) (hend : EndsAt tokens i r) : i < r ∧ r ≤ c.stop := by
  obtain ⟨token, htoken, hr⟩ := hend
  rw [h.stop]
  exact h.ruled.bounds ⟨token, (h.tokens i hi).symm.trans htoken, hr⟩

/-- A statement of the module is of the kind that was found, and not but types. -/
theorem kind_of_module (hmodule : c.kind.OfModule) :
    found = c.kind ∧ (t.tokens.toList.drop c.start).all (·.isType) = false := by
  have hkind := h.kind
  split at hkind
  · rw [hkind] at hmodule
    exact absurd hmodule (by decide)
  · rename_i hall
    exact ⟨hkind.symm, Bool.eq_false_iff.mpr hall⟩

end

/-- A statement of the module is read from its word on, unless it is decorated. -/
theorem word (hk : k.Sure ctx) (h : Stated ctx (statement k) tokens c found s t)
    (hlt : c.start < c.stop) (hmodule : c.kind.OfModule) : At tokens c.start .atSign ∨
      (s.cursor.kind = .kwExport ∧ exportStatement k ctx s = .ok (c.kind, t)) ∨
      (s.cursor.kind = .kwImport ∧ c.kind = .importStatement ∧
        importStatement k ctx s = .ok ((), t)) := by
  have := hk.keeping
  obtain ⟨rfl, -⟩ := h.kind_of_module hmodule
  obtain ⟨u, hdecorators, hword⟩ := statement_module h.run hmodule
  obtain ⟨hclean', hgo'⟩ := word_moves hk hmodule hword h.clean
  obtain ⟨-, hgo⟩ := decorators_goes hk _ u hdecorators hclean'
  obtain ⟨hrun₁, honward, hmark, hsame⟩ := hgo h.sound ⟨trivial, h.outside⟩
  obtain ⟨hrun₂, -⟩ := hgo' (hrun₁.sound h.sound) honward.outside
  by_cases hat : s.cursor.kind = .atSign
  · exact .inl (h.at_of hlt (h.start ▸ (hmark hat).mono hrun₂.extends))
  · obtain rfl := hsame hat
    exact .inr hword

theorem led (hk : k.Sure ctx) (h : Stated ctx (statement k) tokens c found s t)
    (hlt : c.start < c.stop) (hmodule : c.kind.OfModule) : At tokens c.start .atSign ∨
      At tokens c.start (wordOf c.kind) ∧ Sided tokens false c.start := by
  obtain ⟨-, hall⟩ := h.kind_of_module hmodule
  refine (h.word hk hlt hmodule).imp id fun hword => ?_
  obtain ⟨-, hfirst⟩ := (word_moves hk hmodule hword h.clean).2 h.sound h.outside
  rw [← h.start] at hfirst
  obtain ⟨hword, hside⟩ := hfirst h.value hall
  exact ⟨h.at_of hlt hword, h.sided_of hlt hside⟩

end Stated

end Grammar

variable (h : parse text dialect = .ok (.ok stream))
include h

/-- Each statement of a snippet was read by the parser for statements. -/
theorem parse_stated : ∀ c ∈ stream.statements.toList, ∃ n found s t,
      Stated (.of text dialect) (statement (grammar n)) stream.tokens c found s t := by
  obtain ⟨hread, herror⟩ := parse_ok h
  obtain ⟨⟨statements, u⟩, hprogram, hstream⟩ := bind_eq_ok_iff.mp hread
  cases hstream
  obtain ⟨⟨found, t⟩, htop, hprogram⟩ := bind_eq_ok_iff.mp hprogram
  cases hprogram
  have hk := grammar_sure (.of text dialect) (nestingBudget text.length)
  obtain ⟨hfirst, -⟩ := topLevel_goes hk (h := True) _ _ t htop herror
  have hmoved := Cursor.advance_moved (c := Cursor.before text) hfirst
  obtain ⟨cs, hcs, hall⟩ := topLevel_stated hk htop herror (sound_first (.of text dialect) hfirst)
    (outside_first hfirst) hmoved.inType .empty
  intro c hc
  have hmem : c ∈ cs := by
    rw [show statements.toList = cs from hcs] at hc
    exact hc
  obtain ⟨found, s', t', hstated⟩ := hall c hmem
  refine ⟨16 * text.length + 63, found, s', t', hstated.keep fun i hi => ?_⟩
  have hlt : i < t.tokens.size := by
    have hget := hstated.tokens i hi
    rw [Array.getElem?_eq_getElem (lt_of_lt_of_eq hi hstated.stop)] at hget
    exact (Array.getElem?_eq_some_iff.mp hget).1
  show (t.tokens.push t.cursor.token)[i]? = _
  rw [Array.getElem?_push, if_neg (Nat.ne_of_lt hlt)]

/-- Each statement of the module begins with its word, as a value, unless it is decorated. -/
theorem parse_led {c : Statement} (hc : c ∈ stream.statements.toList) (hmodule : c.kind.OfModule)
    (hplain : ¬ At stream.tokens c.start .atSign) :
    At stream.tokens c.start (wordOf c.kind) ∧ Sided stream.tokens false c.start := by
  obtain ⟨n, found, s, t, hstated⟩ := parse_stated h c hc
  exact (hstated.led (grammar_sure _ n) ((parse_outlines h).bounds.2 c hc).2.1 hmodule).resolve_left
    hplain

/-- What begins at a token of a statement ends with the statement. -/
theorem parse_ends {c : Statement} (hc : c ∈ stream.statements.toList) {r : Nat} (hi : i < c.stop)
    (hend : EndsAt stream.tokens i r) : i < r ∧ r ≤ c.stop := by
  obtain ⟨n, found, s, t, hstated⟩ := parse_stated h c hc
  exact hstated.ends hi hend

/-- A default export goes on after its first word. -/
theorem parse_wide {c : Statement}
    (hc : c ∈ stream.statements.toList) (hkind : c.kind = .exportDefault)
    (hexport : At stream.tokens c.start .kwExport) :
    c.start + 2 ≤ c.stop := by
  obtain ⟨n, found, s, t, hstated⟩ := parse_stated h c hc
  have hlt := ((parse_outlines h).bounds.2 c hc).2.1
  obtain ⟨rfl, -⟩ := hstated.kind_of_module (by rw [hkind]; decide)
  obtain ⟨-, hgo⟩ := statement_goes (grammar_sure _ n) _ t hstated.run hstated.clean
  obtain ⟨-, -, -, hdefault⟩ := hgo hstated.sound ⟨trivial, hstated.outside⟩
  rcases hdefault hkind with hat | hat
  · have := hat.2.lt_size
    have := hstated.start
    have := hstated.stop
    omega
  · rw [← hstated.start] at hat
    cases (hstated.at_of hlt hat).kind_eq hexport

end Downlevel
