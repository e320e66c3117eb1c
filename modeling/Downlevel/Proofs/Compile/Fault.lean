import Downlevel.Proofs.Compile.Places
import Downlevel.Proofs.Grammar.Export
import Downlevel.Proofs.Grammar.Heads
import Downlevel.Proofs.Lowering.Proceeds
import Downlevel.Proofs.Markup.Text

/-!
# Faults

Reading and compiling look at tokens by index, cut the text at offsets, close scopes and take notes
back. Such a step ends in a fault when what it needs is not there. Reading finds all that it needs
but the names of an export clause (`program_fault`), what it leaves behind is in the text
(`tokenize_within`), and compiling adds no fault to those of reading (`compile_eq_fault_iff`).
-/

namespace Downlevel

/-! ## Reading -/

/-- The statement has tokens, and they are among the first `size`. -/
structure Statement.Within (c : Statement) (size : Nat) : Prop where
  start_lt : c.start < c.stop
  start_le : c.start ≤ c.expressionEnd
  expressionEnd_le : c.expressionEnd ≤ c.stop
  stop_le : c.stop ≤ size

theorem Statement.Within.mono {c : Statement} {m n : Nat} (h : c.Within m) (hle : m ≤ n) :
    c.Within n :=
  { h with stop_le := Nat.le_trans h.stop_le hle }

namespace Grammar

variable {ctx : Context} {k : Knot} {s t : State}

theorem first_poised (source : Source) : (State.first source).cursor.Poised source.text := by
  have hfirst : (Cursor.before source.text).advance source .code = (State.first source).cursor :=
    rfl
  rw [← hfirst]
  exact Cursor.advance_poised (Cursor.before_placed source.text).stop

theorem first_placed (source : Source) : Placed source.text (.first source) := by
  have hfirst : (Cursor.before source.text).advance source .code = (State.first source).cursor :=
    rfl
  exact ⟨hfirst ▸ Cursor.advance_placed (Cursor.before_placed source.text), by simp [State.first]⟩

section Statements

variable [k.Keeping ctx]

theorem topLevelStatement_within {found : Option Statement}
    (hrun : topLevelStatement k ctx s = .ok (found, t)) : ∀ c ∈ found, c.Within t.tokens.size := by
  obtain ⟨_, _, ⟨⟩, hrest⟩ := bind_ok hrun
  obtain ⟨kind, u, hstatement, hrest⟩ := bind_ok hrest
  obtain ⟨_, _, ⟨⟩, hrest⟩ := bind_ok hrest
  have hsize := Keeps.size_le hstatement
  split at hrest
  · obtain ⟨_, _, -, ⟨⟩⟩ := bind_ok hrest
    exact nofun
  · rename_i hne
    have hlt : s.tokens.size < u.tokens.size :=
      Nat.lt_of_le_of_ne hsize fun heq => hne (by simp [heq])
    obtain ⟨allType, v, hall, hrest⟩ := bind_ok hrest
    obtain ⟨rfl, -⟩ := allTypeFrom_ok hall
    obtain ⟨ended, w, hend, hrest⟩ := bind_ok hrest
    obtain ⟨rfl, -⟩ := endsInSemicolon_ok hend
    cases hrest
    rintro c ⟨⟩
    refine ⟨hlt, ?_, ?_, Nat.le_refl _⟩ <;> dsimp only <;> split <;> omega

theorem topLevel_within {seen found : Array Statement} {n : Nat}
    (hseen : ∀ c ∈ seen, c.Within s.tokens.size)
    (hrun : topLevel k seen n ctx s = .ok (found, t)) : ∀ c ∈ found, c.Within t.tokens.size := by
  induction n generalizing seen s with
  | zero => cases hrun
  | succ n ih =>
    obtain ⟨_, _, ⟨⟩, hrest⟩ := bind_ok hrun
    split at hrest
    · cases hrest
      exact hseen
    · obtain ⟨read, u, hstatement, hrest⟩ := bind_ok hrest
      have hsize := Keeps.size_le hstatement
      have hold : ∀ c ∈ seen, c.Within u.tokens.size := fun c hc => (hseen c hc).mono hsize
      have hread := topLevelStatement_within hstatement
      cases read with
      | none =>
        cases hrest
        exact hold
      | some new =>
        refine ih (fun c hc => ?_) hrest
        rcases Array.mem_push.mp hc with hc | rfl
        · exact hold c hc
        · exact hread c rfl

end Statements

variable {n : Nat}

/-- What a rule leads to, if the tag of an element is among the tokens. -/
theorem rule_above {r : Rule} {a : r.Result} (hr : r.Within 0 s.tokens.size)
    (hrun : grammar n r ctx s = .ok (a, t)) : Above ctx.source.text 0 s t :=
  (((grammar_keeping n).rule 0 s.tokens.size r hr).keepsAt (Nat.zero_le _) s (Nat.le_refl _)).above
    a t hrun

theorem topLevel_keepsAt (ctx : Context) (n : Nat) :
    KeepsAt ctx 0 (.first ctx.source) (topLevel (grammar n) #[] ctx.budget) :=
  Keeps.keepsAt (Nat.le_refl 0) _ (Nat.zero_le _)

/-- However the bounds are chosen, reading a text ends in no fault but those that are foreseen. -/
theorem program_fault {f : Fault}
    (hrun : program (grammar n) ctx (.first ctx.source) = .error f) :
    Foreseen ctx (.first ctx.source) f := by
  have hread : (read : Parser Context) ctx (.first ctx.source) = .ok (ctx, .first ctx.source) := rfl
  unfold program at hrun
  rw [bind_of_ok hread] at hrun
  rcases bind_error hrun with hstatements | ⟨_, _, -, hrest⟩
  · exact (topLevel_keepsAt ctx n).fault (first_placed ctx.source) f hstatements
  · cases hrest

/-- The statements and scopes of a text are about tokens that are there. -/
theorem program_within {statements : Array Statement}
    (hrun : program (grammar n) ctx (.first ctx.source) = .ok (statements, t)) :
    (∀ c ∈ statements, c.Within t.tokens.size) ∧
      ∀ c ∈ t.scopes, c.start ≤ c.stop ∧ c.stop ≤ t.tokens.size := by
  obtain ⟨_, _, ⟨⟩, hrest⟩ := bind_ok hrun
  obtain ⟨found, u, hstatements, hrest⟩ := bind_ok hrest
  have hwithin := topLevel_within (by simp) hstatements
  have habove := (topLevel_keepsAt ctx n).above found u hstatements
  have hplaced := habove.placed (first_placed ctx.source)
  cases hrest
  have hsize : (u.tokens.push u.cursor.token).size = u.tokens.size + 1 := Array.size_push ..
  constructor
  · intro c hc
    exact (hwithin c hc).mono (by dsimp only; omega)
  · intro c hc
    rcases Array.mem_push.mp hc with hc | rfl
    · have hscope := hplaced.scopes c hc
      exact ⟨hscope.1, by dsimp only; omega⟩
    · exact ⟨Nat.zero_le _, Nat.le_refl _⟩

end Grammar

open Grammar

variable {text : List Char} {dialect : Dialect} {f : Fault}

theorem tokenize_eq_error_iff :
    tokenize text dialect = .error f ↔
      program (grammar (nestingBudget text.length)) (.of text dialect) (.first ⟨text, dialect⟩) =
        .error f := by
  unfold tokenize
  rw [bind_eq_error_iff]
  exact or_iff_left fun ⟨_, _, hstream⟩ => nomatch hstream

theorem parse_eq_error_iff : parse text dialect = .error f ↔ tokenize text dialect = .error f := by
  unfold parse
  rw [bind_eq_error_iff]
  exact or_iff_left fun ⟨_, _, hstream⟩ => nomatch hstream

/-- Statements and scopes have tokens, and the tokens a place in the text if there is no error. -/
structure TokenStream.Within (text : List Char) (stream : TokenStream) : Prop where
  statements : ∀ c ∈ stream.statements, c.Within stream.tokens.size
  scopes : ∀ c ∈ stream.scopes, c.start ≤ c.stop ∧ c.stop ≤ stream.tokens.size
  tokens : stream.error = none → ∀ t ∈ stream.tokens, t.span.Fits text ∧ t.span.Exact

theorem tokenize_within {stream : TokenStream} (hsize : Text.size text ≤ Span.maxOffset)
    (h : tokenize text dialect = .ok stream) : stream.Within text := by
  have hrun := h
  unfold tokenize at hrun
  obtain ⟨⟨statements, t⟩, hrun, hstream⟩ := bind_eq_ok_iff.mp hrun
  obtain ⟨hstatements, hscopes⟩ := program_within hrun
  cases hstream
  refine ⟨hstatements, hscopes, fun hclean tok htok => ?_⟩
  have hfits := parse_fits (parse_of_tokenize h hclean) tok htok
  exact ⟨hfits, hfits.exact hsize⟩

/-! ## Compiling -/

open Compile

variable {options : CompileOptions} {stream : TokenStream}

theorem mapError_ne_fault {α : Type} {x : Except CompileError α} :
    x.mapError Halt.error ≠ .error (.fault f) := by
  cases x <;> nofun

theorem lowering_blames (hparse : parse text options.dialect = .ok (.ok stream)) {e : Halt}
    (hrun : Lowering.snippet (prepare text stream options).1 (prepare text stream options).2 =
      .error e) : (prepare text stream options).1.Blames e := by
  obtain ⟨-, body, last, hwhole⟩ := prepare_whole hparse
  have hended := Lowering.Scene.Ended.of_whole hwhole
  have hproceeds : Lowering.Proceeds (prepare text stream options).1 0 Lowering.snippet :=
    Lowering.snippet_proceeds
  exact (hproceeds.proceedsAt (prepare text stream options).2 (Nat.zero_le _)).stops hrun

/-- Compiling adds no fault to those of reading. -/
theorem compile_eq_fault_iff :
    compile text options = .error (.fault f) ↔ parse text options.dialect = .error f := by
  unfold compile
  rw [bind_eq_error_iff]
  cases hparse : parse text options.dialect with
  | error e => simp [Except.mapError]
  | ok read =>
    refine iff_of_false ?_ nofun
    rintro (⟨⟨⟩⟩ | ⟨read, ⟨⟩, hcompile⟩)
    cases read with
    | error e => cases hcompile
    | ok stream =>
      rcases bind_eq_error_iff.mp hcompile with hrun | ⟨⟨_, d⟩, -, hcompile⟩
      · obtain ⟨_, _, ⟨⟩, -⟩ := lowering_blames hparse hrun
      rcases bind_eq_error_iff.mp hcompile with hfinish | ⟨rendering, -, hrest⟩
      · exact mapError_ne_fault hfinish
      · cases hrest

/-! ## Lines, references and scopes -/

namespace Text.LineIndex

/-- The line of an offset is there, and begins at the offset or before it. -/
theorem lineStart?_lineOf (text : List Char) (offset : Nat) :
    ∃ start, (ofText text).lineStart? ((ofText text).lineOf offset) = some start ∧
      start ≤ offset := by
  have hfirst : (ofText text).starts = 0 :: (scan 0 0 text).1 := rfl
  have hpos : 0 < ((ofText text).starts.takeWhile (· ≤ offset)).length := by simp [hfirst]
  have hlt : (ofText text).lineOf offset < ((ofText text).starts.takeWhile (· ≤ offset)).length :=
    Nat.sub_lt hpos Nat.one_pos
  have hprefix := List.takeWhile_prefix (l := (ofText text).starts) (· ≤ offset)
  refine ⟨((ofText text).starts.takeWhile (· ≤ offset))[(ofText text).lineOf offset], ?_, ?_⟩
  · rw [lineStart?, hprefix.getElem hlt]
    exact List.getElem?_eq_getElem _
  · simpa using List.mem_takeWhile_imp (List.getElem_mem hlt)

end Text.LineIndex

namespace Shadow

variable {scopes : List Scope} {index : Nat} {functionOnly : Bool} {c : Scope}

/-- The smallest scope around a token is one of the scopes, and around the token. -/
theorem innermost?_around (h : innermost? scopes index functionOnly = some c) :
    c ∈ scopes ∧ c.start ≤ index ∧ index < c.stop := by
  unfold innermost? at h
  revert c
  refine List.foldlRecOn (motive := fun best => ∀ {c}, best = some c →
    c ∈ scopes ∧ c.start ≤ index ∧ index < c.stop) _ _ (by rintro c ⟨⟩) ?_
  intro best ih a ha c hc
  have haround : a ∈ scopes ∧ a.start ≤ index ∧ index < a.stop := by
    simp only [List.mem_filter, Bool.and_eq_true, decide_eq_true_eq] at ha
    exact ⟨ha.1, ha.2.1⟩
  cases best with
  | none =>
    cases hc
    exact haround
  | some b =>
    dsimp only at hc
    split at hc
    · cases hc
      exact haround
    · exact ih hc

end Shadow

end Downlevel
