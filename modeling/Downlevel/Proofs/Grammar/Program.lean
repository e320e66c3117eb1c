import Downlevel.Proofs.Grammar.Element
import Downlevel.Proofs.Grammar.Statement

/-!
# The tokens of a snippet

Every production keeps to what the rules promise one another, so the whole grammar does, by
induction on how deeply rules may nest. What follows for a snippet without error: its tokens tile
the text, the one after them is the end of the input, and where no types may be written none of
them belongs to a type (`parse_reads`).
-/

namespace Downlevel

open Grammar State

variable {dialect : Dialect} {stream : TokenStream} {text : List Char}

namespace Grammar

variable {ctx : Context} {k : Knot} {s : State} {h : Prop}

theorem production_sure (hk : k.Sure ctx) : (production k).Sure ctx where
  keeping :=
    have := hk.keeping
    production_keeping k
  statement _ _ := statement_goes hk
  assignment := assignment_grows hk
  operators := operators_steady hk
  unary := unary_grows hk
  atom := atom_grows hk
  type := type_steady hk
  plainType := plainType_steady hk
  typeOperator := typeOperator_steady hk
  bindingAtom := bindingAtom_steady hk
  element _ _ _ := element_moves hk

theorem grammar_sure (ctx : Context) (n : Nat) : (grammar n).Sure ctx := by
  induction n with
  | zero =>
    constructor
    · exact grammar_keeping 0
    all_goals intros; first | exact .throw _ | exact fun _ _ => .throw _
  | succ n ih => exact production_sure ih

theorem Goes.endsInSemicolon {β : Type} {R : β → State → Prop} {g : Bool → Parser β}
    {kind : StatementKind} (hg : ∀ b, Goes ctx s h (g b) R) :
    Goes ctx s h (Grammar.endsInSemicolon kind >>= g) R := by
  unfold Grammar.endsInSemicolon
  split
  · rw [bind_assoc]
    exact .lastToken fun _ => hg _
  · exact hg false

/-- Where a statement begins, one is read. -/
theorem topLevelStatement_goes (hk : k.Sure ctx) :
    Goes ctx s h (topLevelStatement k) fun found t => ∃ c, found = some c ∧
      c.start = s.tokens.size ∧ c.stop = t.tokens.size ∧ s.tokens.size < t.tokens.size ∧
      (c.kind = .exportDefault → Defaulted s t) := by
  refine .position ((hk.statement s _).bind fun kind t => .position ?_)
  split
  · exact (unexpected_goes (Q := fun _ _ => False)).bind fun _ _ => .pure fun _ hh => hh.2.2.elim
  · refine .allTypeFrom ?_
    refine .endsInSemicolon fun b => .pure fun _ hh => ⟨_, rfl, rfl, rfl, hh.1.2.2.1, ?_⟩
    intro hkind
    dsimp only at hkind
    split at hkind
    · cases hkind
    · exact hh.1.2.2.2 hkind

theorem topLevel_goes (hk : k.Sure ctx) {seen : Array Statement} (n : Nat) :
    Goes ctx s h (topLevel k seen n) fun statements t => t.cursor.kind = .eof ∧
      ∃ cs, statements.toList = seen.toList ++ cs ∧
        Outline t.tokens cs s.tokens.size t.tokens.size := by
  induction n generalizing s h seen with
  | zero => exact .throw _
  | succ n ih =>
    refine .seeing ?_
    split
    · rename_i heof
      exact .pure fun _ _ => ⟨beq_iff_eq.mp heof, [], by simp, .nil _⟩
    · refine (topLevelStatement_goes hk).bind fun found t => ?_
      split
      · rename_i c
        refine Goes.mono ih id ?_
        rintro statements u ⟨-, honward, c', hc, hstart, hstop, hlt, hdefault⟩ hrun
          ⟨heof, cs, hcs, houtline⟩
        obtain rfl := Option.some.inj hc
        refine ⟨heof, c :: cs, by simp [hcs], ?_⟩
        have hadds := honward.adds
        unfold Adds at hadds
        rw [← hstart, ← hstop] at hadds hlt
        rw [← hstop] at houtline
        rw [← hstart]
        refine .cons hlt (hadds.mono hrun.extends) (fun hkind => ?_) houtline
        rw [hstart]
        exact (hdefault hkind).imp (fun hat => ⟨hat.1.mono hrun.extends,
          hat.2.mono hrun.extends⟩) (·.mono hrun.extends)
      · exact .pure fun _ hh => by simp at hh

theorem sound_first (ctx : Context) (hclean : (State.first ctx.source).Clean) :
    Sound ctx (.first ctx.source) := by
  have hmoved := Cursor.advance_moved (c := Cursor.before ctx.source.text) hclean
  refine ⟨.advance (c := Cursor.before ctx.source.text) (Text.Point.first_in _) (by decide) hclean,
    .empty _, ?_, fun _ => ⟨hmoved.inType, by simp [State.first]⟩⟩
  exact congrArg (·.offset) hmoved.lastEnd.symm

theorem outside_first {src : Source} (hclean : (State.first src).Clean) :
    (State.first src).Outside := by
  obtain ⟨hend, hname⟩ := Cursor.kind_of_advance_code (c := Cursor.before src.text) hclean
  refine ⟨hend, ?_⟩
  rintro (hnamed | ⟨-, p, hp, -⟩)
  · exact hname hnamed
  · simp [State.first] at hp

end Grammar

/-- The tokens of a text are those in `body`, and `last` is its end. -/
structure Reads (text : List Char) (dialect : Dialect) (body : Array Token) (last : Token) :
    Prop where
  tiled : Tiled text body
  ended : last.kind = .eof
  span : last.span = ⟨Text.size text, Text.size text⟩
  untyped : dialect.typed = false → ∀ t ∈ body.push last, t.isType = false

theorem parse_ok (h : parse text dialect = .ok (.ok stream)) :
    tokenize text dialect = .ok stream ∧ stream.error = none := by
  obtain ⟨found, hread, hfound⟩ := bind_eq_ok_iff.mp h
  split at hfound
  · cases hfound
  · cases hfound
    exact ⟨hread, by assumption⟩

theorem parse_of_tokenize (h : tokenize text dialect = .ok stream) (hclean : stream.error = none) :
    parse text dialect = .ok (.ok stream) := by
  refine bind_eq_ok_iff.mpr ⟨stream, h, ?_⟩
  rw [hclean]
  rfl

/-- How a snippet without error was read: by a run from its first token to its end, after which the
end of the input was taken and the scope of the whole snippet was closed. -/
structure Read (text : List Char) (dialect : Dialect) (stream : TokenStream) (t : State) :
    Prop where
  clean : (State.first ⟨text, dialect⟩).Clean
  run : Run (.of text dialect) (.first ⟨text, dialect⟩) t
  ended : t.cursor.kind = .eof
  tokens : stream.tokens = t.taken
  scopes : stream.scopes = t.scopes.push ⟨0, t.taken.size, true⟩
  outline : Outline t.tokens stream.statements.toList 0 t.tokens.size

section

variable (h : parse text dialect = .ok (.ok stream))
include h

theorem parse_runs : ∃ t, Read text dialect stream t := by
  obtain ⟨hread, herror⟩ := parse_ok h
  obtain ⟨⟨statements, s⟩, hprogram, hstream⟩ := bind_eq_ok_iff.mp hread
  cases hstream
  obtain ⟨⟨found, t⟩, htop, hprogram⟩ := bind_eq_ok_iff.mp hprogram
  cases hprogram
  obtain ⟨hfirst, hgo⟩ := topLevel_goes (grammar_sure (.of text dialect) _) _ _ t htop
    herror
  obtain ⟨hrun, -, heof, cs, hcs, houtline⟩ := hgo (sound_first (.of text dialect) hfirst)
    ⟨trivial, outside_first hfirst⟩
  refine ⟨t, hfirst, hrun, heof, rfl, rfl, ?_⟩
  rw [show statements.toList = cs from hcs]
  exact houtline

omit h in
theorem Read.sound {t : State} (h : Read text dialect stream t) : Sound (.of text dialect) t :=
  h.run.sound (sound_first (.of text dialect) h.clean)

/-- The statements of a snippet follow one another up to the end of the input. -/
theorem parse_outlines :
    Outline stream.tokens stream.statements.toList 0 (stream.tokens.size - 1) := by
  obtain ⟨t, hread⟩ := parse_runs h
  rw [hread.tokens, State.taken, Array.size_push]
  exact hread.outline.mono (.push ..)

theorem parse_reads :
    ∃ body last, stream.tokens = body.push last ∧ Reads text dialect body last := by
  obtain ⟨t, hread⟩ := parse_runs h
  have hsound := hread.sound
  obtain ⟨hrest, hstop⟩ := hsound.standing.ended hread.ended
  have hoffset : t.cursor.start.offset = Text.size text := by
    obtain ⟨before, htext, hsize⟩ := hsound.standing.start
    rw [hrest, List.append_nil] at htext
    rw [← hsize, ← htext]
    rfl
  refine ⟨t.tokens, t.cursor.token, hread.tokens, hsound.tiled, hread.ended, ?_, ?_⟩
  · show (⟨t.cursor.start.offset, t.cursor.stop.offset⟩ : Span) = _
    rw [hstop, hoffset]
  · intro htyped u hu
    obtain ⟨hcursor, htokens⟩ := hsound.untyped htyped
    rcases Array.mem_push.mp hu with hu | rfl
    · obtain ⟨i, hi⟩ := Array.mem_iff_getElem?.mp hu
      exact htokens hi
    · exact hcursor

theorem parse_fits : ∀ t ∈ stream.tokens, t.span.Fits text := by
  obtain ⟨body, last, htokens, hreads⟩ := parse_reads h
  intro t ht
  rcases Array.mem_push.mp (htokens ▸ ht) with ht | rfl
  · obtain ⟨i, hi⟩ := Array.mem_iff_getElem?.mp ht
    have hfits := hreads.tiled.fits hi
    exact ⟨hfits.start, hfits.stop, hfits.le⟩
  · rw [hreads.span]
    exact ⟨.end text, .end text, Nat.le_refl _⟩

end

/-- The stream of a text that is accepted. -/
def accepted? (text : List Char) (dialect : Dialect) : Option TokenStream :=
  match parse text dialect with
  | .ok (.ok stream) => some stream
  | _ => none

theorem accepted?_eq_some_iff :
    accepted? text dialect = some stream ↔ parse text dialect = .ok (.ok stream) := by
  unfold accepted?
  split
  · rename_i found hfound
    rw [hfound]
    simp
  · rename_i hno
    simp only [reduceCtorEq, false_iff]
    exact hno stream

/-- A fact about the stream of a fixed text is computed from the text. -/
theorem exists_accepted {P : TokenStream → Prop} [DecidablePred P]
    (h : (accepted? text dialect).any (decide <| P ·) = true) :
    ∃ stream, parse text dialect = .ok (.ok stream) ∧ P stream := by
  obtain ⟨stream, hstream, hP⟩ := (Option.any_eq_true ..).mp h
  exact ⟨stream, accepted?_eq_some_iff.mp hstream, of_decide_eq_true hP⟩

/-! ## Snippets that are not accepted -/

/-- The error of a text that is not accepted. -/
def rejected? (text : List Char) (dialect : Dialect) : Option SyntaxError :=
  (parse text dialect).toOption.bind errorOf?

/-- An assertion before an operator may leave a snippet that is not accepted. -/
theorem assertion_tears : ¬ ∀ (a b : List Char) (op : List Char × Kind),
    Text.Worded Lexeme.isNameStart Lexeme.isNamePart a →
    Text.Worded Lexeme.isNameStart Lexeme.isNamePart b → op ∈ Lexeme.punctuators →
    op.2.precedence?.isSome = true →
    (accepted? (a ++ ' ' :: (op.1 ++ ' ' :: b)) { typescript := true }).isSome = true →
    (accepted? (a ++ '!' :: ' ' :: (op.1 ++ ' ' :: b)) { typescript := true }).isSome = true := by
  intro h
  have haccepted := h ['a'] ['b'] (">=".toList, .relational) (.single rfl) (.single rfl)
    (by decide +kernel) rfl (by decide +kernel)
  exact absurd haccepted (by decide +kernel)

/-- What can be called cannot always be extended. -/
theorem call_not_extended : ¬ ∀ (f x : List Char) (dialect : Dialect),
    Text.Worded Lexeme.isNameStart Lexeme.isNamePart f →
    Text.Worded Lexeme.isNameStart Lexeme.isNamePart x →
    (accepted? (f ++ '(' :: (x ++ ");".toList)) dialect).isSome = true →
    (accepted? ("class A extends ".toList ++ f ++ '(' :: (x ++ ") \x7b\x7d".toList))
      dialect).isSome = true := by
  intro h
  have haccepted := h ['f'] ['x'] {} (.single rfl) (.single rfl) (by decide +kernel)
  exact absurd haccepted (by decide +kernel)

end Downlevel
