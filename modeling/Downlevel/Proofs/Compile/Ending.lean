import Downlevel.Proofs.Compile.Fault
import Downlevel.Proofs.Grammar.Termination

/-!
# Reading a text ends

No text keeps the parser busy for ever, well formed or not. `parsing_ends` says so of the bounds
that a text is given, which are never met, and says why: from any state, a round of a loop after
which another one follows takes a token or sets the error, a rule uses others only with less to read
or of a lower rank, and after an error nothing but the end of the input is taken.

So reading a text ends in a fault only if something is not there. `fault_only_at_nameless_export`
says that this can only be the name of an export specifier, where the list of the text has something
else.
-/

namespace Downlevel

namespace Grammar

variable {ctx : Context} {n : Nat} {s : State} {text : List Char} {dialect : Dialect}

/-! ## Loops -/

section Loops

set_option synthInstance.maxSize 1000000

variable {α : Type} {k : Knot} {round : Parser α} {more : α → Prop}

theorem Loop.flows [k.Flowing ctx] (h : Loop k round more) : Flows ctx round := by
  cases h <;> infer_instance

theorem Loop.roundsAt [k.Flowing ctx] [k.Halting ctx n] (h : Loop k round more)
    (hs : Room ctx n s) :
    RoundsAt ctx s round more := by
  cases h with
  | decorators =>
    have hsees : Sees ctx (seeing .atSign) := seeing_sees nofun
    exact Rounds.roundsAt s hs
  | subscripts noCalls => exact (subscript_turnsAt k noCalls hs.succ).rounds
  | operators min noIn => exact (operation_turnsAt k min noIn hs.succ).rounds
  | classModifiers => exact (classModifier_turnsAt hs).rounds
  | tagName name => exact (nameRound_turnsAt name hs).rounds
  | attributes seen => exact (attributeRound_turnsAt k seen hs.succ).rounds
  | children name count => exact (childRound_turnsAt k name count hs.succ).rounds
  | exportSpecifiers locals => exact (exportRound_turnsAt locals hs).rounds
  | topLevel seen => exact (statementRound_turnsAt k seen hs).rounds
  | _ => exact Rounds.roundsAt s hs

end Loops

/-! ## Texts -/

theorem room_of_poised (hs : s.cursor.Poised text) :
    Room (.of text dialect) (4 * text.length + 4) s := by
  have hle := Cursor.credit_le hs
  refine ⟨hs, Nat.lt_succ_of_le hle, ?_⟩
  have hbudget : (Context.of text dialect).budget = 4 * text.length + 64 := rfl
  omega

theorem ample_halting {m : Nat} (hm : nestingBudget text.length ≤ m) :
    (grammar m).Halting (.of text dialect) (4 * text.length + 4) := by
  refine grammar_halting ?_
  unfold nestingBudget at hm
  omega

section Ample

variable {m : Nat} {t : State}

theorem loop_progress {α : Type} {round : Parser α} {more : α → Prop} {a : α}
    (hm : nestingBudget text.length ≤ m) (hs : s.cursor.Poised text)
    (hloop : Loop (grammar m) round more) (hrun : round (.of text dialect) s = .ok (a, t))
    (hmore : more a) : Progress s t := by
  have hhalting : (grammar m).Halting (.of text dialect) (4 * text.length + 4) := ample_halting hm
  have hcourse := hloop.flows.course s a t hrun
  exact hcourse.progress hs (hloop.roundsAt (room_of_poised hs) a t hrun hmore)

/-- A statement that is read without an error has a token. -/
theorem statement_takes {kind : StatementKind} (hm : nestingBudget text.length ≤ m)
    (hs : s.cursor.Poised text)
    (hrun : (grammar m).statement (.of text dialect) s = .ok (kind, t))
    (hclean : t.cursor.error = none) :
    ∃ (i : Nat) (tok : Token), s.tokens.size ≤ i ∧ t.tokens[i]? = some tok ∧ tok.kind ≠ .eof := by
  have hhalting : (grammar m).Halting (.of text dialect) (4 * text.length + 4) := ample_halting hm
  have hcourse := ((grammar_flowing m).flows .statement).course s kind t hrun
  have hbegun : s.cursor.error = none := by
    cases herror : s.cursor.error with
    | none => rfl
    | some e =>
      have hfailed := hcourse.failed hs (by rw [herror]; rfl)
      rw [hclean] at hfailed
      cases hfailed
  have hlt := (Leaves.leavesAt s (room_of_poised hs)).spends hbegun kind t hrun
  rcases hcourse.progress hs hlt with ⟨-, hfailed⟩ | htaken
  · rw [hclean] at hfailed
    cases hfailed
  · exact htaken

end Ample

/-- A rule that comes back to itself with a smaller measure has got on. -/
theorem Course.progress_of_measure {r : Rule} {t : State} (h : Course text s t)
    (hs : s.cursor.Poised text) (hlt : r.measure t < r.measure s) : Progress s t := by
  rcases Rule.measure_lt_iff.mp hlt with hcredit | ⟨-, hrank⟩
  · exact h.progress hs hcredit
  · exact absurd hrank (Nat.lt_irrefl _)

theorem program_halts {k : Knot} [k.Flowing ctx] [k.Halting ctx n] : Halts ctx n (program k) where
  halts s hs := by
    refine bind_halts (p := (read : Parser Context)) (Looks.halts _) ?_
    rintro _ _ ⟨⟩
    exact bind_halts (Bounded.halts _ s hs hs.fits) fun _ _ _ => by rintro ⟨⟩

end Grammar

open Grammar

theorem tokenize_ne_outOfFuel (text : List Char) (dialect : Dialect) :
    tokenize text dialect ≠ .error .outOfFuel := by
  intro hrun
  have hhalting : (grammar (nestingBudget text.length)).Halting (.of text dialect)
      (4 * text.length + 4) := ample_halting (Nat.le_refl _)
  exact program_halts.halts (.first ⟨text, dialect⟩) (room_of_poised (first_poised _))
    (tokenize_eq_error_iff.mp hrun)

/-- What stops the reading of a text is an export without a name, up to which it was read. -/
theorem tokenize_fault {text : List Char} {dialect : Dialect} {f : Fault}
    (hrun : tokenize text dialect = .error f) :
    ∃ read error, f = .missingLocal read.size read error ∧
      NamelessExport (.of text dialect) read error := by
  have hforeseen : Foreseen (.of text dialect) (.first ⟨text, dialect⟩) f :=
    program_fault (tokenize_eq_error_iff.mp hrun)
  rcases hforeseen.nameless (first_poised _) with rfl | hnameless
  · exact absurd hrun (tokenize_ne_outOfFuel text dialect)
  · exact hnameless

/-- The offsets of the cursor are the same when they are stored in 32 bits. -/
structure Cursor.Exact (c : Cursor) : Prop where
  token : c.token.span.Exact
  gap : (Span.mk c.lastEnd.offset c.start.offset).Exact

theorem Cursor.Placed.exact {text : List Char} {c : Cursor} (h : c.Placed text)
    (hsize : Text.size text ≤ Span.maxOffset) : c.Exact :=
  ⟨Span.exact_of_le (Nat.le_trans h.start.place.le_size hsize)
      (Nat.le_trans h.stop.place.le_size hsize),
    Span.exact_of_le (Nat.le_trans h.lastEnd.place.le_size hsize)
      (Nat.le_trans h.start.place.le_size hsize)⟩

/-- What reading a text misses: at most the name of an export specifier. -/
structure Grammar.MissesNames (text : List Char) (dialect : Dialect) : Prop where
  /-- a fault carries what was read, which is an export clause up to a name that is not there -/
  fault : ∀ f, tokenize text dialect = .error f → ∃ read error,
    f = .missingLocal read.size read error ∧ NamelessExport (.of text dialect) read error
  /-- marking the names of a list fails exactly if one of them is not there -/
  marks : ∀ {s t : State} {locals : List Nat},
    exportList (.of text dialect) s = .ok (locals, t) →
      ((∃ f, markExports locals (.of text dialect) t = .error f) ↔
        ∃ u w, expect .braceL (.of text dialect) s = .ok ((), u) ∧ Nameless (.of text dialect) u w)
  /-- and then the clause ends in that fault -/
  clause : ∀ {s t u w : State} {locals : List Nat} (k : Knot),
    exportList (.of text dialect) s = .ok (locals, t) →
      expect .braceL (.of text dialect) s = .ok ((), u) → Nameless (.of text dialect) u w →
        ∃ f, markExports locals (.of text dialect) t = .error f ∧
          exportClause k (.of text dialect) s = .error f
  /-- the text is read at places that it has, from the first token on -/
  first : Placed text (.first ⟨text, dialect⟩)
  rule : ∀ {n : Nat} {r : Rule} {s t : State} {a : r.Result}, r.Within 0 s.tokens.size →
    grammar n r (.of text dialect) s = .ok (a, t) → Placed text s → Placed text t ∧ t.cursor.Exact
  stream : ∀ stream, tokenize text dialect = .ok stream → stream.Within text

/-- What is looked up by an offset, in the scopes and behind an ampersand is there. -/
structure Compile.FindsAll (text : List Char) : Prop where
  line : ∀ offset, ∃ start, (Text.LineIndex.ofText text).lineStart?
    ((Text.LineIndex.ofText text).lineOf offset) = some start ∧ start ≤ offset
  scope : ∀ {scopes : List Scope} {index : Nat} {functionOnly : Bool} {c : Scope},
    Shadow.innermost? scopes index functionOnly = some c →
      c ∈ scopes ∧ c.start ≤ index ∧ index < c.stop
  reference : ∀ {cs : List Char} {ch : Char} {n : Nat},
    Markup.reference? cs = some (ch, n) → Markup.ClosesAt cs n

end Downlevel
