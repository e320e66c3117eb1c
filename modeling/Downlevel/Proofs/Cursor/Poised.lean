import Downlevel.Proofs.Cursor.Placed

/-!
# What is left to read

A cursor that has read a token is `Poised`: the token has text unless it is a template piece or the
end of the input, and after an error there is nothing but the end of the input.

Its `credit` counts what is left to read. Four units go with every character from the current token
on, two with a template piece, which may be empty, and one with the chance to fail. No move raises
the credit, and every move from a token that is not the end of the input lowers it, except from one
template piece to another. An error takes all that is left.
-/

namespace Downlevel.Cursor

open Text (Point)

variable {src : Source} {text : List Char} {c c' : Cursor} {mode : Mode} {cause : SyntaxError.Cause}
  {p : Point} {start stop : Nat}

/-- The cursor stands on a token that was read. -/
structure Poised (text : List Char) (c : Cursor) : Prop where
  start : c.start.In text
  stop : c.stop.In text
  le : c.stop.rest.length ≤ c.start.rest.length
  wide : c.kind.Solid → c.stop.rest.length < c.start.rest.length
  ended : c.kind = .eof → c.start.rest = [] ∧ c.stop = c.start
  failed : c.error.isSome → c.kind = .eof

/-- How much there is left to read or to fail on. -/
def credit (c : Cursor) : Nat :=
  4 * c.start.rest.length + (if c.kind = .template then 2 else 0) +
    (if c.error.isSome then 0 else 1)

/-! ## Credit -/

theorem length_skip_le (p : Point) (n : Nat) : (p.skip n).rest.length ≤ p.rest.length := by
  simp [Point.skip]

theorem length_skip_lt {n : Nat} (h : p.offset < (p.skip n).offset) :
    (p.skip n).rest.length < p.rest.length := by
  have htake : p.rest.take n ≠ [] := by
    intro hnil
    simp [Point.skip, hnil] at h
  have hlength := congrArg List.length (List.take_append_drop n p.rest)
  rw [List.length_append] at hlength
  have hpos := List.length_pos_iff.mpr htake
  show (p.rest.drop n).length < p.rest.length
  omega

theorem length_of_in (h : p.In text) : p.rest.length ≤ text.length := by
  obtain ⟨before, rfl, -⟩ := h
  simp

theorem credit_le (h : c.Poised text) : c.credit ≤ 4 * text.length + 3 := by
  have hle := length_of_in h.start
  unfold credit
  split <;> split <;> omega

theorem credit_pos (h : c.error = none) : 0 < c.credit := by
  simp [credit, h]

theorem failed_of_credit (h : c.credit = 0) : c.error.isSome := by
  cases herror : c.error with
  | none => exact absurd h (Nat.ne_of_gt (credit_pos herror))
  | some e => rfl

theorem credit_of_failed (h : c.Poised text) (hfailed : c.error.isSome) : c.credit = 0 := by
  have hkind := h.failed hfailed
  simp [credit, hkind, (h.ended hkind).1, hfailed]

theorem error_of_live (h : c.Poised text) (hlive : c.kind ≠ .eof) : c.error = none := by
  cases herror : c.error with
  | none => rfl
  | some e => exact absurd (h.failed (by rw [herror]; rfl)) hlive

theorem span_of_eof (h : c.Poised text) (hkind : c.kind = .eof) :
    c.token.span = ⟨Text.size text, Text.size text⟩ := by
  obtain ⟨hrest, hstop⟩ := h.ended hkind
  obtain ⟨before, htext, hoffset⟩ := h.start
  rw [hrest, List.append_nil] at htext
  simp [token, hstop, ← hoffset, htext]

/-! ## Failing -/

theorem close_poised : (close src c).Poised src.text :=
  ⟨Point.last_in _, Point.last_in _, Nat.le_refl _, fun hsolid => absurd rfl hsolid.1,
    fun _ => ⟨rfl, rfl⟩, fun _ => rfl⟩

theorem fail_poised :
    (c.fail src cause start stop).Poised src.text :=
  close_poised

theorem fail_error (src : Source) (c : Cursor) (cause : SyntaxError.Cause) (start stop : Nat) :
    (c.fail src cause start stop).error.isSome := by
  show (c.error.or _).isSome
  simp

theorem fail_keeps_error {e : SyntaxError} (h : c.error = some e) :
    (c.fail src cause start stop).error = some e := by
  show c.error.or _ = some e
  rw [h]
  rfl

theorem credit_fail (src : Source) (c : Cursor) (cause : SyntaxError.Cause) (start stop : Nat) :
    (c.fail src cause start stop).credit = 0 :=
  credit_of_failed fail_poised (fail_error ..)

/-! ## Moves -/

theorem Halted.credit_le (h : Halted src p c c') : c'.credit ≤ 1 := by
  obtain ⟨error, _, rfl, -⟩ := h
  show 4 * 0 + (if Kind.eof = .template then 2 else 0) + (if error.isSome then 0 else 1) ≤ 1
  rw [if_neg Kind.noConfusion]
  split <;> omega

theorem Moved.poised (h : Moved c c') (hstop : c.stop.In text) (herror : c'.error = none) :
    c'.Poised text := by
  obtain ⟨n, hstart⟩ := h.start
  obtain ⟨m, hend⟩ := h.stop
  have hin : c'.start.In text := by
    rw [hstart]
    exact Point.skip_in hstop n
  refine ⟨hin, ?_, ?_, fun hsolid => ?_, h.ended, fun hfailed => ?_⟩
  · rw [hend]
    exact Point.skip_in hin m
  · rw [hend]
    exact length_skip_le _ m
  · have hwide := h.wide hsolid
    rw [hend] at hwide ⊢
    exact length_skip_lt hwide
  · rw [herror] at hfailed
    cases hfailed

theorem Moved.length_le (h : Moved c c') : c'.start.rest.length ≤ c.stop.rest.length := by
  obtain ⟨n, hstart⟩ := h.start
  rw [hstart]
  exact length_skip_le _ n

theorem advance_halted (h : (c.advance src mode).error.isSome) :
    Halted src c.stop { c with lastEnd := c.stop } (c.advance src mode) :=
  (advance_halts src mode c).resolve_right fun hclean => Option.isSome_iff_ne_none.mp h hclean.1

theorem advance_poised (h : c.stop.In src.text) : (c.advance src mode).Poised src.text := by
  cases herror : (c.advance src mode).error with
  | none => exact (advance_moved herror).poised h herror
  | some e =>
    obtain ⟨_, _, heq, -⟩ := advance_halted (by rw [herror]; rfl)
    rw [heq]
    exact close_poised

/-- A template piece is followed by what ends it. -/
theorem length_pos_of_template (h : (c.advance src mode).kind = .template)
    (herror : (c.advance src mode).error = none) :
    0 < (c.advance src mode).start.rest.length ∧ mode = .template := by
  obtain rfl : mode = .template := by
    by_contra hmode
    exact kind_of_advance herror hmode h
  obtain ⟨m, hend⟩ := (advance_moved herror).stop
  obtain ⟨-, -, r, hr⟩ := advance_template herror
  have hlt : 0 < (c.advance src .template).stop.rest.length := by
    rcases hr with hr | hr <;> simp [hr]
  rw [hend] at hlt
  exact ⟨Nat.lt_of_lt_of_le hlt (length_skip_le _ m), rfl⟩

section

variable (h : c.Poised src.text)
include h

theorem credit_advance_lt (hlive : c.kind ≠ .eof) (hmode : mode = .template → c.kind ≠ .template) :
    (c.advance src mode).credit < c.credit := by
  have hclean := error_of_live h hlive
  have hsolid : c.kind ≠ .template → c.stop.rest.length < c.start.rest.length :=
    fun hkind => h.wide ⟨hlive, hkind⟩
  have hcredit : c.credit =
      4 * c.start.rest.length + (if c.kind = .template then 2 else 0) + 1 := by
    simp [credit, hclean]
  cases herror : (c.advance src mode).error with
  | some e =>
    have hle : (c.advance src mode).credit ≤ 1 :=
      (advance_halted (by rw [herror]; rfl)).credit_le
    by_cases hkind : c.kind = .template
    · rw [if_pos hkind] at hcredit
      omega
    · have := hsolid hkind
      omega
  | none =>
    have hle := (advance_moved herror).length_le
    have hcredit' : (c.advance src mode).credit = 4 * (c.advance src mode).start.rest.length +
        (if (c.advance src mode).kind = .template then 2 else 0) + 1 := by
      simp [credit, herror]
    by_cases hkind : c.kind = .template
    · -- in another mode no piece follows
      have hnext : (c.advance src mode).kind ≠ .template := fun hpiece =>
        hmode (length_pos_of_template hpiece herror).2 hkind
      rw [if_neg hnext] at hcredit'
      rw [if_pos hkind] at hcredit
      have := h.le
      omega
    · have hlt := hsolid hkind
      rw [if_neg hkind] at hcredit
      split at hcredit' <;> omega

theorem credit_advance_le : (c.advance src mode).credit ≤ c.credit := by
  cases hclean : c.error with
  | some e =>
    have hfailed : (c.advance src mode).error.isSome := by
      rw [advance_error hclean]
      rfl
    rw [credit_of_failed (advance_poised h.stop) hfailed]
    exact Nat.zero_le _
  | none =>
    have hpos := credit_pos hclean
    cases herror : (c.advance src mode).error with
    | some e =>
      exact Nat.le_trans (advance_halted (by rw [herror]; rfl)).credit_le hpos
    | none =>
      have hle := (advance_moved herror).length_le
      have hle' := h.le
      simp only [credit, hclean, herror, Option.isSome_none, Bool.false_eq_true, if_false]
      by_cases hpiece : (c.advance src mode).kind = .template
      · have hpos' := (length_pos_of_template hpiece herror).1
        rw [if_pos hpiece]
        by_cases hkind : c.kind = .template
        · rw [if_pos hkind]
          omega
        · -- nothing follows the end of the input, so the token before the piece has text
          have hlive : c.kind ≠ .eof := by
            intro heof
            obtain ⟨hrest, hstop⟩ := h.ended heof
            rw [hstop, hrest, List.length_nil] at hle
            omega
          have := h.wide ⟨hlive, hkind⟩
          rw [if_neg hkind]
          omega
      · rw [if_neg hpiece]
        split <;> omega

/-- Between tags the end of the input is an error. -/
theorem credit_advance_child_lt (hclean : c.error = none) :
    (c.advance src .child).credit < c.credit := by
  by_cases heof : c.kind = .eof
  · obtain ⟨hrest, hstop⟩ := h.ended heof
    have hfail : (c.advance src .child).error.isSome := by
      rw [advance_eq src .child hclean]
      dsimp only
      unfold readChild
      rw [hstop, hrest]
      exact fail_error ..
    rw [credit_of_failed (advance_poised h.stop) hfail]
    exact credit_pos hclean
  · exact credit_advance_lt h heof nofun

/-! ## Reading again -/

/-- The current token is taken for another one, or an error is found at it. -/
structure Turned (text : List Char) (c c' : Cursor) : Prop where
  poised : c'.Poised text
  raises : c.Raises text c'
  same : c'.error = c.error ∧ c'.credit = c.credit ∨ c.error = none ∧ c'.error.isSome

theorem fail_turned (hstart : Text.Place src.text start) (hstop : Text.Place src.text stop) :
    Turned src.text c (c.fail src cause start stop) := by
  refine ⟨fail_poised, raise_raises (Span.fits_of_places hstart hstop), ?_⟩
  cases herror : c.error with
  | none => exact .inr ⟨rfl, fail_error ..⟩
  | some e =>
    rw [credit_fail, credit_of_failed h (by rw [herror]; rfl)]
    exact .inl ⟨fail_keeps_error herror, rfl⟩

end

/-- A token with text may be taken for another that starts there. -/
theorem turned_of_solid {kind : Kind} (keyword : Option Contextual) {stop : Point}
    (h : c.Poised text) (hsolid : c.kind.Solid) (hsolid' : kind.Solid) (hstop : stop.In text)
    (hlt : stop.rest.length < c.start.rest.length) :
    Turned text c { c with kind, keyword, stop } := by
  have hclean := error_of_live h hsolid.1
  refine ⟨⟨h.start, hstop, Nat.le_of_lt hlt, fun _ => hlt, fun heof => absurd heof hsolid'.1,
    fun hfailed => ?_⟩, raises_of_eq rfl rfl, .inl ⟨rfl, ?_⟩⟩
  · rw [hclean] at hfailed
    cases hfailed
  · simp only [credit, if_neg hsolid.2, if_neg hsolid'.2]

theorem kind_turned {kind : Kind} (h : c.Poised text) (hsolid : c.kind.Solid)
    (hsolid' : kind.Solid) : Turned text c { c with kind } :=
  turned_of_solid c.keyword h hsolid hsolid' h.stop (h.wide hsolid)

theorem rest_of_afterByte? {q : Point} (h : p.afterByte? = some q) : p.rest ≠ [] := by
  unfold Point.afterByte? at h
  split at h
  · rename_i hrest
    rw [hrest]
    exact List.cons_ne_nil _ _
  · cases h

theorem splitShift?_turned (hread : c.splitShift? = some c') (hsolid : c.kind.Solid)
    (h : c.Poised text) : Turned text c c' := by
  obtain ⟨stop, hstop, rfl⟩ := Option.map_eq_some_iff.mp hread
  have hlt := length_skip_lt (offset_lt_skip (rest_of_afterByte? hstop) Nat.one_pos)
  obtain rfl := afterByte?_eq hstop
  exact turned_of_solid c.keyword h hsolid ⟨Kind.noConfusion, Kind.noConfusion⟩
    (Point.skip_in h.start 1) hlt

theorem asRegex?_turned (hread : c.asRegex? src = some c') (hsolid : c.kind.Solid)
    (h : c.Poised src.text) : Turned src.text c c' := by
  cases herror : c'.error with
  | none =>
    have hrest : c.start.rest ≠ [] := by
      obtain ⟨body, hbody, -⟩ := Option.map_eq_some_iff.mp hread
      exact rest_of_afterByte? hbody
    obtain ⟨n, hn, rfl⟩ := asRegex_eq hread herror
    exact turned_of_solid none h hsolid ⟨Kind.noConfusion, Kind.noConfusion⟩
      (Point.skip_in h.start n) (length_skip_lt (offset_lt_skip hrest hn))
  | some e =>
    obtain ⟨body, hbody, rfl⟩ := Option.map_eq_some_iff.mp hread
    obtain rfl := afterByte?_eq hbody
    dsimp only at herror ⊢
    split at herror
    · have hfailed : c.error = some e := herror
      rw [error_of_live h hsolid.1] at hfailed
      cases hfailed
    · rename_i hopen
      rw [if_neg hopen]
      exact fail_turned h h.start.place (Point.skip_in (Point.skip_in h.start _) _).place

end Downlevel.Cursor
