import Downlevel.Proofs.Cursor.Gap

/-!
# Where the cursor stands

A cursor holds three points of its text: the end of the token before, the start of the current token
and its stop. Every move keeps them between characters, whether or not it finds an error (`Placed`),
so that the text can be cut there: to look for a line end before the current token, and to read the
token again from its second byte on. An error that is raised has both of its ends there too, and it
becomes the error of the cursor only if it is the first one (`Raises`).
-/

namespace Downlevel.Cursor

open Text (Place Point)

/-- The points of the cursor belong to the text, and its token begins as its kind says. -/
structure Placed (text : List Char) (c : Cursor) : Prop where
  lastEnd : c.lastEnd.In text
  start : c.start.In text
  stop : c.stop.In text
  headed : ∀ ch, c.kind.initial = some ch → c.start.rest.head? = some ch

/-- From `c` to `c'` errors in the text were raised and none was undone. The first one counts. -/
def Raises (text : List Char) (c c' : Cursor) : Prop :=
  ∃ errors, c'.raised = c.raised ++ errors ∧ c'.error = c.error.or errors.head? ∧
    ∀ e ∈ errors, e.span.Fits text

variable {src : Source} {text : List Char} {c c' : Cursor} {p : Point} {cause : SyntaxError.Cause}
  {ch : Char} {mode : Mode}

/-! ## Moves -/

theorem close_placed (h : c.lastEnd.In src.text) : (close src c).Placed src.text :=
  ⟨h, Point.last_in _, Point.last_in _, nofun⟩

theorem raises_of_eq (hraised : c'.raised = c.raised) (herror : c'.error = c.error) :
    c.Raises text c' :=
  ⟨[], by simp [hraised], by simp [herror], by simp⟩

theorem Raises.trans {c'' : Cursor} (h : c.Raises text c') (h' : c'.Raises text c'') :
    c.Raises text c'' := by
  obtain ⟨errors, hraised, herror, hfits⟩ := h
  obtain ⟨more, hraised', herror', hfits'⟩ := h'
  refine ⟨errors ++ more, ?_, ?_, List.forall_mem_append.mpr ⟨hfits, hfits'⟩⟩
  · rw [hraised', hraised, List.append_assoc]
  · rw [herror', herror, List.head?_append, Option.or_assoc]

theorem raise_raises {e : SyntaxError} (he : e.span.Fits text) : c.Raises text (c.raise src e) :=
  ⟨[e], rfl, rfl, List.forall_mem_singleton.mpr he⟩

/-- No error was raised on the way from `c` to `c'`, and there is none. -/
def Unfailing (c c' : Cursor) : Prop := c'.error = none ∧ c'.raised = c.raised

/-- The cursor `c'` has gone to the end of the input, from `c`. An error that was raised on the way
lies in the text, if `p` does. -/
def Halted (src : Source) (p : Point) (c c' : Cursor) : Prop :=
  ∃ error raised, c' = close src { c with error, raised } ∧
    (p.In src.text → c.Raises src.text c')

theorem Halted.placed (h : Halted src p c c') (hlast : c.lastEnd.In src.text) :
    c'.Placed src.text := by
  obtain ⟨error, raised, rfl, -⟩ := h
  exact close_placed hlast

/-- At the end of the input it is forgotten where the token would have begun. -/
theorem Halted.restarted {start : Point} (hstart : p.In src.text → start.In src.text)
    (h : Halted src start { c with start } c') : Halted src p c c' := by
  obtain ⟨error, raised, rfl, hraises⟩ := h
  exact ⟨error, raised, rfl, fun hp => hraises (hstart hp)⟩

theorem fail_halted {start stop : Nat} (hstart : p.In src.text → Place src.text start)
    (hstop : p.In src.text → Place src.text stop) :
    Halted src p c (c.fail src cause start stop) :=
  ⟨_, _, rfl, fun hp => raise_raises (Span.fits_of_places (hstart hp) (hstop hp))⟩

/-- Where a character was found, there is a place after it. -/
theorem place_after {rest : List Char} (hrest : p.rest = ch :: rest) (hp : p.In text) :
    Place text (p.offset + ch.utf8Size) := by
  have hplace := (Point.skip_in hp 1).place
  simpa [Point.skip, hrest] using hplace

section

variable (h : c.error = none)
include h

theorem readCode_cases : Halted src c.start c (readCode src c) ∨ Unfailing c (readCode src c) := by
  unfold readCode
  split
  · exact .inr ⟨h, rfl⟩
  · rename_i hrest
    split
    · exact .inl (fail_halted (·.place) (place_after hrest))
    · exact .inl (fail_halted (·.place) fun hp => (Point.skip_in hp _).place)
    · exact .inr ⟨h, rfl⟩

theorem readTag_cases : Halted src c.start c (readTag src c) ∨ Unfailing c (readTag src c) := by
  unfold readTag
  split
  · exact .inr ⟨h, rfl⟩
  · rename_i hrest
    split
    · exact .inr ⟨h, rfl⟩
    · split
      · split
        · exact .inr ⟨h, rfl⟩
        · exact .inl (fail_halted (·.place) fun _ => .end _)
      · split
        · exact .inr ⟨h, rfl⟩
        · exact .inl (fail_halted (·.place) (place_after hrest))

theorem readTemplate_cases :
    Halted src c.start c (readTemplate src c) ∨ Unfailing c (readTemplate src c) := by
  unfold readTemplate
  split
  · exact .inr ⟨h, rfl⟩
  · exact .inl (fail_halted (·.place) fun _ => .end _)

theorem readChild_cases :
    Halted src c.start c (readChild src c) ∨ Unfailing c (readChild src c) := by
  unfold readChild
  split
  · exact .inl (fail_halted (·.place) (·.place))
  all_goals exact .inr ⟨h, rfl⟩

end

theorem afterGap_halts {read : Cursor → Cursor}
    (h : ∀ start, Halted src start { c with start } (read { c with start }) ∨
      Unfailing c (read { c with start })) :
    Halted src c.stop c (c.afterGap src read) ∨ Unfailing c (c.afterGap src read) := by
  unfold afterGap
  split
  · rename_i n hopen
    obtain ⟨rest, hrest⟩ := Gap.openComment_of_at? hopen
    refine .inl (fail_halted (fun hp => (Point.skip_in hp n).place) fun hp => ?_)
    have hplace := (Point.skip_in (Point.skip_in hp n) 2).place
    rwa [Point.skip, ← hrest] at hplace
  · exact (h _).imp_left (.restarted fun hp => Point.skip_in hp _)

theorem advance_halts (src : Source) (mode : Mode) (c : Cursor) :
    Halted src c.stop { c with lastEnd := c.stop } (c.advance src mode) ∨
      Unfailing c (c.advance src mode) := by
  rcases Option.eq_none_or_eq_some c.error with herror | ⟨e, herror⟩
  · rw [advance_eq src mode herror]
    cases mode with
    | code => exact afterGap_halts fun _ => readCode_cases herror
    | tag => exact afterGap_halts fun _ => readTag_cases herror
    | template => exact Or.imp_left (.restarted id) (readTemplate_cases herror)
    | child => exact Or.imp_left (.restarted id) (readChild_cases herror)
  · have hclosed : c.advance src mode = close src { c with lastEnd := c.stop } := by
      unfold advance scan
      exact if_pos (by simp [herror])
    exact .inl ⟨c.error, c.raised, hclosed, fun _ => hclosed ▸ raises_of_eq rfl rfl⟩

theorem advance_error {e : SyntaxError} (h : c.error = some e) :
    (c.advance src mode).error = some e := by
  unfold advance scan
  rw [if_pos (by simp [h])]
  exact h

theorem advance_raises (hstop : c.stop.In src.text) :
    c.Raises src.text (c.advance src mode) := by
  rcases advance_halts src mode c with ⟨_, _, -, hraises⟩ | ⟨hclean, hraised⟩
  · exact hraises hstop
  · refine raises_of_eq hraised ?_
    cases herror : c.error with
    | none => exact hclean
    | some e => exact advance_error herror

/-- A move ends at the next token or, with an error, at the end of the input. -/
theorem advance_cases (src : Source) (mode : Mode) (c : Cursor) :
    Halted src c.stop { c with lastEnd := c.stop } (c.advance src mode) ∨
      Moved c (c.advance src mode) :=
  (advance_halts src mode c).imp_right fun h => advance_moved h.1

theorem advance_placed (h : c.Placed src.text) :
    (c.advance src mode).Placed src.text := by
  rcases advance_cases src mode c with hhalted | hmoved
  · exact hhalted.placed h.stop
  · obtain ⟨n, hstart⟩ := hmoved.start
    obtain ⟨m, hstop⟩ := hmoved.stop
    have hin : (c.advance src mode).start.In src.text := by
      rw [hstart]
      exact Point.skip_in h.stop n
    refine ⟨?_, hin, ?_, hmoved.headed⟩
    · rw [hmoved.lastEnd]
      exact h.stop
    · rw [hstop]
      exact Point.skip_in hin m

theorem advance_depth (src : Source) (mode : Mode) (c : Cursor) :
    (c.advance src mode).depth = c.depth := by
  rcases advance_cases src mode c with ⟨_, _, heq, -⟩ | hmoved
  · rw [heq]
    rfl
  · exact hmoved.depth

theorem fail_placed {start stop : Nat} (h : c.Placed src.text) :
    (c.fail src cause start stop).Placed src.text :=
  close_placed h.lastEnd

theorem before_placed (text : List Char) : (before text).Placed text :=
  ⟨Point.first_in _, Point.first_in _, Point.first_in _, nofun⟩

/-! ## Cuts -/

theorem between?_isSome {p q : Point} (hp : p.In text) (hq : q.In text) :
    ∃ cs, p.between? q = some cs := by
  unfold Point.between?
  by_cases hle : p.offset ≤ q.offset
  · obtain ⟨before, htext, hsize⟩ := hp
    obtain ⟨before', htext', hsize'⟩ := hq
    obtain ⟨mid, rfl, hrest⟩ := Text.prefix_of_size_le (htext.symm.trans htext') (by omega)
    have hmid : q.offset - p.offset = Text.size mid := by
      rw [← hsize, ← hsize', Text.size_append, Nat.add_sub_cancel_left]
    exact ⟨mid, by rw [hmid, hrest, Text.take?_size_append]⟩
  · rw [Nat.sub_eq_zero_of_le (by omega)]
    exact ⟨[], by cases p.rest <;> rfl⟩

theorem lineBreakBefore?_isSome (h : c.Placed text) : ∃ b, c.lineBreakBefore? = some b := by
  obtain ⟨cs, hcs⟩ := between?_isSome h.lastEnd h.start
  exact ⟨_, by rw [lineBreakBefore?, hcs, Option.map_some]⟩

theorem afterByte?_of_head {p : Point} (h : p.rest.head? = some ch) (hsize : ch.utf8Size = 1) :
    p.afterByte? = some (p.skip 1) := by
  obtain ⟨rest, hrest⟩ := List.head?_eq_some_iff.mp h
  simp [Point.afterByte?, hrest, hsize]

theorem head?_of_text (h : c.text.head? = some ch) :
    c.start.rest.head? = some ch := by
  rw [text, Point.upTo] at h
  cases hsize : c.stop.offset - c.start.offset with
  | zero => simp [hsize, Text.upto] at h
  | succ n =>
    cases hrest : c.start.rest with
    | nil => simp [hrest, hsize, Text.upto] at h
    | cons d ds => simpa [hrest, hsize, Text.upto] using h

theorem asRegex?_of_head (h : c.start.rest.head? = some '/') : ∃ c', c.asRegex? src = some c' := by
  rw [asRegex?, afterByte?_of_head h (by decide)]
  exact ⟨_, rfl⟩

theorem splitShift?_of_kind (h : c.Placed text) (hkind : c.kind = .shiftL) :
    ∃ c', c.splitShift? = some c' := by
  have hhead := h.headed '<' (by rw [hkind]; rfl)
  rw [splitShift?, afterByte?_of_head hhead (by decide)]
  exact ⟨_, rfl⟩

theorem asRegex?_placed (hread : c.asRegex? src = some c') :
    c'.depth = c.depth ∧ (c.Placed src.text → c'.Placed src.text) := by
  obtain ⟨body, hbody, rfl⟩ := Option.map_eq_some_iff.mp hread
  obtain rfl := afterByte?_eq hbody
  dsimp only
  split
  · exact ⟨rfl, fun h => ⟨h.lastEnd, h.start,
      Point.skip_in (Point.skip_in (Point.skip_in h.start _) _) _, nofun⟩⟩
  · exact ⟨rfl, fail_placed⟩

theorem splitShift?_placed (hread : c.splitShift? = some c') :
    c'.depth = c.depth ∧ (c.Placed text → c'.Placed text) := by
  obtain ⟨stop, hstop, rfl⟩ := Option.map_eq_some_iff.mp hread
  obtain rfl := afterByte?_eq hstop
  exact ⟨rfl, fun h => ⟨h.lastEnd, h.start, Point.skip_in h.start _, nofun⟩⟩

end Downlevel.Cursor
