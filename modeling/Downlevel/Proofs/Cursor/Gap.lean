import Downlevel.Proofs.Cursor.Advance

/-!
# What stands in a gap

Between two tokens of code or of a tag stands what the reader goes over: blanks and whole comments,
and a first line that begins with `#!`. `Skippable` says so of a text without reading it, and
`scan_skippable` that the reader goes over nothing else. A template piece and the text between tags
begin right after the token before them.
-/

namespace Downlevel

variable {cs text : List Char} {p : Text.Point} {ended : Prop} {n : Nat}

namespace Gap

/-- A text of blanks and whole comments. A line comment ends with its line or, where `ended` holds,
with the text; a block comment ends with the first `*/`. -/
inductive Skippable (ended : Prop) : List Char → Prop where
  | nil : Skippable ended []
  | space {c : Char} {cs : List Char} (hc : isSpace c = true) (hcs : Skippable ended cs) :
      Skippable ended (c :: cs)
  | line {body : List Char} {c : Char} {cs : List Char}
      (hbody : ∀ d ∈ body, Text.isLineEnd d = false)
      (hc : Text.isLineEnd c = true) (hcs : Skippable ended cs) :
      Skippable ended ('/' :: '/' :: (body ++ c :: cs))
  | lastLine {body : List Char} (hbody : ∀ d ∈ body, Text.isLineEnd d = false) (hended : ended) :
      Skippable ended ('/' :: '/' :: body)
  | block {body cs : List Char} (hbody : ¬ ['*', '/'] <:+: body) (hcs : Skippable ended cs) :
      Skippable ended ('/' :: '*' :: (body ++ '*' :: '/' :: cs))

/-- The rest of a line comment and what follows its line. -/
def LineRest (ended : Prop) (cs : List Char) : Prop :=
  ∃ body, (∀ d ∈ body, Text.isLineEnd d = false) ∧
    (cs = body ∧ ended ∨
      ∃ c rest, cs = body ++ c :: rest ∧ Text.isLineEnd c = true ∧ Skippable ended rest)

/-- A text whose first line begins with `#!`, and is no code. -/
def Hashbang (ended : Prop) (cs : List Char) : Prop :=
  ∃ rest, cs = '#' :: '!' :: rest ∧ LineRest ended rest

/-- The rest of a block comment and what follows it. -/
def BlockRest (ended : Prop) (cs : List Char) : Prop :=
  ∃ body rest, cs = body ++ '*' :: '/' :: rest ∧ ¬ ['*', '/'] <:+: body ∧ Skippable ended rest

/-- What a gap goes on with, by where the reader stands. -/
def Place.Rest (ended : Prop) : Place → List Char → Prop
  | .between => Skippable ended
  | .lineComment => LineRest ended
  | .blockComment _ => BlockRest ended

theorem LineRest.skippable (h : LineRest ended cs) :
    Skippable ended ('/' :: '/' :: cs) := by
  obtain ⟨body, hbody, ⟨rfl, hended⟩ | ⟨c, rest, rfl, hc, hrest⟩⟩ := h
  · exact .lastLine hbody hended
  · exact .line hbody hc hrest

theorem BlockRest.skippable (h : BlockRest ended cs) :
    Skippable ended ('/' :: '*' :: cs) := by
  obtain ⟨body, rest, rfl, hbody, hrest⟩ := h
  exact .block hbody hrest

theorem LineRest.cons {c : Char} (h : LineRest ended cs) (hc : Text.isLineEnd c = false) :
    LineRest ended (c :: cs) := by
  obtain ⟨body, hbody, hrest⟩ := h
  refine ⟨c :: body, List.forall_mem_cons.mpr ⟨hc, hbody⟩, ?_⟩
  rcases hrest with ⟨rfl, hended⟩ | ⟨d, rest, rfl, hd, hrest⟩
  · exact .inl ⟨rfl, hended⟩
  · exact .inr ⟨d, rest, rfl, hd, hrest⟩

/-- A character before the end of a block comment belongs to it, unless the comment ends there. -/
theorem BlockRest.cons {c : Char} (h : BlockRest ended cs)
    (hc : ∀ rest, ¬ (c = '*' ∧ cs = '/' :: rest)) : BlockRest ended (c :: cs) := by
  obtain ⟨body, rest, rfl, hbody, hrest⟩ := h
  refine ⟨c :: body, rest, rfl, ?_, hrest⟩
  rw [List.infix_cons_iff]
  rintro (hstart | hin)
  · obtain ⟨rfl, tail, htail⟩ : c = '*' ∧ ∃ tail, body = '/' :: tail := by
      obtain ⟨tail, htail⟩ := hstart
      cases htail
      exact ⟨rfl, tail, rfl⟩
    exact hc _ ⟨rfl, by rw [htail]; rfl⟩
  · exact hbody hin

/-- A comment that is never closed is open where it starts. -/
theorem openComment_of_scan {place : Place} {m : Nat} (h : scan place n cs = .openComment m)
    (hcs : text.drop n = cs)
    (hplace : ∀ start, place = .blockComment start → ['/', '*'] <+: text.drop start) :
    ['/', '*'] <+: text.drop m := by
  have hdrop : ∀ {n : Nat} {cs : List Char} (taken : List Char), text.drop n = taken ++ cs →
      text.drop (n + taken.length) = cs := by
    intro n cs taken hcs
    rw [← List.drop_drop, hcs, List.drop_left]
  fun_induction scan place n cs with
  | case1 n cs ih => exact ih h (hdrop ['/', '/'] hcs) nofun
  | case2 n cs ih =>
    refine ih h (hdrop ['/', '*'] hcs) ?_
    rintro _ ⟨⟩
    exact ⟨cs, hcs.symm⟩
  | case3 n c cs _ _ _ ih => exact ih h (hdrop [c] hcs) nofun
  | case4 => cases h
  | case5 n c cs ih =>
    refine ih h (hdrop [c] hcs) fun start hstart => ?_
    split at hstart <;> cases hstart
  | case6 start n cs ih => exact ih h (hdrop ['*', '/'] hcs) nofun
  | case7 start n c cs _ ih => exact ih h (hdrop [c] hcs) hplace
  | case8 start =>
    cases h
    exact hplace _ rfl
  | case9 => cases h

theorem openComment_of_at? (h : at? p = .openComment n) :
    ['/', '*'] <+: (p.skip n).rest := by
  unfold at? at h
  split at h
  · rename_i hrest
    exact openComment_of_scan h (by rw [hrest]; rfl) nofun
  · exact openComment_of_scan h rfl nofun

/-- The reader goes over blanks and whole comments. -/
theorem scan_skippable {place : Place} {m : Nat} (h : scan place n cs = .ends m) :
    ∃ gap rest, cs = gap ++ rest ∧ m = n + gap.length ∧ place.Rest (rest = []) gap := by
  fun_induction scan place n cs with
  | case1 n cs ih =>
    obtain ⟨gap, rest, rfl, rfl, hgap⟩ := ih h
    exact ⟨'/' :: '/' :: gap, rest, rfl, by simp; omega, LineRest.skippable hgap⟩
  | case2 n cs ih =>
    obtain ⟨gap, rest, rfl, rfl, hgap⟩ := ih h
    exact ⟨'/' :: '*' :: gap, rest, rfl, by simp; omega, BlockRest.skippable hgap⟩
  | case3 n c cs _ _ hspace ih =>
    obtain ⟨gap, rest, rfl, rfl, hgap⟩ := ih h
    exact ⟨c :: gap, rest, rfl, by simp; omega, .space hspace hgap⟩
  | case4 n c cs _ _ _ =>
    cases h
    exact ⟨[], c :: cs, rfl, rfl, .nil⟩
  | case5 n c cs ih =>
    obtain ⟨gap, rest, rfl, rfl, hgap⟩ := ih h
    refine ⟨c :: gap, rest, rfl, by simp; omega, ?_⟩
    split at hgap
    · rename_i hc
      exact ⟨[], by simp, .inr ⟨c, gap, rfl, hc, hgap⟩⟩
    · rename_i hc
      exact LineRest.cons hgap (Bool.not_eq_true _ ▸ hc)
  | case6 start n cs ih =>
    obtain ⟨gap, rest, rfl, rfl, hgap⟩ := ih h
    exact ⟨'*' :: '/' :: gap, rest, rfl, by simp; omega, [], gap, rfl, by simp, hgap⟩
  | case7 start n c cs hopen ih =>
    obtain ⟨gap, rest, rfl, rfl, hgap⟩ := ih h
    refine ⟨c :: gap, rest, rfl, by simp; omega, BlockRest.cons hgap ?_⟩
    rintro tail ⟨hc, rfl⟩
    exact hopen _ hc rfl
  | case8 start n => cases h
  | case9 place n hplace =>
    cases h
    refine ⟨[], [], rfl, rfl, ?_⟩
    cases place with
    | between => exact .nil
    | lineComment => exact ⟨[], by simp, .inl ⟨rfl, rfl⟩⟩
    | blockComment start => exact absurd rfl (hplace start)

theorem at?_skippable (h : at? p = .ends n) :
    ∃ gap rest, p.rest = gap ++ rest ∧ n = gap.length ∧
      (Skippable (rest = []) gap ∨ p.offset = 0 ∧ Hashbang (rest = []) gap) := by
  unfold at? at h
  split at h
  · rename_i cs hoffset hrest
    obtain ⟨gap, rest, rfl, rfl, hgap⟩ := scan_skippable h
    exact ⟨'#' :: '!' :: gap, rest, hrest, by simp; omega, .inr ⟨hoffset, gap, rfl, hgap⟩⟩
  · obtain ⟨gap, rest, hrest, hn, hgap⟩ := scan_skippable h
    exact ⟨gap, rest, hrest, by omega, .inl hgap⟩

/-! ## Gaps of a text -/

theorem Skippable.mono {p q : Prop} (hpq : p → q) (h : Skippable p cs) :
    Skippable q cs := by
  induction h with
  | nil => exact .nil
  | space hc _ ih => exact .space hc ih
  | line hbody hc _ ih => exact .line hbody hc ih
  | lastLine hbody hp => exact .lastLine hbody (hpq hp)
  | block hbody _ ih => exact .block hbody ih

theorem Hashbang.mono {p q : Prop} (hpq : p → q) (h : Hashbang p cs) :
    Hashbang q cs := by
  obtain ⟨rest, hcs, body, hbody, hrest⟩ := h
  refine ⟨rest, hcs, body, hbody, ?_⟩
  rcases hrest with ⟨hrest, hp⟩ | ⟨c, tail, hrest, hc, htail⟩
  · exact .inl ⟨hrest, hpq hp⟩
  · exact .inr ⟨c, tail, hrest, hc, htail.mono hpq⟩

/-- Between the offsets `a` and `b` stands what the reader goes over: blanks and whole comments or,
at the beginning of the text, also a line that begins with `#!`. -/
def Fills (text : List Char) (a b : Nat) : Prop :=
  ∃ gap, Text.slice? a b text = some gap ∧
    (Skippable (b = Text.size text) gap ∨ a = 0 ∧ Hashbang (b = Text.size text) gap)

theorem Fills.le {a b : Nat} (h : Fills text a b) : a ≤ b := by
  obtain ⟨gap, hslice, -⟩ := h
  by_contra hlt
  simp [Text.slice?, hlt] at hslice

theorem fills_of_at? (hp : p.In text) (h : at? p = .ends n) :
    Fills text p.offset (p.skip n).offset := by
  obtain ⟨gap, rest, hrest, rfl, hgap⟩ := at?_skippable h
  obtain ⟨before, rfl, hsize⟩ := hp
  have hoffset : (p.skip gap.length).offset = Text.size before + Text.size gap := by
    rw [Text.Point.skip, hrest, List.take_left, hsize]
  have hended : rest = [] → (p.skip gap.length).offset = Text.size (before ++ p.rest) := by
    rintro rfl
    rw [hoffset, hrest, List.append_nil, Text.size_append]
  refine ⟨gap, ?_, hgap.imp (·.mono hended) (.imp_right (·.mono hended))⟩
  rw [hoffset, ← hsize, hrest]
  exact Text.slice?_append before gap rest

theorem fills_self (hp : p.In text) :
    Fills text p.offset p.offset := by
  obtain ⟨before, rfl, hsize⟩ := hp
  refine ⟨[], ?_, .inl .nil⟩
  rw [← hsize]
  exact Text.slice?_append before [] p.rest

end Gap

/-- A move that finds no error goes over a gap, if over anything. -/
theorem Cursor.advance_fills {src : Source} {mode : Mode} {c : Cursor} (hin : c.stop.In src.text)
    (h : (c.advance src mode).error = none) :
    Gap.Fills src.text c.stop.offset (c.advance src mode).start.offset := by
  obtain ⟨n, hn, h, heq⟩ := advance_reads h
  rw [heq, (readIn_settled h).start]
  rcases hn with rfl | hn
  · exact Gap.fills_self hin
  · exact Gap.fills_of_at? hin hn

end Downlevel
