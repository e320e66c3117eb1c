import Downlevel.Proofs.Grammar.Tiling

/-!
# What tokens spell

The text of each token of a snippet fits its kind (`parse_spells`): what the cursor comes to does,
and what is read again still does. The value of an attribute is read in the tag, so that a string
there ends with the first quote like the one that opens it (`parse_quotes`). Outside of tags, a
string is a literal (`parse_isString`).
-/

namespace Downlevel

variable {i : Nat} {tokens : Array Token}

namespace Grammar

open State

/-- The texts of all tokens and of the current one fit their kinds. -/
structure Spelled (text : List Char) (s : State) : Prop where
  tokens : ∀ (i : Nat) (t : Token), s.tokens[i]? = some t → t.kind.Spells (t.text text)
  cursor : s.cursor.Lexed
  start : s.cursor.start.In text

variable {ctx : Context} {text : List Char} {s t : State}

/-- The text of the current token is what the cursor has read. -/
theorem text_token {c : Cursor} {n : Nat} (hin : c.start.In text)
    (hstop : c.stop = c.start.skip n) :
    c.token.text text = c.start.rest.take n := by
  obtain ⟨before, htext, hsize⟩ := hin
  rw [Token.text, Span.text_eq_between]
  show Text.between text c.start.offset c.stop.offset = _
  rw [hstop, htext, ← hsize, Text.Point.skip, ← hsize]
  have hsplit := Text.between_of_split before (c.start.rest.take n) (c.start.rest.drop n)
  rwa [List.take_append_drop] at hsplit

namespace Spelled

section

variable (h : Spelled text s)
include h

theorem taken : ∀ (i : Nat) (t : Token), s.taken[i]? = some t → t.kind.Spells (t.text text) := by
  intro i t ht
  rcases Tiled.getElem?_push_cases ht with ⟨ht, -⟩ | ⟨-, rfl⟩
  · exact h.tokens i t ht
  · obtain ⟨n, hstop, hspells⟩ := h.cursor
    rw [text_token h.start hstop]
    exact hspells

theorem took (hin : s.cursor.stop.In text) {mode : Mode}
    (hclean : (s.took ctx mode).Clean) : Spelled text (s.took ctx mode) := by
  refine ⟨h.taken, Cursor.advance_lexed hclean, ?_⟩
  obtain ⟨n, hstart⟩ := (Cursor.advance_moved hclean).start
  rw [took_cursor, hstart]
  exact Text.Point.skip_in hin n

theorem stop : s.cursor.stop.In text := by
  obtain ⟨n, hstop, -⟩ := h.cursor
  rw [hstop]
  exact Text.Point.skip_in h.start n

theorem recast (hrecast : Recast s.tokens tokens) : Spelled text { s with tokens } := by
  refine ⟨fun i t ht => ?_, h.cursor, h.start⟩
  obtain ⟨u, hu, hkind, hspan⟩ := hrecast.get ht
  rw [hkind, Token.text, hspan]
  exact h.tokens i u hu

end

end Spelled

theorem Run.spelled (h : Run ctx s t) (hs : Spelled ctx.source.text s) :
    Spelled ctx.source.text t := by
  induction h with
  | refl s => exact hs
  | trans _ _ ih₁ ih₂ => exact ih₂ (ih₁ hs)
  | take _ hclean => exact hs.took hs.stop hclean
  | piece _ _ _ hclean =>
    have hclean₂ := Cursor.error_of_advance hclean
    have hclean₁ := Cursor.error_of_advance hclean₂
    have h₁ := hs.took hs.stop hclean₁
    have h₂ := h₁.took h₁.stop hclean₂
    exact h₂.took h₂.stop hclean
  | reread hc _ _ =>
    refine ⟨hs.tokens, hc.lexed hs.cursor, ?_⟩
    rw [hc.start]
    exact hs.start
  | typing _ _ _ ih =>
    obtain ⟨htokens, hcursor, hstart⟩ := ih ⟨hs.tokens, hs.cursor, hs.start⟩
    exact ⟨htokens, hcursor, hstart⟩
  | scope _ _ ih =>
    obtain ⟨htokens, hcursor, hstart⟩ := ih ⟨hs.tokens, hs.cursor, hs.start⟩
    exact ⟨htokens, hcursor, hstart⟩
  | note hf => exact hs.recast (recast_noting _ _ hf.harmless)
  | mark _ _ => exact hs.recast (recast_marking _ _)

/-! ## Strings -/

theorem at_of_push {t : Token} {k : Kind} (h : Token.At (tokens.push t) i k) :
    Token.At tokens i k ∨ i = tokens.size ∧ t.kind = k := by
  obtain ⟨u, hu, hkind⟩ := h
  rcases Tiled.getElem?_push_cases hu with ⟨hu, -⟩ | ⟨hi, rfl⟩
  · exact .inl ⟨u, hu, hkind⟩
  · exact .inr ⟨hi, hkind⟩

/-- How strings are read: where `before` says so of the tokens before an index, what `holds` says of
the texts is true. -/
structure Reading where
  before : Array Token → Nat → Prop
  holds : List Char → Prop

/-- What is before an index depends on the kinds there, and tokens are read as it says. -/
structure Reading.Kept (r : Reading) : Prop where
  push : ∀ {tokens t i}, r.before (tokens.push t) i → i ≤ tokens.size → r.before tokens i
  recast : ∀ {tokens tokens' i}, Recast tokens tokens' → r.before tokens' i → r.before tokens i
  took : ∀ {ctx} {s : State} {mode}, s.Passable mode → (s.took ctx mode).Clean →
    r.before s.taken s.taken.size → (s.took ctx mode).cursor.Strung r.holds

/-- All strings are read as they should be, the current one too. -/
structure Strung (r : Reading) (text : List Char) (s : State) : Prop where
  tokens : ∀ i t, r.before s.tokens i → s.tokens[i]? = some t → t.kind = .string →
    r.holds (t.text text)
  cursor : r.before s.tokens s.tokens.size → s.cursor.Strung r.holds

namespace Strung

variable {r : Reading} (hr : r.Kept)

include hr

theorem taken (h : Strung r text s) (hs : Spelled text s) (i : Nat) (t : Token)
    (hbefore : r.before s.taken i) (ht : s.taken[i]? = some t) (hstring : t.kind = .string) :
    r.holds (t.text text) := by
  rcases Tiled.getElem?_push_cases ht with ⟨ht, hlt⟩ | ⟨rfl, rfl⟩
  · exact h.tokens i t (hr.push hbefore (by omega)) ht hstring
  · obtain ⟨n, hstop, hholds⟩ := h.cursor (hr.push hbefore (Nat.le_refl _)) hstring
    rwa [text_token hs.start hstop]

theorem took (h : Strung r text s) (hs : Spelled text s) {mode : Mode} (hpass : s.Passable mode)
    (hclean : (s.took ctx mode).Clean) : Strung r text (s.took ctx mode) :=
  ⟨h.taken hr hs, hr.took hpass hclean⟩

theorem recast (h : Strung r text s) (hrecast : Recast s.tokens tokens) :
    Strung r text { s with tokens } := by
  refine ⟨fun i t hbefore ht hstring => ?_, fun hbefore => h.cursor (hr.recast hrecast ?_)⟩
  · obtain ⟨u, hu, hkind, hspan⟩ := hrecast.get ht
    rw [Token.text, hspan]
    exact h.tokens i u (hr.recast hrecast hbefore) hu (hkind.symm.trans hstring)
  · rwa [← hrecast.size]

end Strung

theorem Run.strung {r : Reading} (hr : r.Kept) (h : Run ctx s t)
    (hspelled : Spelled ctx.source.text s) (hs : Strung r ctx.source.text s) :
    Strung r ctx.source.text t := by
  induction h with
  | refl s => exact hs
  | trans h₁ _ ih₁ ih₂ => exact ih₂ (h₁.spelled hspelled) (ih₁ hspelled hs)
  | take hpass hclean => exact hs.took hr hspelled hpass hclean
  | @piece s _ _ hend hclean =>
    have hclean₂ := Cursor.error_of_advance hclean
    have hclean₁ := Cursor.error_of_advance hclean₂
    have hspelled₁ := hspelled.took hspelled.stop hclean₁
    have hspelled₂ := hspelled₁.took hspelled₁.stop hclean₂
    have hkind := (Cursor.advance_template hclean₁).1
    have hfirst : Strung r ctx.source.text (s.took ctx .template) :=
      ⟨hs.taken hr hspelled, fun _ hstring => by cases hkind.symm.trans hstring⟩
    refine (hfirst.took hr hspelled₁ (.of_kind hkind (by decide)) hclean₂).took hr
      hspelled₂ ?_ hclean
    rcases hend with hend | hend
    · exact .of_kind hend (by decide)
    · exact .of_kind hend (by decide)
  | reread hc _ _ =>
    exact ⟨hs.tokens, fun _ hstring => absurd hstring hc.solid.2.2.2.2.2.2.2.2⟩
  | typing _ _ _ ih =>
    obtain ⟨htokens, hcursor⟩ := ih ⟨hspelled.tokens, hspelled.cursor, hspelled.start⟩
      ⟨hs.tokens, hs.cursor⟩
    exact ⟨htokens, hcursor⟩
  | scope _ _ ih =>
    obtain ⟨htokens, hcursor⟩ := ih ⟨hspelled.tokens, hspelled.cursor, hspelled.start⟩
      ⟨hs.tokens, hs.cursor⟩
    exact ⟨htokens, hcursor⟩
  | note hf => exact hs.recast hr (recast_noting _ _ hf.harmless)
  | mark _ _ => exact hs.recast hr (recast_marking _ _)

/-- The token after an index is the value of the attribute whose name is at the index. -/
def Assigns (tokens : Array Token) (i : Nat) : Prop :=
  Token.At tokens i .jsxName ∧ Token.At tokens (i + 1) .eq

/-- Values of attributes are read in their tags. -/
theorem assigned_kept :
    Reading.Kept ⟨fun tokens i => ∃ j, i = j + 2 ∧ Assigns tokens j, Text.Quoted⟩ := by
  constructor
  · rintro tokens t _ ⟨j, rfl, hname, heq⟩ hle
    exact ⟨j, rfl, (at_of_push hname).resolve_right (by omega),
      (at_of_push heq).resolve_right (by omega)⟩
  · rintro tokens tokens' _ hrecast ⟨j, rfl, ⟨t, ht, hname⟩, u, hu, heq⟩
    obtain ⟨t', ht', hkind, -⟩ := hrecast.get ht
    obtain ⟨u', hu', hkind', -⟩ := hrecast.get hu
    exact ⟨j, rfl, ⟨t', ht', hkind.symm.trans hname⟩, u', hu', hkind'.symm.trans heq⟩
  · rintro ctx s mode hpass hclean ⟨j, hj, hname, heq⟩
    rw [State.taken, Array.size_push] at hj
    -- the current token was the `=` after a name, so that the value is read in the tag
    have hname : Token.At s.tokens (s.tokens.size - 1) .jsxName := by
      rw [show s.tokens.size - 1 = j by omega]
      exact (at_of_push hname).resolve_right (by omega)
    have heq : s.cursor.kind = .eq := by
      rcases at_of_push heq with hat | ⟨-, hkind⟩
      · have := hat.lt_size
        omega
      · exact hkind
    obtain rfl := hpass.tagged.resolve_right fun hnamed => hnamed (.inr ⟨heq, hname⟩)
    exact Cursor.advance_tag_quoted hclean

/-- A token that stands in no tag before others is at the index. -/
def Coded (tokens : Array Token) (i : Nat) : Prop :=
  ∃ p, tokens[i]? = some p ∧ p.kind ∉ tagKinds

/-- Outside of tags, strings are read as literals. -/
theorem coded_kept : Reading.Kept
    ⟨fun tokens i => ∃ j, i = j + 1 ∧ Coded tokens j, (Text.Literal.isString · = true)⟩ := by
  constructor
  · rintro tokens t _ ⟨j, rfl, p, hp, hkind⟩ hle
    rcases Tiled.getElem?_push_cases hp with ⟨hp, -⟩ | ⟨rfl, -⟩
    · exact ⟨j, rfl, p, hp, hkind⟩
    · omega
  · rintro tokens tokens' _ hrecast ⟨j, rfl, p, hp, hkind⟩
    obtain ⟨q, hq, hsame, -⟩ := hrecast.get hp
    exact ⟨j, rfl, q, hq, hsame ▸ hkind⟩
  · rintro ctx s mode hpass hclean ⟨j, hj, p, hp, hkind⟩
    rw [State.taken, Array.size_push] at hj
    rcases Tiled.getElem?_push_cases hp with ⟨-, hlt⟩ | ⟨-, rfl⟩
    · omega
    · exact Cursor.advance_strung hclean fun hmode => hkind (hpass.inTag hmode)

end Grammar

open Grammar

variable {text : List Char} {dialect : Dialect} {stream : TokenStream}

theorem spelled_first (hclean : (State.first ⟨text, dialect⟩).Clean) :
    Spelled text (.first ⟨text, dialect⟩) :=
  ⟨fun i t ht => by simp [State.first] at ht,
    Cursor.advance_lexed (c := Cursor.before text) hclean,
    (sound_first (.of text dialect) hclean).standing.start⟩

variable (h : parse text dialect = .ok (.ok stream)) {t : Token}
include h

/-- The text of each token of a snippet fits its kind. -/
theorem parse_spells (ht : t ∈ stream.tokens) : t.kind.Spells (t.text text) := by
  obtain ⟨s, hread⟩ := parse_runs h
  obtain ⟨i, hi⟩ := Array.mem_iff_getElem?.mp ht
  rw [hread.tokens] at hi
  exact (hread.run.spelled (spelled_first hread.clean)).taken i t hi

/-- The strings of a snippet are read as they should be. -/
theorem parse_strung {r : Reading} (hr : r.Kept) (hfirst : ¬ r.before #[] 0)
    (hbefore : r.before stream.tokens i) (ht : stream.tokens[i]? = some t)
    (hstring : t.kind = .string) : r.holds (t.text text) := by
  obtain ⟨s, hread⟩ := parse_runs h
  have hstrung : Strung r text (.first ⟨text, dialect⟩) :=
    ⟨fun i t _ ht => by simp [State.first] at ht, fun h => absurd h hfirst⟩
  have hspelled := spelled_first hread.clean
  rw [hread.tokens] at hbefore ht
  exact (hread.run.strung hr hspelled hstrung).taken hr (hread.run.spelled hspelled) i t hbefore ht
    hstring

/-- A string that is the value of an attribute has no quote like its own between its quotes. -/
theorem parse_quotes (hassigns : Assigns stream.tokens i) (ht : stream.tokens[i + 2]? = some t)
    (hstring : t.kind = .string) : Text.Quoted (t.text text) :=
  parse_strung h assigned_kept nofun ⟨i, rfl, hassigns⟩ ht hstring

/-- A string after a token that stands in no tag is a literal. -/
theorem parse_isString (hcoded : Coded stream.tokens i) (ht : stream.tokens[i + 1]? = some t)
    (hstring : t.kind = .string) : Text.Literal.isString (t.text text) = true :=
  parse_strung h coded_kept nofun ⟨i, rfl, hcoded⟩ ht hstring

end Downlevel
