import Downlevel.Grammar.Program
import Downlevel.Proofs.Cursor.Lexed
import Downlevel.Proofs.Token.Shape

/-!
# Runs of the parser

Whatever the grammar does to a state without finding an error is made of few moves: it takes the
current token, it takes a template piece with what surrounds it, it reads the current token again,
it works inside a type or a scope, and it notes something on tokens that it has (`Run`). What a
state keeps to is proved of these moves once (`Run.sound`) and holds then of every production.

No move takes the end of the input, and tokens are given to types only where types may be written.
-/

namespace Downlevel.Grammar

variable {f : Token → Token} {c : Cursor} {index : Nat} {text : List Char} {i : Nat} {k : Kind}
  {mode : Mode} {t' : Token} {tokens : Array Token}

/-! ## States -/

namespace State

/-- No error was found. -/
def Clean (s : State) : Prop := s.cursor.error = none

/-- The state inside a type. -/
def typing (s : State) (inType : Bool) : State := { s with cursor := { s.cursor with inType } }

/-- The state inside one more scope. -/
def deeper (s : State) : State := { s with cursor := { s.cursor with depth := s.cursor.depth + 1 } }

/-- The state after a scope that began in state `outer`. -/
def leaving (s outer : State) (isFunction : Bool) : State :=
  { s with
    cursor := { s.cursor with depth := s.cursor.depth - 1 }
    scopes := s.scopes.push ⟨outer.tokens.size, s.tokens.size, isFunction⟩ }

/-- The state with a note on a token. -/
def noting (s : State) (index : Nat) (f : Token → Token) : State :=
  { s with tokens := s.tokens.modify index f }

/-- The state with all tokens from `start` on given to a type. -/
def marking (s : State) (start : Nat) : State :=
  { s with
    tokens := s.tokens.mapIdx fun i t => if start ≤ i then { t with isType := true } else t }

/-- The tokens with the current one. -/
def taken (s : State) : Array Token := s.tokens.push s.cursor.token

/-- The state after the current token was taken. -/
def took (ctx : Context) (mode : Mode) (s : State) : State :=
  { s with
    tokens := s.tokens.push s.cursor.token
    cursor := s.cursor.advance ctx.source mode }

/-- The current token is a name in a tag, or the `=` after one. -/
def Naming (s : State) : Prop :=
  s.cursor.kind = .jsxName ∨
    s.cursor.kind = .eq ∧ Token.At s.tokens (s.tokens.size - 1) .jsxName

/-- The current token is one of code: it is not the `>` of a tag and names nothing in it. -/
def Outside (s : State) : Prop := s.cursor.kind ≠ .jsxTagEnd ∧ ¬ s.Naming

/-- The kinds of tokens that may stand in tags before others. -/
def tagKinds : List Kind :=
  [.jsxTagStart, .jsxName, .dot, .colon, .eq, .string, .braceR, .slash, .jsxTagEnd]

/-- The next token may be read in the mode. What is named in a tag has its value in the tag. -/
structure Passable (s : State) (mode : Mode) : Prop where
  noPiece : mode ≠ .template
  live : s.cursor.kind ≠ .eof
  tagged : mode = .tag ∨ ¬ s.Naming
  inTag : mode = .tag → s.cursor.kind ∈ tagKinds

theorem Passable.tag {s : State} (hkind : s.cursor.kind = k) (hk : k ∈ tagKinds) :
    s.Passable .tag := by
  refine ⟨by decide, fun heof => ?_, .inl rfl, fun _ => hkind ▸ hk⟩
  rw [← hkind, heof] at hk
  exact absurd hk (by decide)

theorem Passable.of_kind {s : State} (hkind : s.cursor.kind = k)
    (h : k ∉ [Kind.eof, .jsxName, .eq] ∧ mode ∉ [.template, .tag]) : s.Passable mode := by
  simp only [List.mem_cons, List.not_mem_nil, or_false, not_or] at h
  obtain ⟨hk, hmode⟩ := h
  refine ⟨hmode.1, hkind ▸ hk.1, .inr ?_, fun htag => absurd htag hmode.2⟩
  rintro (hname | ⟨heq, -⟩)
  · exact hk.2.1 (hkind.symm.trans hname)
  · exact hk.2.2 (hkind.symm.trans heq)

theorem Outside.of_kind {s : State} (hkind : s.cursor.kind = k)
    (hk : k ∉ [Kind.jsxTagEnd, .jsxName, .eq]) : s.Outside := by
  simp only [List.mem_cons, List.not_mem_nil, or_false, not_or] at hk
  refine ⟨hkind ▸ hk.1, ?_⟩
  rintro (hname | ⟨heq, -⟩)
  · exact hk.2.1 (hkind.symm.trans hname)
  · exact hk.2.2 (hkind.symm.trans heq)

theorem Outside.passable {s : State} (h : s.Outside) (hlive : s.cursor.kind ≠ .eof) :
    s.Passable .code := ⟨by decide, hlive, .inr h.2, nofun⟩

theorem Passable.unnamed {s : State} (h : s.Passable .code) : ¬ s.Naming :=
  h.tagged.resolve_left (by decide)

theorem Passable.outside {ctx : Context} {s : State} (h : s.Passable .code)
    (hclean : (s.took ctx .code).Clean) : (s.took ctx .code).Outside := by
  obtain ⟨hend, hname⟩ := Cursor.kind_of_advance_code hclean
  refine ⟨hend, ?_⟩
  rintro (hnamed | ⟨-, p, hp, hpkind⟩)
  · exact hname hnamed
  · simp only [took, Array.size_push, Nat.add_sub_cancel, Array.getElem?_push_size] at hp
    obtain rfl := Option.some.inj hp
    exact h.unnamed (.inl hpkind)

/-- The tokens from `index` on are code, and the one before it is no template piece. -/
structure Anchored (s : State) (index : Nat) : Prop where
  code : Phrase.Spans s.tokens .code index s.tokens.size
  apart : ∀ n, n + 1 = index → ∀ p, s.tokens[n]? = some p → p.kind ≠ .template
  outside : s.Outside

theorem Anchored.deeper {s : State} (h : s.Anchored index) :
    s.deeper.Anchored index := ⟨h.code, h.apart, h.outside⟩

theorem Anchored.le {s : State} (h : s.Anchored index) : index ≤ s.tokens.size :=
  h.code.le

end State

open State

/-- What may be noted on the token at an index: its role, the end of what it begins, and the shape
of the element that it opens, once all but the last `>` is read. What is named in a tag can only be
read. -/
inductive Note (s : State) (index : Nat) : (Token → Token) → Prop where
  | role (role : Role) (hnamed : Token.At s.tokens index .jsxName → role = .access) :
      Note s index fun t => { t with role := some role }
  | rhsEnd : Note s index fun t => { t with rhsEnd := some s.tokens.size }
  | shape {shape : ElementShape} (hstart : Token.At s.tokens index .jsxTagStart)
      (hshape : Shaped s.tokens index shape s.tokens.size) (hend : s.cursor.kind = .jsxTagEnd) :
      Note s index fun t => { t with shape := some shape }

/-- A note that leaves kind, span, side and depth of a token as they are, takes no shape away and
says nothing about other declarations of a name. -/
def Harmless (f : Token → Token) : Prop :=
  ∀ t, (f t).kind = t.kind ∧ (f t).span = t.span ∧ (f t).isType = t.isType ∧
    (t.shape.isSome = true → (f t).shape.isSome = true) ∧ (f t).depth = t.depth ∧
    (f t).shadowed = t.shadowed

theorem Note.harmless {s : State} (h : Note s index f) : Harmless f := by
  intro t
  cases h with
  | role | rhsEnd => exact ⟨rfl, rfl, rfl, id, rfl, rfl⟩
  | shape => exact ⟨rfl, rfl, rfl, fun _ => rfl, rfl, rfl⟩

/-- The cursor `c'` has read the token of `c` again, as one that has text. -/
structure Reread (c c' : Cursor) : Prop where
  start : c'.start = c.start
  lastEnd : c'.lastEnd = c.lastEnd
  inType : c'.inType = c.inType
  depth : c'.depth = c.depth
  error : c.error = none
  solid : c'.kind.Solid ∧ c'.kind.spelling = none ∧ c'.kind ≠ .jsxTagEnd ∧
    c'.kind ≠ .ellipsis ∧ c'.kind ≠ .colon ∧ c'.kind ≠ .semi ∧ c'.kind ≠ .jsxName ∧ c'.kind ≠ .eq ∧
    c'.kind ≠ .string
  stop : ∃ n, c'.stop = c.start.skip n
  wide : c.start.offset < c'.stop.offset
  lexed : c.Lexed → c'.Lexed

theorem Reread.outside {s : State} (h : Reread s.cursor c) :
    ({ s with cursor := c } : State).Outside := by
  obtain ⟨-, -, hend, -, -, -, hname, heq, -⟩ := h.solid
  refine ⟨hend, ?_⟩
  rintro (hnamed | ⟨hassigned, -⟩)
  · exact hname hnamed
  · exact heq hassigned

/-- What the parser can do between two states without error. -/
inductive Run (ctx : Context) : State → State → Prop where
  | refl (s : State) : Run ctx s s
  | trans {s t u : State} : Run ctx s t → Run ctx t u → Run ctx s u
  /-- takes the current token -/
  | take {s : State} {mode : Mode} (hpass : s.Passable mode) (hclean : (s.took ctx mode).Clean) :
      Run ctx s (s.took ctx mode)
  /-- takes the token before a template piece, the piece and the token that ends it -/
  | piece {s : State} (hkind : s.cursor.kind ≠ .eof) (hnamed : ¬ s.Naming)
      (hend : (((s.took ctx .template).took ctx .code).cursor.kind = .backQuote ∨
        ((s.took ctx .template).took ctx .code).cursor.kind = .dollarBraceL))
      (hclean : (((s.took ctx .template).took ctx .code).took ctx .code).Clean) :
      Run ctx s (((s.took ctx .template).took ctx .code).took ctx .code)
  | reread {s : State} {c : Cursor} (hc : Reread s.cursor c) (hkind : s.cursor.kind ≠ .eof)
      (houtside : s.Outside) (hclean : c.error = none) :
      Run ctx s { s with cursor := c }
  /-- works inside a type -/
  | typing {s t : State} (htyped : ctx.source.dialect.typed = true)
      (hcode : Phrase.Spans t.tokens .code s.tokens.size t.tokens.size) :
      Run ctx (s.typing true) t → Run ctx s (t.typing s.cursor.inType)
  /-- works inside a scope -/
  | scope {s t : State} (isFunction : Bool) :
      Run ctx s.deeper t → Run ctx s (t.leaving s isFunction)
  | note {s : State} {index : Nat} {f : Token → Token} (hf : Note s index f) :
      Run ctx s (s.noting index f)
  /-- gives tokens to a type -/
  | mark {s : State} {start : Nat} (htyped : ctx.source.dialect.typed = true)
      (hstart : s.Anchored start) : Run ctx s (s.marking start)

/-! ## What every state keeps to -/

/-- Where the cursor may stand. -/
structure Standing (text : List Char) (c : Cursor) : Prop extends c.Scanned where
  lastEnd : c.lastEnd.In text
  start : c.start.In text
  lastEnd_le : c.lastEnd.offset ≤ c.start.offset
  notPiece : c.kind ≠ .template

/-- The cursor stands right, the tokens tile the text up to it, and without types no token belongs
to one. -/
structure Sound (ctx : Context) (s : State) : Prop where
  standing : Standing ctx.source.text s.cursor
  tiled : Tiled ctx.source.text s.tokens
  reach : endOf s.tokens = s.cursor.lastEnd.offset
  untyped : ctx.source.dialect.typed = false →
    s.cursor.inType = false ∧ ∀ {i : Nat} {t : Token}, s.tokens[i]? = some t → t.isType = false

/-! ## Single moves -/

theorem Standing.stop_in (h : Standing text c) :
    c.stop.In text := by
  obtain ⟨n, hstop⟩ := h.stop
  rw [hstop]
  exact Text.Point.skip_in h.start n

theorem Standing.advance {ctx : Context} (h : c.stop.In text) (hmode : mode ≠ .template)
    (hclean : (c.advance ctx.source mode).error = none) :
    Standing text (c.advance ctx.source mode) := by
  have hmoved := Cursor.advance_moved hclean
  obtain ⟨n, hstart⟩ := hmoved.start
  have hin : (c.advance ctx.source mode).start.In text := by
    rw [hstart]
    exact Text.Point.skip_in h n
  refine ⟨hmoved.toScanned, by rw [hmoved.lastEnd]; exact h, hin, ?_,
    Cursor.kind_of_advance hclean hmode⟩
  rw [hmoved.lastEnd, hstart]
  exact Text.Point.offset_le_skip _ _

theorem Standing.fits (h : Standing text c) (hkind : c.kind ≠ .eof) :
    c.token.Fits text := by
  refine ⟨h.start.place, h.stop_in.place, ?_, hkind, h.wide, fun word hword => ?_⟩
  · exact Nat.le_of_lt (h.wide ⟨hkind, h.notPiece⟩)
  · obtain ⟨⟨rest, hrest⟩, hstop⟩ := h.spelled word hword
    obtain ⟨before, htext, hsize⟩ := h.start
    rw [Token.text, Span.text_eq_between, htext, ← hrest]
    show Text.between _ c.start.offset c.stop.offset = word
    rw [hstop, Text.Point.skip, ← hrest, List.take_left, ← hsize]
    exact Text.between_of_split before word rest

variable {ctx : Context} {s t : State}

theorem Sound.anchored (h : Sound ctx s) (houtside : s.Outside) :
    s.Anchored s.tokens.size := by
  refine ⟨.nil _, ?_, houtside⟩
  rintro n hn p hp hpiece
  obtain ⟨u, hu, -⟩ := h.tiled.pieces hp hpiece
  obtain ⟨hlt, -⟩ := Array.getElem?_eq_some_iff.mp hu
  omega

theorem Sound.took (h : Sound ctx s) (hmode : mode ≠ .template) (hkind : s.cursor.kind ≠ .eof)
    (hclean : (s.took ctx mode).Clean) :
    Sound ctx (s.took ctx mode) := by
  have hmoved := Cursor.advance_moved hclean
  refine ⟨.advance h.standing.stop_in hmode hclean, ?_, ?_, ?_⟩
  · refine h.tiled.push (h.standing.fits hkind) h.standing.notPiece ?_
    rw [h.reach]
    exact h.standing.lastEnd_le
  · show endOf (s.tokens.push s.cursor.token) = (s.cursor.advance ctx.source mode).lastEnd.offset
    rw [endOf_push, hmoved.lastEnd]
    rfl
  · intro htyped
    obtain ⟨hcursor, htokens⟩ := h.untyped htyped
    refine ⟨by rw [← hcursor]; exact hmoved.inType, ?_⟩
    intro i t ht
    rcases Tiled.getElem?_push_cases ht with ⟨ht, -⟩ | ⟨-, rfl⟩
    · exact htokens ht
    · exact hcursor

/-- The cursor on a template piece, and the one on what ends it. -/
structure PieceRead (text : List Char) (c piece after : Cursor) : Prop where
  fits : piece.token.Fits text
  ends : piece.token.Ends after.token
  standing : Standing text after
  start : piece.start = c.stop
  inType : piece.inType = c.inType

theorem Standing.piece (h : Standing text c)
    (hend : ((c.advance ctx.source .template).advance ctx.source .code).kind = .backQuote ∨
      ((c.advance ctx.source .template).advance ctx.source .code).kind = .dollarBraceL)
    (hclean : ((c.advance ctx.source .template).advance ctx.source .code).error = none) :
    PieceRead text c (c.advance ctx.source .template)
      ((c.advance ctx.source .template).advance ctx.source .code) := by
  have hclean₁ := Cursor.error_of_advance hclean
  have hmoved₁ := Cursor.advance_moved hclean₁
  have hmoved₂ := Cursor.advance_moved hclean
  obtain ⟨hkind, hstart₁, hpieceEnd⟩ := Cursor.advance_template hclean₁
  have hstart₂ := Cursor.start_of_pieceEnd hpieceEnd hclean
  obtain ⟨n, hstop⟩ := hmoved₁.stop
  have hin : (c.advance ctx.source .template).stop.In text := by
    rw [hstop, hstart₁]
    exact Text.Point.skip_in h.stop_in n
  have hstand : Standing text ((c.advance ctx.source .template).advance ctx.source .code) :=
    .advance hin (by decide) hclean
  refine ⟨⟨?_, hin.place, ?_, ?_, ?_, ?_⟩, ⟨?_, hmoved₂.inType, hend⟩, hstand, hstart₁,
    hmoved₁.inType⟩
  · show Text.Place text (c.advance ctx.source .template).start.offset
    rw [hstart₁]
    exact h.stop_in.place
  · show (c.advance ctx.source .template).start.offset ≤
      (c.advance ctx.source .template).stop.offset
    rw [hstop]
    exact Text.Point.offset_le_skip _ _
  · show (c.advance ctx.source .template).kind ≠ .eof
    rw [hkind]
    exact Kind.noConfusion
  · intro hsolid
    exact absurd hkind hsolid.2
  · intro word hword
    rw [show (c.advance ctx.source .template).token.kind = .template from hkind] at hword
    cases hword
  · show ((c.advance ctx.source .template).advance ctx.source .code).start.offset = _
    rw [hstart₂]
    rfl

/-- What ends a template piece goes with the piece. -/
theorem Sound.piece (h : Sound ctx s) (hkind : s.cursor.kind ≠ .eof)
    (hend : ((s.took ctx .template).took ctx .code).cursor.kind = .backQuote ∨
      ((s.took ctx .template).took ctx .code).cursor.kind = .dollarBraceL)
    (hclean : (((s.took ctx .template).took ctx .code).took ctx .code).Clean) :
    Sound ctx (((s.took ctx .template).took ctx .code).took ctx .code) := by
  have hread := h.standing.piece hend (Cursor.error_of_advance hclean)
  have hmoved := Cursor.advance_moved hclean
  have hafter : ((s.took ctx .template).took ctx .code).cursor.kind ≠ .eof := by
    rcases hend with hend | hend <;> rw [hend] <;> exact Kind.noConfusion
  refine ⟨.advance hread.standing.stop_in (by decide) hclean, ?_, ?_, ?_⟩
  · have hfirst := h.tiled.push (h.standing.fits hkind) h.standing.notPiece
      (by rw [h.reach]; exact h.standing.lastEnd_le)
    refine hfirst.push_piece hread.fits (hread.standing.fits hafter) hread.ends ?_
    rw [endOf_push]
    exact Nat.le_of_eq (congrArg (·.offset) hread.start.symm)
  · show endOf (_ : Array Token) = _
    rw [State.took, endOf_push]
    exact congrArg (·.offset) hmoved.lastEnd.symm
  · intro htyped
    obtain ⟨hcursor, htokens⟩ := h.untyped htyped
    have hpiece : (s.took ctx .template).cursor.inType = false := hread.inType.trans hcursor
    have hlast : ((s.took ctx .template).took ctx .code).cursor.inType = false :=
      hread.ends.isType.trans hpiece
    refine ⟨hmoved.inType.trans hlast, ?_⟩
    intro i t ht
    rcases Tiled.getElem?_push_cases ht with ⟨ht, -⟩ | ⟨-, rfl⟩
    · rcases Tiled.getElem?_push_cases ht with ⟨ht, -⟩ | ⟨-, rfl⟩
      · rcases Tiled.getElem?_push_cases ht with ⟨ht, -⟩ | ⟨-, rfl⟩
        · exact htokens ht
        · exact hcursor
      · exact hpiece
    · exact hlast

theorem Sound.reread (h : Sound ctx s) (hc : Reread s.cursor c) :
    Sound ctx { s with cursor := c } := by
  refine ⟨⟨⟨?_, fun heof => absurd heof hc.solid.1.1, fun _ => ?_,
    fun word hword => nomatch hc.solid.2.1.symm.trans hword⟩, ?_, ?_, ?_, hc.solid.1.2⟩,
    h.tiled, ?_, ?_⟩
  · rw [hc.start]
    exact hc.stop
  · rw [hc.start]
    exact hc.wide
  · rw [hc.lastEnd]
    exact h.standing.lastEnd
  · rw [hc.start]
    exact h.standing.start
  · rw [hc.lastEnd, hc.start]
    exact h.standing.lastEnd_le
  · rw [hc.lastEnd]
    exact h.reach
  · intro htyped
    rw [hc.inType]
    exact h.untyped htyped

/-- Being in a type or in a scope changes nothing about where the cursor stands. -/
theorem Standing.of_eq {c' : Cursor} (h : Standing text c) (hkind : c'.kind = c.kind)
    (hstart : c'.start = c.start) (hstop : c'.stop = c.stop) (hlastEnd : c'.lastEnd = c.lastEnd) :
    Standing text c' := by
  constructor
  · constructor <;> rw [hstart, hstop]
    · exact h.stop
    · rw [hkind]; exact h.ended
    · rw [hkind]; exact h.wide
    · rw [hkind]; exact h.spelled
  · rw [hlastEnd]; exact h.lastEnd
  · rw [hstart]; exact h.start
  · rw [hlastEnd, hstart]; exact h.lastEnd_le
  · rw [hkind]; exact h.notPiece

theorem Sound.typing (h : Sound ctx s) (htyped : ctx.source.dialect.typed = true) (b : Bool) :
    Sound ctx (s.typing b) :=
  ⟨h.standing.of_eq rfl rfl rfl rfl, h.tiled, h.reach, fun hno => by simp [htyped] at hno⟩

theorem Sound.deeper (h : Sound ctx s) : Sound ctx s.deeper :=
  ⟨h.standing.of_eq rfl rfl rfl rfl, h.tiled, h.reach, h.untyped⟩

theorem Sound.leaving (h : Sound ctx t) (outer : State) (isFunction : Bool) :
    Sound ctx (t.leaving outer isFunction) :=
  ⟨h.standing.of_eq rfl rfl rfl rfl, h.tiled, h.reach, h.untyped⟩

/-! ## Notes -/

/-- Every token of `tokens'` is one of `tokens` with another meaning. -/
structure Recast (tokens tokens' : Array Token) : Prop where
  size : tokens'.size = tokens.size
  get : ∀ {i : Nat} {t' : Token}, tokens'[i]? = some t' →
    ∃ t, tokens[i]? = some t ∧ t'.kind = t.kind ∧ t'.span = t.span

theorem Recast.outside {s : State} (h : Recast s.tokens tokens) (hs : s.Outside) :
    ({ s with tokens } : State).Outside := by
  refine ⟨hs.1, ?_⟩
  rintro (hname | ⟨heq, p, hp, hkind⟩)
  · exact hs.2 (.inl hname)
  · obtain ⟨q, hq, hkind', -⟩ := h.get hp
    rw [h.size] at hq
    exact hs.2 (.inr ⟨heq, q, hq, hkind'.symm.trans hkind⟩)

theorem Recast.endOf {tokens' : Array Token} (h : Recast tokens tokens') :
    endOf tokens' = endOf tokens := by
  unfold Downlevel.endOf
  rw [Array.back?_eq_getElem?, Array.back?_eq_getElem?, h.size]
  cases hlast : tokens'[tokens.size - 1]? with
  | none =>
    have hsize : tokens.size = 0 := by
      have := Array.getElem?_eq_none_iff.mp hlast
      rw [h.size] at this
      omega
    rw [Array.getElem?_eq_none (by omega)]
  | some t' =>
    obtain ⟨t, ht, -, hspan⟩ := h.get hlast
    simp [ht, hspan]

theorem getElem?_noting (h : (s.noting index f).tokens[i]? = some t') :
    ∃ t, s.tokens[i]? = some t ∧ (t' = t ∨ i = index ∧ t' = f t) := by
  change (s.tokens.modify index f)[i]? = some t' at h
  rw [Array.getElem?_modify] at h
  split at h
  · rename_i hindex
    obtain ⟨t, ht, rfl⟩ := Option.map_eq_some_iff.mp h
    exact ⟨t, ht, .inr ⟨hindex.symm, rfl⟩⟩
  · exact ⟨t', h, .inl rfl⟩

theorem recast_noting (s : State) (index : Nat) (hf : Harmless f) :
    Recast s.tokens (s.noting index f).tokens := by
  refine ⟨Array.size_modify .., ?_⟩
  intro i t' ht'
  obtain ⟨t, ht, rfl | ⟨-, rfl⟩⟩ := getElem?_noting ht'
  · exact ⟨_, ht, rfl, rfl⟩
  · exact ⟨_, ht, (hf t).1, (hf t).2.1⟩

theorem isType_noting (hf : Harmless f) (h : (s.noting index f).tokens[i]? = some t') :
    ∃ t, s.tokens[i]? = some t ∧ t'.isType = t.isType := by
  obtain ⟨t, ht, rfl | ⟨-, rfl⟩⟩ := getElem?_noting h
  · exact ⟨_, ht, rfl⟩
  · exact ⟨_, ht, (hf t).2.2.1⟩

theorem sided_noting (s : State) (index : Nat) (hf : Harmless f) {b : Bool}
    (h : Token.Sided s.tokens b i) : Token.Sided (s.noting index f).tokens b i := by
  obtain ⟨t, ht, hb⟩ := h
  show ∃ t', (s.tokens.modify index f)[i]? = some t' ∧ _
  rw [Array.getElem?_modify]
  split
  · exact ⟨f t, by simp [ht], (hf t).2.2.1.trans hb⟩
  · exact ⟨t, ht, hb⟩

theorem extends_noting (s : State) (index : Nat) (hf : Harmless f) :
    Token.Extends s.tokens (s.noting index f).tokens := by
  constructor
  intro i t ht
  show ∃ t', (s.tokens.modify index f)[i]? = some t' ∧ _
  rw [Array.getElem?_modify]
  split
  · exact ⟨f t, by simp [ht], (hf t).1, (hf t).2.2.2.1⟩
  · exact ⟨t, ht, rfl, id⟩

theorem Sound.noting (h : Sound ctx s) (hf : Harmless f) :
    Sound ctx (s.noting index f) := by
  have hrecast := recast_noting s index hf
  refine ⟨h.standing, h.tiled.congr hrecast.get hrecast.size ?_, ?_, ?_⟩
  · intro i t' u' ht' hu' hpiece
    obtain ⟨t, ht, hkind, -⟩ := hrecast.get ht'
    obtain ⟨v, hv, htype⟩ := isType_noting hf ht'
    obtain ⟨w, hw, htype'⟩ := isType_noting hf hu'
    obtain ⟨u, hu, hends⟩ := h.tiled.pieces ht (by rw [← hkind, hpiece])
    rw [ht] at hv
    rw [hu] at hw
    obtain rfl := Option.some.inj hv
    obtain rfl := Option.some.inj hw
    rw [htype, htype', hends.isType]
  · rw [hrecast.endOf]
    exact h.reach
  · intro htyped
    obtain ⟨hcursor, htokens⟩ := h.untyped htyped
    refine ⟨hcursor, ?_⟩
    intro i t' ht'
    obtain ⟨t, ht, htype⟩ := isType_noting hf ht'
    rw [htype]
    exact htokens ht

theorem getElem?_marking {start : Nat} (h : (s.marking start).tokens[i]? = some t') :
    ∃ t, s.tokens[i]? = some t ∧ t' = if start ≤ i then { t with isType := true } else t := by
  change (s.tokens.mapIdx _)[i]? = some t' at h
  rw [Array.getElem?_mapIdx] at h
  obtain ⟨t, ht, rfl⟩ := Option.map_eq_some_iff.mp h
  exact ⟨t, ht, rfl⟩

theorem recast_marking (s : State) (start : Nat) : Recast s.tokens (s.marking start).tokens := by
  refine ⟨Array.size_mapIdx, ?_⟩
  intro i t' ht'
  obtain ⟨t, ht, rfl⟩ := getElem?_marking ht'
  refine ⟨t, ht, ?_⟩
  split <;> exact ⟨rfl, rfl⟩

theorem extends_marking (s : State) (start : Nat) :
    Token.Extends s.tokens (s.marking start).tokens := by
  constructor
  intro i t ht
  show ∃ t', (s.tokens.mapIdx _)[i]? = some t' ∧ _
  rw [Array.getElem?_mapIdx, ht]
  refine ⟨_, rfl, ?_⟩
  split <;> exact ⟨rfl, id⟩

theorem Sound.marking (h : Sound ctx s) (htyped : ctx.source.dialect.typed = true) {start : Nat}
    (hstart : s.Anchored start) : Sound ctx (s.marking start) := by
  have hrecast := recast_marking s start
  refine ⟨h.standing, h.tiled.congr hrecast.get hrecast.size ?_, ?_, ?_⟩
  · intro i t' u' ht' hu' hpiece
    obtain ⟨t, ht, hkind, -⟩ := hrecast.get ht'
    obtain ⟨u, hu, hends⟩ := h.tiled.pieces ht (by rw [← hkind, hpiece])
    obtain ⟨v, hv, rfl⟩ := getElem?_marking ht'
    obtain ⟨w, hw, rfl⟩ := getElem?_marking hu'
    rw [ht] at hv
    rw [hu] at hw
    obtain rfl := Option.some.inj hv
    obtain rfl := Option.some.inj hw
    by_cases hi : start ≤ i
    · rw [if_pos hi, if_pos (by omega)]
    · -- the mark cannot fall between the piece and what ends it
      have hi' : ¬ start ≤ i + 1 := by
        intro hle
        exact hstart.apart i (by omega) t ht (by rw [← hkind, hpiece])
      rw [if_neg hi, if_neg hi']
      exact hends.isType
  · rw [hrecast.endOf]
    exact h.reach
  · intro hno
    simp [htyped] at hno

/-! ## Whole runs -/

section

variable (h : Run ctx s t)
include h

/-- Every run keeps to what states keep to. -/
theorem Run.sound (hs : Sound ctx s) : Sound ctx t := by
  induction h with
  | refl s => exact hs
  | trans _ _ ih₁ ih₂ => exact ih₂ (ih₁ hs)
  | take hpass hclean => exact hs.took hpass.noPiece hpass.live hclean
  | piece hkind _ hend hclean => exact hs.piece hkind hend hclean
  | reread hc _ _ _ => exact hs.reread hc
  | typing htyped _ _ ih => exact (ih (hs.typing htyped true)).typing htyped _
  | scope isFunction _ ih => exact (ih hs.deeper).leaving _ isFunction
  | note hf => exact hs.noting hf.harmless
  | mark htyped hstart => exact hs.marking htyped hstart

theorem Run.size_le : s.tokens.size ≤ t.tokens.size := by
  induction h with
  | refl | reread => exact Nat.le_refl _
  | trans _ _ ih₁ ih₂ => exact Nat.le_trans ih₁ ih₂
  | take | piece =>
    simp only [State.took, Array.size_push]
    omega
  | typing _ _ _ ih | scope _ _ ih => exact ih
  | @note s index f hf => exact Nat.le_of_eq (recast_noting s index hf.harmless).size.symm
  | @mark s start _ _ => exact Nat.le_of_eq (recast_marking s start).size.symm

/-- A run keeps the kinds of all tokens, and every shape that was noted. -/
theorem Run.extends : Token.Extends s.tokens t.tokens := by
  induction h with
  | refl s => exact .refl _
  | trans _ _ ih₁ ih₂ => exact ih₁.trans ih₂
  | take _ _ => exact .push _ _
  | piece _ _ _ _ => exact ((Token.Extends.push _ _).trans (.push _ _)).trans (.push _ _)
  | reread _ _ _ _ => exact .refl _
  | typing _ _ _ ih => exact ih
  | scope _ _ ih => exact ih
  | note hf => exact extends_noting _ _ hf.harmless
  | mark _ _ => exact extends_marking _ _

/-- A run from a token that is no name in a tag takes that token first, or one that is read again
for it. -/
theorem Run.unnamed (hs : s.cursor.kind ≠ .jsxName) :
    (t.tokens.size = s.tokens.size → t.cursor.kind ≠ .jsxName) ∧
      ¬ Token.At t.tokens s.tokens.size .jsxName := by
  have hnone : ∀ {tokens : Array Token} {n : Nat}, tokens.size = n →
      ¬ Token.At tokens n .jsxName := by
    rintro tokens n rfl hat
    exact absurd hat.lt_size (Nat.lt_irrefl _)
  induction h with
  | refl s => exact ⟨fun _ => hs, hnone rfl⟩
  | @trans s t u h₁ h₂ ih₁ ih₂ =>
    obtain ⟨hcursor, hfirst⟩ := ih₁ hs
    rcases Nat.eq_or_lt_of_le h₁.size_le with heq | hlt
    · rw [heq]
      exact ih₂ (hcursor heq.symm)
    · refine ⟨fun hsize => ?_, fun hname => hfirst ?_⟩
      · have := h₂.size_le
        omega
      · have hat : Token.At t.tokens s.tokens.size t.tokens[s.tokens.size].kind :=
          ⟨_, Array.getElem?_eq_getElem hlt, rfl⟩
        rwa [(hat.mono h₂.extends).kind_eq hname] at hat
  | @take s mode _ _ =>
    refine ⟨fun hsize => ?_, fun hname => ?_⟩
    · simp [State.took] at hsize
    · exact hs ((Token.At.push s.tokens s.cursor.token).kind_eq hname)
  | @piece s _ _ _ _ =>
    refine ⟨fun hsize => ?_, fun hname => ?_⟩
    · simp only [State.took, Array.size_push] at hsize
      omega
    · have hat := Token.At.push s.tokens s.cursor.token
      exact hs ((hat.mono ((Token.Extends.push _ _).trans (.push _ _))).kind_eq hname)
  | reread hc => exact ⟨fun _ => hc.solid.2.2.2.2.2.2.1, hnone rfl⟩
  | typing _ _ _ ih | scope _ _ ih => exact ih hs
  | @note s index f hf => exact ⟨fun _ => hs, hnone (recast_noting s index hf.harmless).size⟩
  | @mark s start _ _ => exact ⟨fun _ => hs, hnone (recast_marking s start).size⟩

/-- A run leaves no token a template piece that was none. -/
theorem Run.apart {n : Nat} (hn : n < s.tokens.size)
    (hs : ∀ p, s.tokens[n]? = some p → p.kind ≠ .template) :
    ∀ p, t.tokens[n]? = some p → p.kind ≠ .template := by
  intro p hp
  obtain ⟨q, hq, hkind, -⟩ := h.extends.get (Array.getElem?_eq_getElem hn)
  obtain rfl := Option.some.inj (hp.symm.trans hq)
  rw [hkind]
  exact hs _ (Array.getElem?_eq_getElem hn)

theorem Run.inType : t.cursor.inType = s.cursor.inType := by
  induction h with
  | refl | typing | note | mark => rfl
  | trans _ _ ih₁ ih₂ => exact ih₂.trans ih₁
  | take _ hclean => exact (Cursor.advance_moved hclean).inType
  | piece _ _ _ hclean =>
    have hclean' := Cursor.error_of_advance hclean
    have hclean'' := Cursor.error_of_advance hclean'
    exact ((Cursor.advance_moved hclean).inType.trans (Cursor.advance_moved hclean').inType).trans
      (Cursor.advance_moved hclean'').inType
  | reread hc => exact hc.inType
  | scope _ _ ih => exact ih

/-- If nothing is read again as one of a kind, only the current token can be the one of that kind
that comes first. -/
theorem Run.first (hk : ∀ c c' : Cursor, Reread c c' → c'.kind ≠ k) :
    (Token.At t.tokens s.tokens.size k → s.cursor.kind = k) ∧
      (t.tokens.size = s.tokens.size → t.cursor.kind = k → s.cursor.kind = k) := by
  induction h with
  | refl s => exact ⟨fun hat => absurd hat.lt_size (Nat.lt_irrefl _), fun _ => id⟩
  | @trans s t u hrun hrun' ih ih' =>
    have hle := hrun.size_le
    have hle' := hrun'.size_le
    constructor
    · intro hat
      rcases Nat.eq_or_lt_of_le hle with heq | hlt
      · exact ih.2 heq.symm (ih'.1 (heq ▸ hat))
      · obtain ⟨q, hq, hkind⟩ := hat
        obtain ⟨q', hq', hkind', -⟩ := hrun'.extends.get (Array.getElem?_eq_getElem hlt)
        obtain rfl := Option.some.inj (hq.symm.trans hq')
        exact ih.1 ⟨_, Array.getElem?_eq_getElem hlt, hkind'.symm.trans hkind⟩
    · exact fun hsize hkind => ih.2 (by omega) (ih'.2 (by omega) hkind)
  | @take s mode =>
    refine ⟨fun hat => ?_, fun hsize => ?_⟩
    · exact (Token.At.push s.tokens s.cursor.token).kind_eq hat
    · simp [State.took] at hsize
  | @piece s =>
    refine ⟨fun hat => ?_, fun hsize => ?_⟩
    · exact (((Token.At.push s.tokens s.cursor.token).mono (.push _ _)).mono
        (.push _ _)).kind_eq hat
    · simp [State.took] at hsize
      omega
  | reread hc =>
    exact ⟨fun hat => absurd hat.lt_size (Nat.lt_irrefl _),
      fun _ hkind => absurd hkind (hk _ _ hc)⟩
  | typing _ _ _ ih | scope _ _ ih => exact ih
  | @note s index f hf =>
    have hsize := (recast_noting s index hf.harmless).size
    exact ⟨fun hat => absurd hat.lt_size (by omega), fun _ => id⟩
  | @mark s start =>
    have hsize := (recast_marking s start).size
    exact ⟨fun hat => absurd hat.lt_size (by omega), fun _ => id⟩

end

end Downlevel.Grammar
