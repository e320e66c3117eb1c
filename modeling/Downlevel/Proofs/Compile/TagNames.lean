import Downlevel.Proofs.Compile.Calls
import Downlevel.Proofs.Compile.Statements
import Downlevel.Proofs.Grammar.Spelled
import Downlevel.Proofs.Lowering.Notes
import Downlevel.Proofs.Text.Literal

/-!
# Names of tags

The name of a tag becomes the first argument of a call: a string that holds it, or names with dots
between them, of which the first may be imported (`tag_names_written`). Which of the two is decided
by the first letter, and whether there is a dot or a colon. The names are identifiers unless there
is a hyphen in them, and no heed is paid to that: `A-b` becomes a subtraction
(`hyphenated_tag_left`).

Where elements stay, the name in an opening tag is a reference and becomes a member of a module, the
one in the closing tag stays (`closing_name_left`).
-/

namespace Downlevel

open Token (At)

/-! ## Names as written -/

/-- The texts of all tokens fit their kinds. -/
def Sheet.Spelled (s : Sheet) : Prop :=
  ∀ (i : Nat) (t : Token), s.tokens[i]? = some t → t.kind.Spells (t.text s.text)

/-- What the tokens from one index up to another spell together. -/
def Sheet.joined (s : Sheet) (lo hi : Nat) : String :=
  String.join ((List.range' lo (hi - lo)).map s.textAt)

/-- Names with dots between them, from one index up to another. -/
inductive Sheet.Chain (s : Sheet) : Nat → Nat → List String → Prop where
  | one {i : Nat} (hname : At s.tokens i .jsxName) : Chain s i (i + 1) [s.textAt i]
  | cons {i j : Nat} {names : List String} (hname : At s.tokens i .jsxName)
      (hdot : At s.tokens (i + 1) .dot) (hrest : Chain s (i + 2) j names) :
      Chain s i j (s.textAt i :: names)

theorem Name.isPart_marks : ∀ c ∈ ['-', ':', '\'', '\\', '\n', '\r'], isPart c = false := by
  intro c hc
  obtain ⟨hlow, hnone⟩ : c.toNat < 128 ∧
      (c.isAlpha || c.isDigit || c == '_' || c == '$') = false := by
    simp only [List.mem_cons, List.not_mem_nil, or_false] at hc
    rcases hc with rfl | rfl | rfl | rfl | rfl | rfl <;> decide
  rwa [isPart, Text.isAlphanumeric, Text.isAlphabetic_of_lt hlow, Text.isNumeric_of_lt hlow]

theorem isTagNamePart_iff {c : Char} :
    Piece.isTagNamePart c = true ↔ Name.isPart c = true ∨ c = '-' := by
  rw [← beq_iff_eq (b := '-'), ← Bool.or_eq_true]
  rfl

/-- A name in a tag is an identifier unless there is a hyphen in it. -/
theorem isIdentifier_iff {name : String}
    (h : Text.Worded Piece.isTagNameStart Piece.isTagNamePart name.toList) :
    Name.isIdentifier name = true ↔ '-' ∉ name.toList := by
  obtain ⟨c, rest, hname, hstart, hrest⟩ := h
  have hhyphen : Name.isPart '-' = false := Name.isPart_marks _ (by decide)
  have hfirst : Name.isPart c = true := by
    simp only [Piece.isTagNameStart, Bool.or_eq_true] at hstart
    simp only [Name.isPart, Text.isAlphanumeric, Bool.or_eq_true]
    exact hstart.imp_left (·.imp_left .inl)
  have hiff : Name.isIdentifier name = true ↔ ∀ d ∈ rest, Name.isPart d = true := by
    rw [← List.all_eq_true, Name.isIdentifier, hname]
    show (Piece.isTagNameStart c && rest.all Name.isPart) = true ↔ _
    rw [hstart, Bool.true_and]
  rw [hiff, hname, List.mem_cons, not_or]
  constructor
  · intro hall
    refine ⟨?_, fun hmem => ?_⟩
    · rintro rfl
      cases hfirst.symm.trans hhyphen
    · cases (hall _ hmem).symm.trans hhyphen
  · rintro ⟨-, hnone⟩ d hd
    rcases isTagNamePart_iff.mp (hrest d hd) with hpart | rfl
    · exact hpart
    · exact absurd hd hnone

namespace Sheet

variable {s : Sheet} {i j lo hi : Nat}

theorem joined_self : s.joined lo lo = "" := by
  rw [joined, Nat.sub_self]
  rfl

theorem joined_of_lt (h : lo < hi) : s.joined lo hi = s.textAt lo ++ s.joined (lo + 1) hi := by
  rw [joined, joined, show hi - lo = hi - (lo + 1) + 1 by omega, List.range'_succ, List.map_cons,
    String.join_cons]

section

variable (h : s.Spelled)
include h

theorem Spelled.name (hname : At s.tokens i .jsxName) :
    Text.Worded Piece.isTagNameStart Piece.isTagNamePart (s.textAt i).toList := by
  obtain ⟨t, ht, hkind⟩ := hname
  have hword := (h i t ht).tagName hkind
  simpa [textAt, ht] using hword

theorem Spelled.mark {k : Kind} {c : Char} (hk : At s.tokens i k)
    (hmark : k.mark = some c) : (s.textAt i).toList = [c] := by
  obtain ⟨t, ht, rfl⟩ := hk
  have hword := (h i t ht).mark c hmark
  simpa [textAt, ht] using hword

theorem Spelled.name_part (hname : At s.tokens i .jsxName) {c : Char}
    (hc : c ∈ (s.textAt i).toList) : Piece.isTagNamePart c = true := by
  obtain ⟨first, rest, htext, hstart, hrest⟩ := h.name hname
  rw [htext, List.mem_cons] at hc
  rcases hc with rfl | hc
  · exact Cursor.isTagNamePart_of_start hstart
  · exact hrest c hc

theorem Spelled.parts (hparts : NameParts s.tokens i j) :
    ∀ c ∈ (s.joined i j).toList, Piece.isTagNamePart c = true ∨ c = '.' ∨ c = ':' := by
  induction hparts with
  | nil i => simp [joined_self]
  | @cons i j hmark hname hrest ih =>
    have hle := hrest.le
    rw [joined_of_lt (by omega), joined_of_lt (by omega), String.toList_append,
      String.toList_append]
    simp only [List.mem_append]
    rintro c (hc | hc | hc)
    · rcases hmark with hmark | hmark
      · rw [h.mark hmark rfl, List.mem_singleton] at hc
        exact .inr (.inl hc)
      · rw [h.mark hmark rfl, List.mem_singleton] at hc
        exact .inr (.inr hc)
    · exact .inl (h.name_part hname hc)
    · exact ih c hc

section

variable (hname : TagName s.tokens i j)
include hname

theorem Spelled.tagName :
    ∀ c ∈ (s.joined i j).toList, Piece.isTagNamePart c = true ∨ c = '.' ∨ c = ':' := by
  rw [joined_of_lt hname.lt, String.toList_append]
  simp only [List.mem_append]
  rintro c (hc | hc)
  · exact .inl (h.name_part hname.first hc)
  · exact h.parts hname.parts c hc

/-- The string for the name of a tag holds it as it is written. -/
theorem Spelled.quoted :
    (Text.quoted (s.joined i j)).toList = '\'' :: ((s.joined i j).toList ++ ['\'']) ∧
      Text.Literal.value? (Text.quoted (s.joined i j)).toList =
        some (Text.utf16 (s.joined i j).toList) := by
  have hnone : ∀ c ∈ ['\'', '\\', '\n', '\r'], c ∉ (s.joined i j).toList := by
    intro c hc hmem
    have hmark : c ∈ ['-', ':', '\'', '\\', '\n', '\r'] := by
      simp only [List.mem_cons] at hc ⊢
      tauto
    rcases h.tagName hname c hmem with hpart | rfl | rfl
    · rcases isTagNamePart_iff.mp hpart with hpart | rfl
      · cases hpart.symm.trans (Name.isPart_marks c hmark)
      · exact absurd hc (by decide)
    · exact absurd hc (by decide)
    · exact absurd hc (by decide)
  have hplain : ∀ c ∈ (s.joined i j).toList, Text.quoteChar c = [c] := by
    intro c hc
    unfold Text.quoteChar
    split
    case h_5 => rfl
    all_goals exact absurd hc (hnone _ (by decide))
  have htext : (Text.quoted (s.joined i j)).toList =
      '\'' :: ((s.joined i j).toList ++ ['\'']) := by
    rw [Text.quoted, List.flatMap_congr hplain, List.flatMap_singleton']
    simp
  refine ⟨htext, ?_⟩
  rw [htext]
  exact Text.Literal.value?_plain (.inr rfl) (hnone _ (by decide)) (hnone _ (by decide))
    (hnone _ (by decide)) (hnone _ (by decide))

/-- Without a colon the parts of a name are joined by dots. They are identifiers just if there is no
hyphen in the name. -/
theorem Spelled.chain (hcolon : ':' ∉ (s.joined i j).toList) : ∃ names, s.Chain i j names ∧
      ((∀ name ∈ names, Name.isIdentifier name = true) ↔ '-' ∉ (s.joined i j).toList) := by
  obtain ⟨hfirst, hparts⟩ := hname
  generalize hi : i + 1 = k at hparts
  induction hparts generalizing i with
  | nil k =>
    subst hi
    refine ⟨_, .one hfirst, ?_⟩
    rw [List.forall_mem_singleton, isIdentifier_iff (h.name hfirst), joined_of_lt (by omega),
      joined_self, String.append_empty]
  | @cons k j hmark hname hrest ih =>
    subst hi
    have hle := hrest.le
    have hsplit : (s.joined i j).toList =
        (s.textAt i).toList ++ ((s.textAt (i + 1)).toList ++ (s.joined (i + 2) j).toList) := by
      rw [joined_of_lt (by omega), joined_of_lt (by omega), String.toList_append,
        String.toList_append]
    rw [hsplit, List.mem_append, List.mem_append, not_or, not_or] at hcolon
    have hdot : At s.tokens (i + 1) .dot := by
      refine hmark.resolve_right fun hmark => hcolon.2.1 ?_
      rw [h.mark hmark rfl]
      exact List.mem_singleton_self _
    obtain ⟨names, hchain, hnames⟩ := ih hcolon.2.2 hname rfl
    refine ⟨_, .cons hfirst hdot hchain, ?_⟩
    rw [List.forall_mem_cons, hnames, isIdentifier_iff (h.name hfirst), hsplit, h.mark hdot rfl]
    simp

end

end

end Sheet

/-! ## Lowering -/

namespace Lowering

/-- What is written for the name of a tag: a string that holds it, or the names in it, of which the
first may be imported. -/
inductive TagWritten (c : Scene) (start stop : Nat) : List Edit → Prop where
  | string (hplain : Grammar.isComponentTag (c.sheet.joined start stop) = false)
      (hvalue : Text.Literal.value? (Text.quoted (c.sheet.joined start stop)).toList =
        some (Text.utf16 (c.sheet.joined start stop).toList)) :
      TagWritten c start stop
        (.token start (.replace (Text.quoted (c.sheet.joined start stop))) "" [] false ::
          noted .remove true (start + 1) stop)
  | names {names : List String} {action : Action}
      (hcomponent : Grammar.isComponentTag (c.sheet.joined start stop) = true)
      (hchain : c.sheet.Chain start stop names)
      (hnames : (∀ name ∈ names, Name.isIdentifier name = true) ↔
        '-' ∉ (c.sheet.joined start stop).toList)
      (haction : action = .copy ∨
        ∃ code, c.replacement? (c.sheet.textAt start) = some code ∧ action = .replace code) :
      TagWritten c start stop
        (.token start action "" [] false :: noted .copy false (start + 1) stop)

/-- The notes begin with a comma. -/
def Separating (notes : List Edit) : Prop :=
  ∃ code rest, notes = .insert code :: rest ∧ code.toList.head? = some ','

/-- The notes begin with the name of a tag, from one index up to another, and a comma after it. -/
def Leading (c : Scene) (start stop : Nat) (notes : List Edit) : Prop :=
  ∃ tag rest, notes = tag ++ rest ∧ TagWritten c start stop tag ∧ Separating rest

/-- The notes are those of a call that takes the place of the current token of an editor, with the
name of a tag as its first argument. -/
def Calling (c : Scene) (e : Editor) (stop : Nat) (notes : List Edit) : Prop :=
  ∃ callee rest, notes =
      .token e.index (.replace (callee ++ "(")) e.lead e.marks e.trimNext :: rest ∧
    Leading c (e.index + 1) stop rest

variable {α : Type} {c : Scene} {k : Knot} {d : Draft} {body : Array Token} {last : Token}
  {i stop : Nat} {notes : List Edit}

theorem Separating.append (h : Separating notes) (more : List Edit) :
    Separating (notes ++ more) := by
  obtain ⟨code, rest, rfl, hcode⟩ := h
  exact ⟨code, rest ++ more, rfl, hcode⟩

theorem Leading.append (h : Leading c i stop notes) (more : List Edit) :
    Leading c i stop (notes ++ more) := by
  obtain ⟨tag, rest, rfl, htag, hrest⟩ := h
  exact ⟨tag, rest ++ more, List.append_assoc .., htag, hrest.append more⟩

theorem append_separating {code : String} (hcode : code.toList.head? = some ',') :
    Notes c d (append code) fun _ notes _ => Separating notes := by
  refine (append_notes code).mono ?_
  rintro _ _ d' ⟨rfl, -⟩
  have hne : ¬ code.isEmpty = true := by
    intro hempty
    rw [String.isEmpty_iff.mp hempty] at hcode
    cases hcode
  exact ⟨code, [], if_neg hne, hcode⟩

theorem Notes.separating {β : Type} {p : Lowering α} {g : α → Lowering β}
    (hp : Notes c d p fun _ notes _ => Separating notes) [∀ a, Follows c (g a)] :
    Notes c d (p >>= g) fun _ notes _ => Separating notes :=
  hp.andThen fun _ _ _ more _ _ h => h.append more

/-- What is named first in a tag is not called, and so it becomes the member that it stands for. -/
theorem nameCode?_of_headed (htitled : Titled c.sheet.tokens) (h : Headed c.sheet.tokens i stop)
    {code : String} (hcode : c.nameCode? i = some code) :
    c.replacement? (c.sheet.textAt i) = some code := by
  obtain ⟨t, ht, hkind⟩ := h.name.first
  have hnext : ∃ k, At c.sheet.tokens (i + 1) k ∧
      k ∈ [Kind.dot, .colon, .jsxName, .braceL, .slash, .jsxTagEnd] := by
    cases h.name.parts with
    | nil =>
      obtain ⟨k, hk, hmem⟩ := h.next
      refine ⟨k, hk, ?_⟩
      simp only [List.mem_cons] at hmem ⊢
      tauto
    | cons hmark => exact hmark.elim (⟨_, ·, by decide⟩) (⟨_, ·, by decide⟩)
  have huncalled : isCalledAt c.sheet i = false := by
    obtain ⟨k, hk, hmem⟩ := hnext
    have hno : ∀ mark ∈ [Kind.parenL, .questionDot, .backQuote], ∀ ks,
        c.sheet.hasKinds (i + 1) (mark :: ks) = false := by
      intro mark hmark ks
      rw [← Bool.not_eq_true, Sheet.hasKinds_cons_iff]
      rintro ⟨hat, -⟩
      rw [hk.kind_eq hat] at hmem
      exact (by decide : ∀ k ∈ [Kind.parenL, .questionDot, .backQuote],
        k ∉ [Kind.dot, .colon, .jsxName, .braceL, .slash, .jsxTagEnd]) mark hmark hmem
    simp [isCalledAt, hno]
  rcases htitled.role ht hkind with hrole | hrole
  · simp [Scene.nameCode?, Sheet.token?, ht, hrole] at hcode
  · rw [Compile.nameCode?_eq ht (.inl hrole), Option.ite_none_left_eq_some,
      Option.map_eq_some_iff] at hcode
    obtain ⟨-, member, hmember, rfl⟩ := hcode
    rw [Compile.referenceCode, if_neg (by simp [hrole]), huncalled, if_neg Bool.false_ne_true]
    simpa [Sheet.textAt, ht] using hmember

section

variable (hwhole : c.sheet.Whole body last) (hspelled : c.sheet.Spelled)
  (htitled : Titled c.sheet.tokens)
include hwhole hspelled htitled

theorem tagName_notes (hheaded : Headed c.sheet.tokens i stop) (h : d.Clear i) :
    Notes c d tagName fun _ notes d' => TagWritten c i stop notes ∧ d'.Clear stop := by
  obtain ⟨k, hk, hkind⟩ := hheaded.next
  have hstop : stop < body.size := by
    refine hwhole.lt_of_at hk ?_
    rintro rfl
    exact absurd hkind (by decide)
  have hsize := hwhole.size_tokens
  have hlt := hheaded.name.lt
  refine .look (c.sheet.hasKinds i [.jsxName]) (by rw [← h.index]; rfl) ?_
  rw [if_neg (by simp [Sheet.hasKinds_one_iff.mpr hheaded.name.first])]
  refine .look c.sheet rfl (.look i (by rw [← h.index]; rfl) ?_)
  extract_lets stop' written
  have hend : stop' = stop := afterTagName_eq hheaded.name.parts hheaded.next (by omega)
  have hwritten : written = c.sheet.joined i stop := by rw [← hend]; rfl
  rw [hend, hwritten]
  split
  · rename_i hcomponent
    have hcolon : ':' ∉ (c.sheet.joined i stop).toList := by
      intro hcolon
      simp [Grammar.isComponentTag, hcolon] at hcomponent
    obtain ⟨names, hchain, hnames⟩ := hspelled.chain hheaded.name hcolon
    refine (name_notes hwhole h (by omega)).bind ?_
    rintro _ _ d' ⟨rfl, hclear⟩
    refine (whileBelow_notes hwhole hclear hlt (Nat.le_of_lt hstop)).mono ?_
    rintro _ _ d'' ⟨rfl, hclear'⟩
    refine ⟨.names hcomponent hchain hnames ?_, hclear'⟩
    cases hcode : c.nameCode? i with
    | none => exact .inl rfl
    | some code => exact .inr ⟨code, nameCode?_of_headed htitled hheaded hcode, rfl⟩
  · rename_i hplain
    refine (clear_notes hwhole h (by omega) (.replace _) false).bind ?_
    rintro _ _ d' ⟨rfl, hclear⟩
    refine (whileBelow_notes hwhole hclear hlt (Nat.le_of_lt hstop)).mono ?_
    rintro _ _ d'' ⟨rfl, hclear'⟩
    exact ⟨.string (Bool.eq_false_iff.mpr hplain) (hspelled.quoted hheaded.name).2, hclear'⟩

/-- A name that is the first argument, before others. -/
theorem leading_notes {p : Lowering α} (hheaded : Headed c.sheet.tokens i stop) (h : d.Clear i)
    (hp : ∀ d', Notes c d' p fun _ notes _ => Separating notes) :
    Notes c d (tagName >>= fun _ => p) fun _ notes _ => Leading c i stop notes := by
  refine (tagName_notes hwhole hspelled htitled hheaded h).bind ?_
  rintro _ tag d' ⟨htag, -⟩
  exact (hp d').mono fun _ rest _ hrest => ⟨tag, rest, rfl, htag, hrest⟩

end

/-! ## Elements -/

section

set_option synthInstance.maxSize 10000

variable [k.Following c] [c.Lowers]

omit [k.Following c] [c.Lowers] in
theorem not_fragment (h : Headed c.sheet.tokens i stop) :
    ¬ c.sheet.hasKinds i [.jsxTagEnd] = true := by
  rw [Sheet.hasKinds_one_iff]
  exact fun hend => Kind.noConfusion (h.name.first.kind_eq hend)

theorem classicProps_separating :
    Notes c d (classicProps k) fun _ notes _ => Separating notes := by
  refine .still fun attributes d' _ => .look c.options rfl ?_
  split
  · exact append_separating rfl
  · exact (append_separating rfl).separating
  · split
    · refine (append_separating ?_).separating
      rw [String.toList_append, String.toList_append]
      rfl
    · exact (append_separating rfl).separating
  · exact (append_separating rfl).separating

variable (hwhole : c.sheet.Whole body last) (hspelled : c.sheet.Spelled)
  (htitled : Titled c.sheet.tokens)
include hwhole hspelled htitled

omit [k.Following c] [c.Lowers] hspelled htitled in
/-- What calls a function with the name of a tag begins like this. -/
theorem calling_notes {p : Lowering α} {callee : String}
    (hheaded : Headed c.sheet.tokens (d.editor.index + 1) stop)
    (hp : ∀ d', d'.Clear (d.editor.index + 1) →
      Notes c d' p fun _ notes _ => Leading c (d.editor.index + 1) stop notes) :
    Notes c d (replace (callee ++ "(") >>= fun _ => p) fun _ notes _ =>
      Calling c d.editor stop notes := by
  have hlt := hwhole.lt_of_at hheaded.name.first (by decide)
  refine (edit_notes hwhole (by omega) (.replace (callee ++ "(")) false).bind ?_
  rintro _ _ d' ⟨rfl, -, hclear⟩
  exact (hp d' (hclear (.inl rfl))).mono fun _ rest _ hrest => ⟨callee, rest, rfl, hrest⟩

theorem classicElement_calling (hheaded : Headed c.sheet.tokens (d.editor.index + 1) stop)
    (pragmas : Pragmas) : Notes c d (classicElement k pragmas) fun _ notes _ =>
      Calling c d.editor stop notes := by
  refine calling_notes hwhole hheaded fun d' hclear => ?_
  refine .look (c.sheet.hasKinds (d.editor.index + 1) [.jsxTagEnd]) (by rw [← hclear.index]; rfl) ?_
  rw [if_neg (not_fragment hheaded)]
  exact leading_notes hwhole hspelled htitled hheaded hclear fun d' =>
    classicProps_separating.separating

theorem automaticTag_leading (hheaded : Headed c.sheet.tokens i stop) (h : d.Clear i)
    (runtime : String) :
    Notes c d (automaticTag k runtime) fun _ notes _ => Leading c i stop notes := by
  refine .look (c.sheet.hasKinds i [.jsxTagEnd]) (by rw [← h.index]; rfl) ?_
  rw [if_neg (not_fragment hheaded)]
  refine leading_notes hwhole hspelled htitled hheaded h fun d' => ?_
  exact .still fun attributes _ _ => (append_separating rfl).separating

theorem automaticCall_calling (hheaded : Headed c.sheet.tokens (d.editor.index + 1) stop)
    (hasChildren isStatic : Bool) : Notes c d (automaticCall k hasChildren isStatic)
      fun _ notes _ => Calling c d.editor stop notes := by
  refine .look c rfl (.look (d.editor.current c.sheet) rfl ?_)
  refine .still fun runtime d' heq => ?_
  rw [← heq] at hheaded ⊢
  refine calling_notes hwhole hheaded fun d'' hclear => ?_
  exact (automaticTag_leading hwhole hspelled htitled hheaded hclear runtime).andThen
    fun _ _ _ more _ _ h => h.append more

omit [k.Following c] [c.Lowers] hwhole hspelled htitled in
/-- Only what has a shape is lowered as an element. -/
theorem shape_of_element {d' : Draft} (h : element k c d = .ok ((), d')) :
    (d.editor.current c.sheet).shape.isSome = true := by
  unfold element at h
  rw [run_look c rfl, run_look (d.editor.current c.sheet) rfl] at h
  cases hshape : (d.editor.current c.sheet).shape with
  | none =>
    rw [hshape] at h
    cases h
  | some shape => rfl

/-- An element with a name becomes a call with that name as its first argument. -/
theorem element_calling (hheaded : Headed c.sheet.tokens (d.editor.index + 1) stop) :
    Notes c d (element k) fun _ notes _ => Calling c d.editor stop notes := by
  refine .look c rfl (.look (d.editor.current c.sheet) rfl ?_)
  split
  · exact .of_error rfl
  · split
    · exact classicElement_calling hwhole hspelled htitled hheaded _
    · split
      · refine .still fun base d' heq => ?_
        rw [← heq] at hheaded ⊢
        exact classicElement_calling hwhole hspelled htitled hheaded _
      · exact automaticCall_calling hwhole hspelled htitled hheaded _ _

end

end Lowering

/-! ## Snippets -/

namespace Compile

open Lowering (Calling element nested)

variable {text : List Char} {options : CompileOptions} {stream : TokenStream} {i : Nat}

theorem prepare_spelled (hparse : parse text options.dialect = .ok (.ok stream)) :
    (prepare text stream options).1.sheet.Spelled := by
  obtain ⟨f, hf, hsheet⟩ := prepare_tokens text stream options
  intro i t ht
  rw [hsheet] at ht ⊢
  obtain ⟨u, hu, rfl⟩ := Marking.getElem? ht
  rw [hf.kind, Token.text, hf.span]
  exact parse_spells hparse (Array.mem_of_getElem? hu)

theorem prepare_titled (hparse : parse text options.dialect = .ok (.ok stream)) :
    Titled (prepare text stream options).1.sheet.tokens := by
  obtain ⟨f, hf, hsheet⟩ := prepare_tokens text stream options
  have hext := hf.tokens_extend stream.tokens
  have htitled := parse_titled hparse
  rw [hsheet]
  constructor
  · intro i t ht hshape
    obtain ⟨u, hu, rfl⟩ := Marking.getElem? ht
    rw [hf.shape] at hshape
    exact (htitled.tag hu hshape).imp (·.mono hext) fun ⟨n, hheaded⟩ => ⟨n, hheaded.mono hext⟩
  · intro i t ht hkind
    obtain ⟨u, hu, rfl⟩ := Marking.getElem? ht
    rw [hf.role]
    exact htitled.role hu ((hf.kind _ _).symm.trans hkind)

/-- An element with a name becomes a call whose first argument stands for the name. It is a string
that holds the name as it is written, or the names in it with dots between them, of which the first
may be replaced by the member of a module that it stands for. These are identifiers just if there is
no hyphen in the name. -/
theorem tag_names_written (hparse : parse text options.dialect = .ok (.ok stream))
    (hjsx : Transform.jsx ∈ options.transforms) (hruntime : options.jsxRuntime ≠ .preserve)
    (hname : At stream.tokens (i + 1) .jsxName) {n : Nat} {d d' : Lowering.Draft}
    (hd : d.editor.index = i)
    (hrun : element (nested n) (prepare text stream options).1 d = .ok ((), d')) :
    ∃ stop notes, Headed stream.tokens (i + 1) stop ∧
      d'.editor.log.toList = d.editor.log.toList ++ notes ∧
      Calling (prepare text stream options).1 d.editor stop notes := by
  subst hd
  obtain ⟨f, hf, hsheet⟩ := prepare_tokens text stream options
  obtain ⟨-, body, last, hwhole⟩ := prepare_whole hparse
  have hlowers : (prepare text stream options).1.Lowers :=
    ⟨by simp [prepare, CompileOptions.has, hjsx, hruntime]⟩
  obtain ⟨t, ht⟩ : ∃ t, stream.tokens[d.editor.index]? = some t :=
    ⟨_, Array.getElem?_eq_getElem (Nat.lt_of_succ_lt hname.lt_size)⟩
  have ht' : (prepare text stream options).1.sheet.tokens[d.editor.index]? =
      some (f d.editor.index t) := by
    simp [hsheet, ht]
  have hshape : t.shape.isSome = true := by
    rw [← hf.shape d.editor.index, ← Editor.current_of ht']
    exact Lowering.shape_of_element hrun
  rcases (parse_titled hparse).tag ht hshape with hend | ⟨stop, hheaded⟩
  · cases hname.kind_eq hend
  · have hheaded' := hheaded.mono (hf.tokens_extend stream.tokens)
    rw [← show (prepare text stream options).1.sheet.tokens = stream.tokens.mapIdx f from
      congrArg Sheet.tokens hsheet] at hheaded'
    obtain ⟨notes, hnotes, hcalling⟩ := Lowering.element_calling hwhole (prepare_spelled hparse)
      (prepare_titled hparse) hheaded' () d' hrun
    exact ⟨stop, notes, hheaded, hnotes, hcalling⟩

/-- A member of an imported name, with a hyphen in it, in the classic runtime. -/
theorem tag_names_written_member :
    let text := "import \x7b A \x7d from 'm';\n<A.b-c />".toList
    let options : CompileOptions := { transforms := [.jsx, .imports] }
    ∃ stream d d' stop notes, parse text options.dialect = .ok (.ok stream) ∧
      element (nested 2) (prepare text stream options).1 d = .ok ((), d') ∧
      Headed stream.tokens 8 stop ∧ d'.editor.log.toList = d.editor.log.toList ++ notes ∧
      Calling (prepare text stream options).1 d.editor stop notes := by
  intro text options
  let start (stream : TokenStream) : Lowering.Draft :=
    { (prepare text stream options).2 with editor := { index := 7 } }
  obtain ⟨stream, hparse, hname, hsome⟩ : ∃ stream,
      parse text options.dialect = .ok (.ok stream) ∧ At stream.tokens 8 .jsxName ∧
      (element (nested 2) (prepare text stream options).1 (start stream)).toOption.isSome :=
    exists_accepted (by decide +kernel)
  obtain ⟨result, hsome⟩ := Option.isSome_iff_exists.mp hsome
  have hrun := toOption_eq_some_iff.mp hsome
  obtain ⟨stop, notes, hheaded, hnotes, hcalling⟩ :=
    tag_names_written hparse (by decide) (by decide) hname rfl hrun
  exact ⟨stream, start stream, result.2, stop, notes, hparse, hrun, hheaded, hnotes, hcalling⟩

/-- A name with a hyphen may become another expression than a string or identifiers with dots. -/
theorem hyphenated_tag_left : ¬ ∀ (text : List Char) (options : CompileOptions)
    (stream : TokenStream) (out : Compiled), Transform.jsx ∈ options.transforms →
    options.jsxRuntime ≠ .preserve → parse text options.dialect = .ok (.ok stream) →
    compile text options = .ok out → ∀ (i stop : Nat) (t : Token), stream.tokens[i]? = some t →
    t.shape.isSome = true → Headed stream.tokens (i + 1) stop →
    ("(" ++ Text.quoted ((⟨text, stream.tokens⟩ : Sheet).joined (i + 1) stop) ++ ",").toList <:+:
        out.code.toList ∨
      ∃ names, (⟨text, stream.tokens⟩ : Sheet).Chain (i + 1) stop names ∧
        ∀ name ∈ names, Name.isIdentifier name = true := by
  intro h
  obtain ⟨stream, d, out, hyields, ⟨t, ht, hshape⟩, hname, hslash, htext, hlost⟩ :
      ∃ stream d out, Yields "<A-b />".toList { transforms := [.jsx] } stream d out ∧
      (∃ t ∈ stream.tokens[0]?, t.shape.isSome = true) ∧ At stream.tokens 1 .jsxName ∧
      At stream.tokens 2 .slash ∧
      (⟨"<A-b />".toList, stream.tokens⟩ : Sheet).textAt 1 = "A-b" ∧
      ¬ "('A-b',".toList <:+: out.code.toList :=
    exists_yielded (by decide +kernel)
  have hheaded : Headed stream.tokens 1 2 := ⟨⟨hname, .nil _⟩, .slash, hslash, by decide⟩
  have hjoined : (⟨"<A-b />".toList, stream.tokens⟩ : Sheet).joined 1 2 = "A-b" := by
    rw [Sheet.joined_of_lt (by decide), Sheet.joined_self, htext]
    rfl
  rcases h _ _ stream out (by decide) (by decide) hyields.parsed hyields.compile 0 2 t ht hshape
    hheaded with hstring | ⟨names, hchain, hnames⟩
  · rw [hjoined] at hstring
    exact hlost hstring
  · cases hchain with
    | one =>
      have hpart := hnames _ (List.mem_singleton_self _)
      rw [htext] at hpart
      have hhyphen := Name.isPart_marks '-' (by decide)
      simp [Name.isIdentifier, hhyphen] at hpart
    | cons _ hdot => cases hdot.kind_eq hslash

/-- The tags of an element that stays may no longer match. -/
theorem closing_name_left : ¬ ∀ (text : List Char) (options : CompileOptions) (out : Compiled),
    Transform.imports ∈ options.transforms →
    (Transform.jsx ∉ options.transforms ∨ options.jsxRuntime = .preserve) →
    compile text options = .ok out → ∀ opened closed : String,
    (rejected? out.code.toList options.dialect).map (·.cause) ≠
      some (.mismatchedClosingTag opened closed) := by
  intro h
  obtain ⟨out, hcompile, hlost⟩ : ∃ out, compile
      "import \x7b Foo \x7d from 'x';\n<Foo></Foo>;".toList { transforms := [.imports] } = .ok out ∧
        (rejected? out.code.toList {}).map (·.cause) =
          some (.mismatchedClosingTag "x$0.Foo" "Foo") :=
    exists_compiled (by decide +kernel)
  exact h _ { transforms := [.imports] } out (by decide) (.inl (by decide)) hcompile _ _ hlost

end Compile

end Downlevel
