import Downlevel.Proofs.Compile.Statements
import Downlevel.Proofs.Grammar.Spelled
import Downlevel.Proofs.Lowering.Notes

/-!
# Members of enumerations

An enumeration becomes a function that assigns its members in their order, and one without an
initializer gets the value of the one before and one more (`enumeration_assigned`). A member whose
name is an identifier is also declared as a constant of that name. No heed is paid to what the name
is: a reserved word makes no constant (`reserved_member_declared`).
-/

namespace Downlevel

open Token (At Sided)

/-! ## Names of constants -/

/-- A text that is read as one plain name. -/
def Lexeme.IsName (word : String) : Prop :=
  ∃ l, read word.toList = .lexeme l ∧ l.kind = .name ∧ l.length = word.length

namespace Lexeme

/-- A word is read as a whole, and it is a plain name unless it is reserved. -/
theorem isName_iff {word : String} (h : Text.Worded isNameStart isNamePart word.toList) :
    IsName word ↔ word ∉ Kind.reservedWords.map (·.1) := by
  obtain ⟨c, rest, hword, hstart, hrest⟩ := h
  have hpart : isNamePart c = true := by rw [isNamePart, hstart, Bool.true_or]
  have hall : word.toList.takeWhile isNamePart = word.toList := by
    rw [List.takeWhile_eq_self_iff, hword]
    exact List.forall_mem_cons.mpr ⟨hpart, hrest⟩
  have hread : read word.toList = .lexeme (name word.toList) := by
    have hread := @read_word [] word.toList ⟨c, rest, hword, hstart, hrest⟩ (by simp)
    rwa [List.append_nil] at hread
  have hname : name word.toList =
      { kind := (classify word).1, keyword := (classify word).2, length := word.length } := by
    unfold name
    rw [hall]
    dsimp only
    rw [String.ofList_toList]
    rfl
  rw [← classify_name_iff, IsName, hread, hname]
  constructor
  · rintro ⟨l, ⟨⟩, hkind, -⟩
    exact hkind
  · exact fun hkind => ⟨_, rfl, hkind, rfl⟩

/-- An identifier is a word: beyond the basic characters all may stand in one. -/
theorem worded_of_isIdentifier {word : String} (h : Name.isIdentifier word = true) :
    Text.Worded isNameStart isNamePart word.toList := by
  have hhigh : ∀ {c : Char}, ¬ c.toNat < 128 → isNameStart c = true := by
    intro c hc
    simp only [isNameStart, Bool.or_eq_true, decide_eq_true_eq]
    exact .inr (Nat.le_of_not_lt hc)
  unfold Name.isIdentifier at h
  split at h
  · cases h
  · rename_i c rest hword
    rw [Bool.and_eq_true, List.all_eq_true] at h
    refine ⟨c, rest, hword, ?_, fun d hd => ?_⟩
    · by_cases hc : c.toNat < 128
      · rw [Text.isAlphabetic_of_lt hc] at h
        rw [isNameStart, h.1, Bool.true_or]
      · exact hhigh hc
    · by_cases hlow : d.toNat < 128
      · have hpart := h.2 d hd
        rw [Name.isPart, Text.isAlphanumeric, Text.isAlphabetic_of_lt hlow,
          Text.isNumeric_of_lt hlow] at hpart
        simp only [isNamePart, isNameStart, Bool.or_eq_true] at hpart ⊢
        rcases hpart with ((hpart | hpart) | hpart) | hpart <;> simp only [hpart, true_or, or_true]
      · rw [isNamePart, hhigh hlow, Bool.true_or]

end Lexeme

namespace Lowering

/-! ## What is written -/

/-- The name of the member at an index, without quotes. -/
def Scene.memberText (c : Scene) (i : Nat) : String :=
  if c.sheet.kindAt i == .string then String.ofList (Text.unquoted (c.sheet.textAt i).toList)
  else c.sheet.textAt i

/-- How the member at an index is written, and the constant that is declared for it. -/
def Scene.memberAt (c : Scene) (i : Nat) : MemberName :=
  let text := c.sheet.textAt i
  if c.sheet.kindAt i == .string then
    let inner := String.ofList (Text.unquoted text.toList)
    { code := text, constant := if Name.isIdentifier inner then some inner else none }
  else { code := "\"" ++ text ++ "\"", constant := some text }

namespace MemberName

variable (m : MemberName) (enumeration : String)

/-- How the value of a member is written. -/
def reference : String := m.constant.getD (enumeration ++ "[" ++ m.code ++ "]")

/-- The code before an initializer: it declares a constant, or assigns the member. -/
def opening : String :=
  m.constant.elim (enumeration ++ "[" ++ enumeration ++ "[" ++ m.code ++ "]") ("const " ++ ·)

/-- The code after an initializer, which assigns the member and maps it back. -/
def closing : String :=
  m.constant.elim ("] = " ++ m.code ++ ";") fun constant =>
    "; " ++ enumeration ++ "[" ++ enumeration ++ "[" ++ m.code ++ "] = " ++ constant ++ "] = " ++
      m.code ++ ";"

/-- The code before a string. -/
def stringOpening : String :=
  m.constant.elim (enumeration ++ "[" ++ m.code ++ "]") ("const " ++ ·)

/-- The code after a string, which assigns the member. -/
def stringClosing : String :=
  m.constant.elim ";" fun constant =>
    "; " ++ enumeration ++ "[" ++ m.code ++ "] = " ++ constant ++ ";"

/-- The notes that assign a value to a member and map it back. -/
def assigned (value : String) : List Edit :=
  m.constant.elim [] (fun constant => inserted ("const " ++ constant ++ " = " ++ value ++ "; ")) ++
    inserted (enumeration ++ "[" ++ enumeration ++ "[" ++ m.code ++ "] = " ++
      m.constant.getD value ++ "] = " ++ m.code ++ ";")

end MemberName

/-- The value of a member without an initializer, behind one whose value is written so: one more, or
zero for the first. -/
def countedValue (previous : Option String) : String := previous.elim "0" (· ++ " + 1")

/-- What is written for the member at `i` and its value, which ends before `r`. -/
inductive MemberWritten (c : Scene) (k : Knot) (enumeration : String) (previous : Option String)
    (i : Nat) : Nat → List Edit → Prop where
  | string (heq : At c.sheet.tokens (i + 1) .eq) (hvalue : At c.sheet.tokens (i + 2) .string) :
      MemberWritten c k enumeration previous i (i + 3)
        (inserted ((c.memberAt i).stringOpening enumeration) ++
          noted .copy false (i + 1) (i + 3) ++
          inserted ((c.memberAt i).stringClosing enumeration))
  | initialized {r : Nat} {t : Token} {inner : List Edit} (heq : c.sheet.tokens[i + 1]? = some t)
      (hkind : t.kind = .eq) (hstop : t.rhsEnd = some r)
      (hinner : Walked c k false (i + 2) r inner) :
      MemberWritten c k enumeration previous i r
        (inserted ((c.memberAt i).opening enumeration) ++
          .token (i + 1) .copy "" [] false :: (inner ++
          inserted ((c.memberAt i).closing enumeration)))
  | counted (hno : ¬ At c.sheet.tokens (i + 1) .eq) :
      MemberWritten c k enumeration previous i (i + 1)
        ((c.memberAt i).assigned enumeration (countedValue previous))

/-- The comma after a member goes. -/
inductive CommaGone (c : Scene) : Nat → Nat → List Edit → Prop where
  | comma {j : Nat} (lead : String) (marks : List Nat) (hcomma : At c.sheet.tokens j .comma) :
      CommaGone c j (j + 1) [.token j .remove lead marks true]
  | none {j : Nat} (hend : At c.sheet.tokens j .braceR) : CommaGone c j j []

/-- What is written for the members from `i` up to the closing brace, with the indices of their
names. -/
inductive MembersWritten (c : Scene) (k : Knot) (enumeration : String) :
    Option String → Nat → List Nat → Nat → List Edit → Prop where
  | nil {previous : Option String} {i : Nat} (hend : At c.sheet.tokens i .braceR) :
      MembersWritten c k enumeration previous i [] i []
  | cons {previous : Option String} {i r l stop : Nat} {members : List Nat}
      {member comma rest : List Edit} (lead : String) (marks : List Nat) (trim : Bool)
      (hmember : MemberWritten c k enumeration previous i r member) (hcomma : CommaGone c r l comma)
      (hrest : MembersWritten c k enumeration (some ((c.memberAt i).reference enumeration)) l
        members stop rest) :
      MembersWritten c k enumeration previous i (i :: members) stop
        (.token i (.replace "") lead marks trim :: (member ++ comma ++ rest))

/-- What is written for the enumeration that starts at an index, with the word `enum` at `w` and the
closing brace at `stop`. -/
inductive EnumerationWritten (c : Scene) (k : Knot) (start w : Nat) (members : List Nat)
    (stop : Nat) : List Edit → Prop where
  | intro {body : List Edit} (lead lead' : String) (marks marks' : List Nat) (trim trim' : Bool)
      (hmembers : MembersWritten c k (c.sheet.textAt (w + 1)) none (w + 3) members stop body) :
      EnumerationWritten c k start w members stop
        (.token start (.replace "") lead marks trim :: (noted .remove true (start + 1) (w + 2) ++
          (inserted ("var " ++ c.sheet.textAt (w + 1) ++ "; (function (" ++
            c.sheet.textAt (w + 1) ++ ")") ++
          .token (w + 2) .copy "" [] false :: (body ++ .token stop .copy lead' marks' trim' ::
          inserted (")(" ++ c.sheet.textAt (w + 1) ++ " || (" ++ c.sheet.textAt (w + 1) ++
            " = \x7b\x7d));")))))

variable {c : Scene} {k : Knot} {d : Draft} {body : Array Token} {last : Token} {i j r stop : Nat}
  {enumeration : String} {previous : Option String} {members : List Nat}

/-! ## Lowering -/

theorem memberName_eq {t : Token} (ht : c.sheet.tokens[d.editor.index]? = some t) :
    memberName c d = .ok (c.memberAt d.editor.index, d) := by
  have hcurrent : (d.editor.current c.sheet).kind = c.sheet.kindAt d.editor.index := by
    rw [Editor.current_of ht, Sheet.kindAt_of_at ⟨t, ht, rfl⟩]
  unfold memberName Scene.memberAt
  rw [run_look _ rfl, run_look _ rfl, hcurrent]
  split
  · rfl
  · rfl

section

variable (hwhole : c.sheet.Whole body last)
include hwhole

/-- The code before a string, the `=` and the string, and the code after it. -/
theorem copied_notes {before after : String} (h : d.Clear i) (heq : At c.sheet.tokens i .eq)
    (hvalue : At c.sheet.tokens (i + 1) .string) :
    Notes c d (do append before; copy; copy; append after) fun _ notes d' =>
      notes = inserted before ++ noted .copy false i (i + 2) ++ inserted after ∧
        d'.Clear (i + 2) := by
  have hlt := hwhole.lt_of_at heq (by decide)
  have hlt' := hwhole.lt_of_at hvalue (by decide)
  refine (append_notes before).bind ?_
  rintro _ _ d₁ ⟨rfl, -, hclear⟩
  refine (clear_notes hwhole (hclear i h) hlt .copy false).bind ?_
  rintro _ _ d₂ ⟨rfl, hclear⟩
  refine (clear_notes hwhole hclear hlt' .copy false).bind ?_
  rintro _ _ d₃ ⟨rfl, hclear⟩
  refine (append_notes after).mono ?_
  rintro _ _ d₄ ⟨rfl, -, hclear'⟩
  refine ⟨?_, hclear' _ hclear⟩
  rw [noted_of_lt (by omega), noted_of_lt (by omega), noted_of_le (by omega)]
  simp

theorem stringMember_notes (h : d.Clear i) (heq : At c.sheet.tokens i .eq)
    (hvalue : At c.sheet.tokens (i + 1) .string) (m : MemberName) :
    Notes c d (stringMember enumeration m) fun _ notes d' =>
      notes = inserted (m.stringOpening enumeration) ++ noted .copy false i (i + 2) ++
        inserted (m.stringClosing enumeration) ∧ d'.Clear (i + 2) := by
  unfold stringMember MemberName.stringOpening MemberName.stringClosing
  split
  · rename_i constant hconstant
    rw [hconstant]
    exact copied_notes hwhole h heq hvalue
  · rename_i hconstant
    rw [hconstant]
    exact copied_notes hwhole h heq hvalue

omit hwhole in
theorem countedMember_notes (m : MemberName) :
    Notes c d (countedMember enumeration m previous) fun _ notes d' =>
      notes = m.assigned enumeration (countedValue previous) ∧
        d'.editor.index = d.editor.index := by
  unfold countedMember MemberName.assigned
  extract_lets value rest
  have hvalue : value = countedValue previous := by cases previous <;> rfl
  unfold rest
  rw [hvalue]
  split
  · rename_i constant hconstant
    refine (append_notes _).bind ?_
    rintro _ _ d₁ ⟨rfl, hindex, -⟩
    refine (append_notes _).mono ?_
    rintro _ _ d₂ ⟨rfl, hindex', -⟩
    rw [hconstant]
    exact ⟨rfl, hindex'.trans hindex⟩
  · rename_i hconstant
    refine (append_notes _).mono ?_
    rintro _ _ d₁ ⟨rfl, hindex, -⟩
    rw [hconstant]
    exact ⟨rfl, hindex⟩

theorem comma_notes {α : Type} {a : α} (h : Separated c.sheet.tokens r j)
    (hd : d.editor.index = r) : Notes c d (do
      if ← seeing [.comma] then remove
      return a) fun b notes d' => b = a ∧ CommaGone c r j notes ∧ d'.editor.index = j := by
  subst hd
  refine .look (c.sheet.hasKinds d.editor.index [.comma]) rfl ?_
  rcases h with ⟨hcomma, rfl⟩ | ⟨hend, rfl⟩
  · rw [if_pos (Sheet.hasKinds_one_iff.mpr hcomma)]
    refine (edit_notes hwhole (hwhole.lt_of_at hcomma (by decide)) .remove true).bind ?_
    rintro _ _ d' ⟨rfl, hindex, -⟩
    exact .pure ⟨rfl, .comma _ _ hcomma, hindex⟩
  · rw [if_neg]
    · exact .pure ⟨rfl, .none hend, rfl⟩
    · rw [Sheet.hasKinds_one_iff]
      exact fun hcomma => Kind.noConfusion (hcomma.kind_eq hend)

variable [k.Following c]

omit hwhole in
theorem upTo_notes (h : d.Clear i) (hinit : Passes c i (upTo r k.token) r) :
    Notes c d (upTo r k.token) fun _ notes d' =>
      Walked c k false i r notes ∧ d'.editor.index = r := by
  intro _ d' hrun
  obtain ⟨notes, hwalked, hnotes⟩ := walked h.lead h.marks hrun
  obtain ⟨_, d'', hrun', -, hindex⟩ := hinit d h.index
  cases hrun.symm.trans hrun'
  rw [h.index, h.trim] at hwalked
  exact ⟨notes, hnotes, hwalked, hindex⟩

/-- The code before an initializer, the `=`, what becomes of the initializer, and the code after
it. -/
theorem wrapped_notes {before after : String} (h : d.Clear i) (heq : At c.sheet.tokens i .eq)
    (hinit : Passes c (i + 1) (upTo r k.token) r) :
    Notes c d (do append before; copy; upTo r k.token; append after) fun _ notes d' =>
      ∃ inner, notes = inserted before ++ .token i .copy "" [] false :: (inner ++ inserted after) ∧
        Walked c k false (i + 1) r inner ∧ d'.editor.index = r := by
  refine (append_notes before).bind ?_
  rintro _ _ d₁ ⟨rfl, -, hclear⟩
  refine (clear_notes hwhole (hclear i h) (hwhole.lt_of_at heq (by decide)) .copy false).bind ?_
  rintro _ _ d₂ ⟨rfl, hclear⟩
  refine (upTo_notes hclear hinit).bind ?_
  rintro _ inner d₃ ⟨hinner, hindex⟩
  refine (append_notes after).mono ?_
  rintro _ _ d₄ ⟨rfl, hindex', -⟩
  exact ⟨inner, rfl, hinner, hindex'.trans hindex⟩

theorem initializedMember_notes {t : Token} (h : d.Clear i) (heq : c.sheet.tokens[i]? = some t)
    (hkind : t.kind = .eq) (hstop : t.rhsEnd = some r)
    (hinit : Passes c (i + 1) (upTo r k.token) r) (m : MemberName) :
    Notes c d (initializedMember k enumeration m) fun _ notes d' =>
      ∃ inner, notes = inserted (m.opening enumeration) ++ .token i .copy "" [] false ::
          (inner ++ inserted (m.closing enumeration)) ∧
        Walked c k false (i + 1) r inner ∧ d'.editor.index = r := by
  refine .look (d.editor.current c.sheet) rfl ?_
  rw [Editor.current_of (h.index ▸ heq), hstop]
  unfold MemberName.opening MemberName.closing
  dsimp only
  split
  · rename_i constant hconstant
    rw [hconstant]
    exact wrapped_notes hwhole h ⟨t, heq, hkind⟩ hinit
  · rename_i hconstant
    rw [hconstant]
    exact wrapped_notes hwhole h ⟨t, heq, hkind⟩ hinit

/-- What is written for the value of a member, however it is given. -/
theorem memberValue_notes (h : d.Clear (i + 1)) (hvalue : Initialized c.sheet.tokens i r)
    (hafter : Separated c.sheet.tokens r j)
    (hinit : Site c.sheet.tokens (i + 2) r → Passes c (i + 2) (upTo r k.token) r) :
    Notes c d (memberValue k enumeration (c.memberAt i) previous) fun _ notes d' =>
      MemberWritten c k enumeration previous i r notes ∧ d'.editor.index = r := by
  have hsees : ∀ ks, d.editor.sees c.sheet ks = c.sheet.hasKinds (i + 1) ks :=
    fun ks => by rw [← h.index]; rfl
  refine .look (d.editor.sees c.sheet [.eq, .string, .comma]) rfl ?_
  refine .look (d.editor.sees c.sheet [.eq, .string, .braceR]) rfl ?_
  rw [hsees, hsees]
  cases hvalue with
  | counted =>
    rw [if_neg (by simp [hasKinds_separated hafter])]
    refine .look (c.sheet.hasKinds (i + 1) [.eq]) (by rw [← hsees]; rfl) ?_
    rw [if_neg (by simp [hasKinds_separated hafter])]
    refine (countedMember_notes _).mono ?_
    rintro _ _ d' ⟨rfl, hindex⟩
    refine ⟨.counted fun heq => ?_, hindex.trans h.index⟩
    rw [← Sheet.hasKinds_one_iff, hasKinds_separated hafter] at heq
    cases heq
  | string heq hvalue =>
    rw [if_pos ((hasKinds_string heq).mpr ⟨hvalue, j, hafter⟩)]
    refine (stringMember_notes hwhole h heq hvalue _).mono ?_
    rintro _ _ d' ⟨rfl, hclear⟩
    exact ⟨.string heq hvalue, hclear.index⟩
  | noted heq hkind hstop hsite hno =>
    have hat : At c.sheet.tokens (i + 1) .eq := ⟨_, heq, hkind⟩
    rw [if_neg ((hasKinds_string hat).not.mpr fun h => h.2.elim (hno h.1))]
    refine .look (c.sheet.hasKinds (i + 1) [.eq]) (by rw [← hsees]; rfl) ?_
    rw [if_pos (Sheet.hasKinds_one_iff.mpr hat)]
    refine (initializedMember_notes hwhole h heq hkind hstop (hinit hsite) _).mono ?_
    rintro _ _ d' ⟨inner, rfl, hinner, hindex⟩
    exact ⟨.initialized heq hkind hstop hinner, hindex⟩

theorem enumerationMember_notes (hi : d.editor.index = i) (hlt : i < body.size)
    (hvalue : Initialized c.sheet.tokens i r) (hafter : Separated c.sheet.tokens r j)
    (hinit : Site c.sheet.tokens (i + 2) r → Passes c (i + 2) (upTo r k.token) r) :
    Notes c d (enumerationMember k enumeration previous) fun value notes d' =>
      value = (c.memberAt i).reference enumeration ∧ d'.editor.index = j ∧
        ∃ lead marks trim member comma,
          notes = .token i (.replace "") lead marks trim :: (member ++ comma) ∧
          MemberWritten c k enumeration previous i r member ∧ CommaGone c r j comma := by
  subst hi
  refine .look (c.memberAt d.editor.index) (memberName_eq (hwhole.token?_of_lt hlt)) ?_
  refine (edit_notes hwhole hlt (.replace "") false).bind ?_
  rintro _ _ d₁ ⟨rfl, -, hclear⟩
  refine (memberValue_notes hwhole (hclear (.inl rfl)) hvalue hafter hinit).bind ?_
  rintro _ member d₂ ⟨hmember, hindex⟩
  refine (comma_notes hwhole hafter hindex).mono ?_
  rintro value comma d₃ ⟨rfl, hcomma, hindex'⟩
  exact ⟨rfl, hindex', _, _, _, member, comma, rfl, hmember, hcomma⟩

theorem enumerationMembers_notes {n lo m : Nat} (h : Members c.sheet.tokens i members m)
    (hinit : ∀ p r, lo ≤ p → r ≤ m → Site c.sheet.tokens p r → Passes c p (upTo r k.token) r)
    (hlo : lo ≤ i) (hi : d.editor.index = i) :
    Notes c d (enumerationMembers k enumeration previous n) fun _ notes d' =>
      MembersWritten c k enumeration previous i members m notes ∧ d'.editor.index = m := by
  induction h generalizing d n previous with
  | @nil i hend =>
    obtain _ | n := n
    · exact .of_error rfl
    refine .look (c.sheet.hasKinds i [.braceR]) (by rw [← hi]; rfl) ?_
    rw [if_pos (Sheet.hasKinds_one_iff.mpr hend)]
    exact .pure ⟨.nil hend, hi⟩
  | @cons i _ _ _ _ _ hk hplain hvalue hafter hrest ih =>
    obtain _ | n := n
    · exact .of_error rfl
    have hle := hvalue.code.le
    have hle' := hafter.code.le
    have hle'' := hrest.code.le
    refine .look (c.sheet.hasKinds i [.braceR]) (by rw [← hi]; rfl) ?_
    split
    · rename_i hend
      rw [hk.kind_eq (Sheet.hasKinds_one_iff.mp hend)] at hplain
      exact absurd hplain (by decide)
    refine .look (d.editor.atEnd c.sheet) rfl ?_
    split
    · exact .of_error rfl
    refine (enumerationMember_notes hwhole hi (hwhole.lt_of_at hk hplain.ne_eof) hvalue hafter
      (hinit _ _ (by omega) (by omega))).bind ?_
    rintro _ _ d₁ ⟨rfl, hindex, lead, marks, trim, member, comma, rfl, hmember, hcomma⟩
    refine (ih hinit (by omega) hindex).mono ?_
    rintro _ rest d₂ ⟨hwritten, hindex'⟩
    exact ⟨.cons lead marks trim hmember hcomma hwritten, hindex'⟩

theorem namedEnumeration_notes {w m : Nat} (h : d.Clear (w + 1))
    (hlisting : Listing c.sheet.tokens w members m)
    (hinit : ∀ p r, w < p → r ≤ m → Site c.sheet.tokens p r → Passes c p (upTo r k.token) r) :
    Notes c d (namedEnumeration k) fun _ notes _ =>
      ∃ body lead marks trim,
        notes = .token (w + 1) .remove "" [] true ::
          (inserted ("var " ++ c.sheet.textAt (w + 1) ++ "; (function (" ++
            c.sheet.textAt (w + 1) ++ ")") ++
          .token (w + 2) .copy "" [] false :: (body ++ .token m .copy lead marks trim ::
          inserted (")(" ++ c.sheet.textAt (w + 1) ++ " || (" ++ c.sheet.textAt (w + 1) ++
            " = \x7b\x7d));"))) ∧
        MembersWritten c k (c.sheet.textAt (w + 1)) none (w + 3) members m body := by
  have hlt := hwhole.lt_of_at hlisting.opened (by decide)
  refine .look (c.sheet.textAt (w + 1)) (by rw [← h.index]; rfl) ?_
  refine (clear_notes hwhole h (by omega) .remove true).bind ?_
  rintro _ _ d₁ ⟨rfl, hclear⟩
  refine (append_notes _).bind ?_
  rintro _ _ d₂ ⟨rfl, -, hclear'⟩
  have hclear := hclear' _ hclear
  refine (copyExpected_notes hwhole (by decide)).bind ?_
  rintro _ _ d₃ ⟨rfl, -, hclear₃⟩
  rw [hclear.index, hclear.lead, hclear.marks, hclear.trim]
  rw [hclear.index] at hclear₃
  refine .look _ rfl ?_
  refine (enumerationMembers_notes hwhole hlisting.members hinit (by omega) hclear₃.index).bind ?_
  rintro _ body d₄ ⟨hmembers, rfl⟩
  refine (copyExpected_notes hwhole (by decide)).bind ?_
  rintro _ _ d₅ ⟨rfl, -, -⟩
  refine (append_notes _).mono ?_
  rintro _ _ d₆ ⟨rfl, -, -⟩
  exact ⟨body, _, _, _, rfl, hmembers⟩

/-- An enumeration becomes a function that is called with the object for it. -/
theorem enumeration_notes {w m : Nat}
    (hword : At c.sheet.tokens d.editor.index .kwConst ∧ w = d.editor.index + 1 ∨
      ¬ At c.sheet.tokens d.editor.index .kwConst ∧ w = d.editor.index)
    (hlisting : Listing c.sheet.tokens w members m)
    (hinit : ∀ p r, w < p → r ≤ m → Site c.sheet.tokens p r → Passes c p (upTo r k.token) r) :
    Notes c d (Lowering.enumeration k) fun _ notes _ =>
      EnumerationWritten c k d.editor.index w members m notes := by
  have hlt := hwhole.lt_of_at hlisting.opened (by decide)
  refine .look (c.sheet.hasKinds d.editor.index [.kwConst]) rfl ?_
  rcases hword with ⟨hconst, rfl⟩ | ⟨hconst, rfl⟩
  · rw [if_pos (Sheet.hasKinds_one_iff.mpr hconst)]
    refine (edit_notes hwhole (by omega) (.replace "") false).bind ?_
    rintro _ _ d₁ ⟨rfl, -, hclear⟩
    refine (clear_notes hwhole (hclear (.inl rfl)) (by omega) .remove true).bind ?_
    rintro _ _ d₂ ⟨rfl, hclear⟩
    refine (namedEnumeration_notes hwhole hclear hlisting hinit).mono ?_
    rintro _ _ d₃ ⟨inner, lead, marks, trim, rfl, hmembers⟩
    have hwritten : EnumerationWritten c k d.editor.index (d.editor.index + 1) members m _ :=
      .intro d.editor.lead lead d.editor.marks marks d.editor.trimNext trim hmembers
    rw [noted_of_lt (by omega), noted_of_lt (by omega), noted_of_le (by omega)] at hwritten
    exact hwritten
  · rw [if_neg (Sheet.hasKinds_one_iff.not.mpr hconst)]
    refine (edit_notes hwhole (by omega) (.replace "") false).bind ?_
    rintro _ _ d₁ ⟨rfl, -, hclear⟩
    refine (namedEnumeration_notes hwhole (hclear (.inl rfl)) hlisting hinit).mono ?_
    rintro _ _ d₂ ⟨inner, lead, marks, trim, rfl, hmembers⟩
    have hwritten : EnumerationWritten c k d.editor.index d.editor.index members m _ :=
      .intro d.editor.lead lead d.editor.marks marks d.editor.trimNext trim hmembers
    rw [noted_of_lt (by omega), noted_of_le (by omega)] at hwritten
    exact hwritten

end

end Lowering

/-! ## Snippets -/

namespace Compile

open Lowering (EnumerationWritten isEnumerationAt nested)

variable {text : List Char} {options : CompileOptions} {stream : TokenStream} {i w : Nat}

/-- The constant of a member that is named by a word or a string is a word. -/
theorem worded_member (hparse : parse text options.dialect = .ok (.ok stream))
    (hkind : At stream.tokens i .name ∨ At stream.tokens i .string) {constant : String}
    (hconstant : ((prepare text stream options).1.memberAt i).constant = some constant) :
    Text.Worded Lexeme.isNameStart Lexeme.isNamePart constant.toList := by
  obtain ⟨f, hf, hsheet⟩ := prepare_tokens text stream options
  unfold Lowering.Scene.memberAt at hconstant
  rw [hsheet] at hconstant
  rcases hkind with ⟨t, ht, hname⟩ | hstring
  · have hkind : (⟨text, stream.tokens.mapIdx f⟩ : Sheet).kindAt i = .name :=
      Sheet.kindAt_of_at (hf.at_iff.mpr ⟨t, ht, hname⟩)
    rw [hkind, if_neg (by decide)] at hconstant
    have hword := (parse_spells hparse (Array.mem_of_getElem? ht)).word (by rw [hname]; rfl)
    rw [← Option.some.inj hconstant]
    simpa [Sheet.textAt, ht, Token.text, hf.span] using hword
  · have hkind : (⟨text, stream.tokens.mapIdx f⟩ : Sheet).kindAt i = .string :=
      Sheet.kindAt_of_at (hf.at_iff.mpr hstring)
    rw [hkind, if_pos (by decide)] at hconstant
    dsimp only at hconstant
    split at hconstant
    · rename_i hidentifier
      rw [← Option.some.inj hconstant]
      exact Lexeme.worded_of_isIdentifier hidentifier
    · cases hconstant

theorem constant_eq_memberText {c : Lowering.Scene} {constant : String}
    (h : (c.memberAt i).constant = some constant) : constant = c.memberText i := by
  unfold Lowering.Scene.memberAt at h
  unfold Lowering.Scene.memberText
  split at h <;> rename_i hstring
  · rw [if_pos hstring]
    dsimp only at h
    split at h
    · exact (Option.some.inj h).symm
    · cases h
  · rw [if_neg hstring]
    exact (Option.some.inj h).symm

/-- An enumeration becomes a function that assigns its members in their order. A member without an
initializer gets what the one before has and one more, or zero if it is the first. A constant has
the name of its member, also where that is the name of the enumeration, and it is read as one plain
name just if it is not reserved. -/
theorem enumeration_assigned (hparse : parse text options.dialect = .ok (.ok stream))
    (hregular : Regular text stream options)
    (htypescript : Transform.typescript ∈ options.transforms)
    (henum : isEnumerationAt ⟨text, stream.tokens⟩ i = true)
    (hside : Sided stream.tokens false i) :
    ∃ w members m,
      (At stream.tokens i .kwConst ∧ w = i + 1 ∨ ¬ At stream.tokens i .kwConst ∧ w = i) ∧
      Listing stream.tokens w members m ∧ members.Pairwise (· < ·) ∧
      (∀ (n : Nat) (d : Lowering.Draft), 2 * stream.tokens.size ≤ n → d.editor.index = i →
        ∃ d' notes,
          Lowering.enumeration (nested n) (prepare text stream options).1 d = .ok ((), d') ∧
          d'.editor.index = m + 1 ∧ d'.editor.log.toList = d.editor.log.toList ++ notes ∧
          EnumerationWritten (prepare text stream options).1 (nested n) i w members m notes) ∧
      ∀ x ∈ members, At stream.tokens x .name ∨ At stream.tokens x .string → ∀ constant,
        ((prepare text stream options).1.memberAt x).constant = some constant →
        constant = (prepare text stream options).1.memberText x ∧
        (Lexeme.IsName constant ↔ constant ∉ Kind.reservedWords.map (·.1)) := by
  obtain ⟨f, hf, hmarked⟩ := prepare_marked text stream options
  obtain ⟨body, last, hwhole, hordered⟩ := prepare_ordered hparse hregular
  obtain ⟨j, hj, -⟩ := hregular.listed htypescript i henum hside
  obtain ⟨w, members, m, hword, hlisting, rfl⟩ := hj.listing
  refine ⟨w, members, m, hword, hlisting, hlisting.members.ascending.1, fun n d hn hd => ?_,
    fun x _ hkind constant hconstant => ⟨constant_eq_memberText hconstant,
      Lexeme.isName_iff (worded_member hparse hkind hconstant)⟩⟩
  have henumerates := prepare_enumerates.mpr ⟨htypescript, henum⟩
  have hj' : Enumeration (prepare text stream options).1.sheet.tokens i (m + 1) :=
    hmarked ▸ hf.enumeration hj
  have hlisting' : Listing (prepare text stream options).1.sheet.tokens w members m :=
    hmarked ▸ hf.listing hlisting
  obtain ⟨_, hsame, hquiet⟩ := hordered.listed i henumerates (hmarked ▸ hf.sided_iff.mpr hside)
  obtain rfl := hj'.eq (hordered.undecorated i henumerates) hsame
  have hclose : m < stream.tokens.size := hlisting.members.close.lt_size
  have hthrough : (nested n).Through (prepare text stream options).1 (i + 1) (m + 1) :=
    Lowering.nested_through hwhole hordered stream.tokens.size hn (by omega) hquiet
  have hinit : ∀ p r, i < p → r < m + 1 → Site (prepare text stream options).1.sheet.tokens p r →
      Lowering.Passes (prepare text stream options).1 p (Lowering.upTo r (nested n).token) r :=
    fun p r hp hr hsite => Lowering.upTo_passes hwhole hthrough hsite hp (by omega)
  obtain ⟨_, d', hrun, -, hindex⟩ := Lowering.enumeration_passes hwhole hj' hinit d hd
  subst hd
  obtain ⟨notes, hnotes, hwritten⟩ := Lowering.enumeration_notes hwhole
    (by rw [hmarked, hf.at_iff]; exact hword) hlisting'
    (fun p r hp hr hsite => hinit p r (by omega) (by omega) hsite) () d' hrun
  exact ⟨d', notes, hrun, hindex, hnotes, hwritten⟩

theorem lt_of_isEnumerationAt {s : Sheet} (h : isEnumerationAt s i = true) :
    i < s.tokens.size := by
  simp only [isEnumerationAt, Bool.and_eq_true, Sheet.hasWord, Option.any_eq_true] at h
  obtain ⟨⟨t, ht, -⟩, -⟩ := h
  have hlt := (Array.getElem?_eq_some_iff.mp ht).1
  split at hlt <;> omega

/-- Members of all forms: counted, initialized, and a string, with names that are words and others.
-/
theorem enumeration_assigned_mixed :
    let text := "enum E \x7b A, 'b c' = 1 + 2, D = 'x', default, \x7d".toList
    let options : CompileOptions := { transforms := [.typescript] }
    ∃ stream members m d' notes, parse text options.dialect = .ok (.ok stream) ∧
      Listing stream.tokens 0 members m ∧
      Lowering.enumeration (nested (2 * stream.tokens.size)) (prepare text stream options).1
        (prepare text stream options).2 = .ok ((), d') ∧
      d'.editor.log.toList = (prepare text stream options).2.editor.log.toList ++ notes ∧
      EnumerationWritten (prepare text stream options).1
        (nested (2 * stream.tokens.size)) 0 0 members
        m notes := by
  intro text options
  obtain ⟨stream, hparse, hkinds, hnoted, huntyped, honly, henum, hfirst, hplain⟩ : ∃ stream,
      parse text options.dialect = .ok (.ok stream) ∧
      stream.tokens.map (·.kind) = #[.name, .name, .braceL, .name, .comma, .string, .eq, .num,
        .plusMinus, .num, .comma, .name, .eq, .string, .comma, .name, .comma, .braceR, .eof] ∧
      (stream.tokens[6]?).any (·.rhsEnd == some 10) = true ∧
      (∀ t ∈ stream.tokens, t.isType = false) ∧
      (∀ i < stream.tokens.size, isEnumerationAt ⟨text, stream.tokens⟩ i = true → i = 0) ∧
      isEnumerationAt ⟨text, stream.tokens⟩ 0 = true ∧
      (∀ st ∈ stream.statements.toList, st.start = 0) ∧ Undecorated stream.tokens :=
    exists_accepted (by decide +kernel)
  have hat := @Token.at_of_kinds _ _ hkinds
  have hsided : ∀ {i : Nat} {k : Kind}, At stream.tokens i k → Sided stream.tokens false i :=
    fun ⟨t, ht, _⟩ => ⟨t, ht, huntyped t (Array.mem_of_getElem? ht)⟩
  obtain ⟨t, ht, hstop⟩ := (Option.any_eq_true ..).mp hnoted
  have hkind : t.kind = .eq := At.kind_eq ⟨t, ht, rfl⟩ (hat rfl)
  have hsite : Site stream.tokens 7 10 := by
    refine ⟨.plain (hat rfl) (by decide) <| .plain (hat rfl) (by decide) <|
      .single (hat rfl) (by decide), ?_, fun _ _ _ htype => ?_, _, hat rfl, by decide⟩
    · rintro _ ⟨⟩
      exact hsided ⟨t, ht, rfl⟩
    · exact absurd (htype.eq (hsided (hat rfl))) (by decide)
  have hlisting : Listing stream.tokens 0 [3, 5, 11, 15] 17 :=
    ⟨hat rfl, hat rfl, hat rfl, hsided (hat rfl),
      .cons (hat rfl) (by decide) .counted (.inl ⟨hat rfl, rfl⟩) <|
      .cons (hat rfl) (by decide) (.noted ht hkind (eq_of_beq hstop) hsite fun hstring =>
        Kind.noConfusion (hstring.kind_eq (hat rfl))) (.inl ⟨hat rfl, rfl⟩) <|
      .cons (hat rfl) (by decide) (.string (hat rfl) (hat rfl)) (.inl ⟨hat rfl, rfl⟩) <|
      .cons (hat rfl) (by decide) .counted (.inl ⟨hat rfl, rfl⟩) <| .nil (hat rfl)⟩
  have hregular : Regular text stream options := by
    refine ⟨fun _ i henum _ => ?_, fun _ => hplain⟩
    obtain rfl := honly i (lt_of_isEnumerationAt henum) henum
    exact ⟨_, .plain hlisting, fun st hst hlt => absurd (hfirst st hst) (by omega)⟩
  obtain ⟨w, members, m, hword, hlisting', -, hrun, -⟩ :=
    enumeration_assigned hparse hregular (by decide) henum (hsided (hat rfl))
  obtain ⟨hconst, -⟩ | ⟨-, rfl⟩ := hword
  · exact absurd (hconst.kind_eq (hat rfl)) (by decide)
  obtain ⟨d', notes, hrun, -, hnotes, hwritten⟩ :=
    hrun _ (prepare text stream options).2 (Nat.le_refl _) rfl
  exact ⟨stream, members, m, d', notes, hparse, hlisting', hrun, hnotes, hwritten⟩

/-- A constant may be declared by a reserved word. -/
theorem reserved_member_declared : ¬ ∀ (text : List Char) (options : CompileOptions)
    (stream : TokenStream) (out : Compiled), Transform.typescript ∈ options.transforms →
    parse text options.dialect = .ok (.ok stream) → compile text options = .ok out →
    ∀ (i : Nat) (constant : String), isEnumerationAt ⟨text, stream.tokens⟩ i = true →
      At stream.tokens (i + 2) .braceL → At stream.tokens (i + 3) .name →
      ((prepare text stream options).1.memberAt (i + 3)).constant = some constant →
      ("const " ++ constant ++ " = ").toList <:+: out.code.toList → Lexeme.IsName constant := by
  intro h
  let text := "enum E \x7b default \x7d".toList
  obtain ⟨stream, d, out, hyields, henum, hbrace, hname, hconstant, hdeclared⟩ : ∃ stream d out,
      Yields text { transforms := [.typescript] } stream d out ∧
      isEnumerationAt ⟨text, stream.tokens⟩ 0 = true ∧ At stream.tokens 2 .braceL ∧
      At stream.tokens 3 .name ∧
      ((prepare text stream { transforms := [.typescript] }).1.memberAt 3).constant =
        some "default" ∧ "const default = ".toList <:+: out.code.toList :=
    exists_yielded (by decide +kernel)
  obtain ⟨l, hread, hkind, -⟩ :=
    h _ _ stream out (by decide) hyields.parsed hyields.compile 0 "default"
    henum hbrace hname hconstant hdeclared
  have hdefault : Lexeme.read "default".toList = .lexeme { kind := .kwDefault, length := 7 } := rfl
  cases hread.symm.trans hdefault
  cases hkind

end Compile

end Downlevel
