import Downlevel.Proofs.Grammar.Goes
import Downlevel.Proofs.Grammar.Kept

/-!
# Export clauses without a name

An export clause keeps the index of the name in each of its specifiers, and marks these names when
it turns out that it names no module. It keeps the index also where there is no name: then the
reader has met an error and stands at the end of the input, so the clause ends with that specifier.
No token comes to stand at the index that was kept last. `markExports_fault_iff` says that this is
the one way in which a name is missed, and `NamelessExport` what was read by then.
-/

namespace Downlevel

variable {locals : List Nat} {f : Fault}

/-- Whether a token of the kind can name what is exported. -/
def Kind.NamesExport (k : Kind) : Prop := k = .string ∨ k = .name ∨ k.isReserved = true

/-- The error that the current token is found where another one is expected. -/
def Cursor.lacking (c : Cursor) (label : String) : SyntaxError :=
  ⟨.unexpectedToken label (if c.text.isEmpty then c.kind.label else String.ofList c.text),
    ⟨c.start.offset, max c.start.offset c.stop.offset⟩⟩

/-- The token, whatever part it plays. -/
def Token.bare (t : Token) : Token := { t with role := none }

namespace Grammar

open State

variable {ctx : Context} {s t u w : State} {index : Nat} {e e' : SyntaxError}

/-- The specifiers from the current token on lead to the state `w`, where something else stands in
the place of a name. -/
inductive Nameless (ctx : Context) : State → State → Prop where
  | here {w : State} (hopen : w.cursor.kind ≠ .braceR ∧ w.cursor.kind ≠ .eof)
      (hname : ¬ w.cursor.kind.NamesExport) : Nameless ctx w w
  | later {s t w : State} {named : Nat} (hopen : s.cursor.kind ≠ .braceR ∧ s.cursor.kind ≠ .eof)
      (hrun : specifier exportName ctx s = .ok (named, t)) (h : Nameless ctx t w) : Nameless ctx s w

/-- After `export` comes a list in braces, and in it something else in the place of a name. The
tokens before that are those that were read, and the error is about it. -/
def NamelessExport (ctx : Context) (read : Array Token) (error : Option SyntaxError) : Prop :=
  ∃ s u w, Exporting s.tokens ∧ Placed ctx.source.text s ∧ s.cursor.Poised ctx.source.text ∧
    expect .braceL ctx s = .ok ((), u) ∧ Nameless ctx u w ∧
    read.map Token.bare = w.tokens.map Token.bare ∧ error = some (w.cursor.lacking "identifier")

/-! ## Names and errors -/

/-- The state after an error that may be the first: no token is taken, and the cursor is at the end
of the input. -/
structure Stopped (s t : State) (e : SyntaxError) : Prop where
  tokens : t.tokens = s.tokens
  kind : t.cursor.kind = .eof
  error : t.cursor.error = s.cursor.error.or (some e)

theorem Stopped.trans (h : Stopped s t e) (h' : Stopped t u e') : Stopped s u e :=
  ⟨h'.tokens.trans h.tokens, h'.kind, by rw [h'.error, h.error, Option.or_assoc, Option.some_or]⟩

theorem expecting_stopped {label : String} (hrun : expecting label ctx s = .ok ((), t)) :
    Stopped s t (s.cursor.lacking label) := by
  cases hrun
  exact ⟨rfl, rfl, rfl⟩

theorem expect_stopped {k : Kind} (hk : s.cursor.kind ≠ k)
    (hrun : expect k ctx s = .ok ((), t)) : Stopped s t (s.cursor.lacking k.label) := by
  obtain ⟨eaten, u, heat, hrest⟩ := bind_ok hrun
  rcases eat_ok heat with ⟨-, hkind, -⟩ | ⟨rfl, -, rfl⟩
  · exact absurd hkind hk
  · exact expecting_stopped hrest

theorem identifierName_ok (hrun : identifierName ctx s = .ok ((), t)) :
    t.tokens.size = s.tokens.size + 1 ∧ (s.cursor.kind = .name ∨ s.cursor.kind.isReserved = true) ∨
      Stopped s t (s.cursor.lacking "identifier") ∧
        ¬ (s.cursor.kind = .name ∨ s.cursor.kind.isReserved = true) := by
  obtain ⟨_, _, ⟨⟩, hrest⟩ := bind_ok hrun
  split at hrest
  · rename_i hname
    cases hrest
    exact .inl ⟨Array.size_push .., by simpa using hname⟩
  · rename_i hname
    exact .inr ⟨expecting_stopped hrest, by simpa using hname⟩

theorem moduleName_ok (hrun : moduleName ctx s = .ok ((), t)) :
    t.tokens.size = s.tokens.size + 1 ∧ s.cursor.kind.NamesExport ∨
      Stopped s t (s.cursor.lacking "identifier") ∧ ¬ s.cursor.kind.NamesExport := by
  obtain ⟨_, _, ⟨⟩, hrest⟩ := bind_ok hrun
  split at hrest
  · rename_i hstring
    cases hrest
    exact .inl ⟨Array.size_push .., .inl (beq_iff_eq.mp hstring)⟩
  · rename_i hstring
    rcases identifierName_ok hrest with ⟨hsize, hname⟩ | ⟨hstopped, hname⟩
    · exact .inl ⟨hsize, .inr hname⟩
    · refine .inr ⟨hstopped, ?_⟩
      rintro (hkind | hkind)
      · exact hstring (beq_iff_eq.mpr hkind)
      · exact hname hkind

theorem exportName_named (hname : s.cursor.kind.NamesExport)
    (hrun : exportName ctx s = .ok (index, t)) : index < t.tokens.size := by
  rw [exportName_ok hrun]
  obtain ⟨_, _, ⟨⟩, hrest⟩ := bind_ok hrun
  obtain ⟨_, u, hmodule, hrest⟩ := bind_ok hrest
  have hsize := Keeps.size_le hrest
  rcases moduleName_ok hmodule with ⟨hu, -⟩ | ⟨-, hno⟩
  · omega
  · exact absurd hname hno

theorem exportName_stopped (hname : ¬ s.cursor.kind.NamesExport)
    (hrun : exportName ctx s = .ok (index, t)) : Stopped s t (s.cursor.lacking "identifier") := by
  obtain ⟨_, _, ⟨⟩, hrest⟩ := bind_ok hrun
  obtain ⟨_, u, hmodule, hrest⟩ := bind_ok hrest
  rcases moduleName_ok hmodule with ⟨-, hyes⟩ | ⟨hstopped, -⟩
  · exact absurd hyes hname
  · have hword : u.cursor.isWord .kwAs = false := by simp [Cursor.isWord, hstopped.kind]
    obtain ⟨renamed, v, heat, hrest⟩ := bind_ok hrest
    obtain ⟨_, _, ⟨⟩, heat⟩ := bind_ok heat
    rw [hword] at heat
    cases heat
    cases hrest
    exact hstopped

/-! ## Specifiers -/

/-- The modifier `type` is followed by a name. -/
theorem isTypeSpecifier_ok {isType : Bool} (hrun : isTypeSpecifier ctx s = .ok (isType, t)) :
    t = s ∧ (isType = true → s.cursor.kind = .name ∧
      (s.cursor.advance ctx.source .code).kind.NamesExport) := by
  obtain ⟨_, _, ⟨⟩, hrest⟩ := bind_ok hrun
  obtain ⟨_, _, ⟨⟩, hrest⟩ := bind_ok hrest
  split at hrest
  · cases hrest
    exact ⟨rfl, nofun⟩
  · rename_i hword
    have hkind : s.cursor.kind = .name := by
      simp only [Bool.not_eq_true', Bool.not_eq_false, Bool.and_eq_true, Cursor.isWord,
        beq_iff_eq] at hword
      exact hword.2.1
    obtain ⟨ahead, u, hahead, hchoice⟩ := bind_ok hrest
    obtain ⟨rfl, hnext, -⟩ := lookahead_ok hahead
    generalize ahead.kind = k at hnext hchoice
    split at hchoice
    · cases hchoice
      exact ⟨rfl, nofun⟩
    · cases hchoice
      exact ⟨rfl, nofun⟩
    · split at hchoice
      · obtain ⟨rfl, -⟩ := peek_ok (Keeps.keepsAt (Nat.le_refl _) _ (Nat.le_refl _)) hchoice
        exact ⟨rfl, fun _ => ⟨hkind, .inr (.inl hnext.symm)⟩⟩
      · cases hchoice
        exact ⟨rfl, fun _ => ⟨hkind, .inr (.inl hnext.symm)⟩⟩
    · cases hchoice
      exact ⟨rfl, fun _ => ⟨hkind, .inl hnext.symm⟩⟩
    · cases hchoice
      exact ⟨rfl, fun hreserved => ⟨hkind, .inr (.inr (hnext ▸ hreserved))⟩⟩

theorem typeModifier_ok {isType : Bool} (hrun : typeModifier ctx s = .ok (isType, t)) :
    isType = false ∧ t = s ∨
      isType = true ∧ s.cursor.kind = .name ∧ t.cursor.kind.NamesExport := by
  obtain ⟨isType, u, htype, hrest⟩ := bind_ok hrun
  obtain ⟨rfl, hmodifier⟩ := isTypeSpecifier_ok htype
  cases isType with
  | false =>
    cases hrest
    exact .inl ⟨rfl, rfl⟩
  | true =>
    cases hrest
    exact .inr ⟨rfl, hmodifier rfl⟩

theorem specifier_ok (hrun : specifier exportName ctx s = .ok (index, t)) : ∃ isType u v,
    typeModifier ctx s = .ok (isType, u) ∧ exportName ctx u = .ok (index, v) ∧
      endSpecifier isType s.tokens.size ctx v = .ok ((), t) := by
  obtain ⟨_, _, ⟨⟩, hrest⟩ := bind_ok hrun
  obtain ⟨isType, u, hmodifier, hrest⟩ := bind_ok hrest
  obtain ⟨index, v, hexport, hrest⟩ := bind_ok hrest
  obtain ⟨_, w, hend, hrest⟩ := bind_ok hrest
  cases hrest
  exact ⟨isType, u, v, hmodifier, hexport, hend⟩

/-- A specifier that begins with a name has its local name among the tokens. -/
theorem specifier_named (hname : s.cursor.kind.NamesExport)
    (hrun : specifier exportName ctx s = .ok (index, t)) : index < t.tokens.size := by
  obtain ⟨isType, u, v, hmodifier, hexport, hend⟩ := specifier_ok hrun
  have hnamed : u.cursor.kind.NamesExport := by
    rcases typeModifier_ok hmodifier with ⟨-, rfl⟩ | ⟨-, -, hnext⟩
    · exact hname
    · exact hnext
  exact Nat.lt_of_lt_of_le (exportName_named hnamed hexport) (Keeps.size_le hend)

/-- A specifier that begins with something else ends the clause. -/
theorem specifier_stopped (hname : ¬ s.cursor.kind.NamesExport)
    (hrun : specifier exportName ctx s = .ok (index, t)) :
    index = s.tokens.size ∧ Stopped s t (s.cursor.lacking "identifier") := by
  obtain ⟨isType, u, v, hmodifier, hexport, hend⟩ := specifier_ok hrun
  rcases typeModifier_ok hmodifier with ⟨rfl, rfl⟩ | ⟨-, hkind, -⟩
  · refine ⟨exportName_ok hexport, ?_⟩
    have hstopped := exportName_stopped hname hexport
    have hopen : (v.cursor.kind == .braceR) = false := by rw [hstopped.kind]; rfl
    obtain ⟨_, _, ⟨⟩, hcomma⟩ := bind_ok hend
    rw [hopen] at hcomma
    obtain ⟨_, w, hcomma, hdone⟩ := bind_ok hcomma
    cases hdone
    exact hstopped.trans (expect_stopped (by rw [hstopped.kind]; decide) hcomma)
  · exact absurd (.inr (.inl hkind)) hname

theorem exportSpecifiers_eof {kept found : List Nat} {n : Nat} (hend : s.cursor.kind = .eof)
    (hrun : exportSpecifiers kept n ctx s = .ok (found, t)) : found = kept ∧ t = s := by
  cases n with
  | zero => cases hrun
  | succ n =>
    obtain ⟨_, _, ⟨⟩, hrest⟩ := bind_ok hrun
    rw [hend] at hrest
    cases hrest
    exact ⟨rfl, rfl⟩

/-- The indices that are kept lie below the number of tokens, except for one with no name. -/
theorem exportSpecifiers_kept {kept found : List Nat} {n : Nat}
    (hrun : exportSpecifiers kept n ctx s = .ok (found, t)) :
    (∀ i ∈ found, i ∈ kept ∨ i < t.tokens.size ∨ ∃ w, Nameless ctx s w ∧ i = w.tokens.size) ∧
      ∀ w, Nameless ctx s w →
        w.tokens.size ∈ found ∧ Stopped w t (w.cursor.lacking "identifier") := by
  induction n generalizing kept s with
  | zero => cases hrun
  | succ n ih =>
    obtain ⟨_, _, ⟨⟩, hrest⟩ := bind_ok hrun
    split at hrest
    · rename_i hclosed
      cases hrest
      refine ⟨fun i hi => .inl hi, fun w hw => ?_⟩
      have hkind : t.cursor.kind = .braceR ∨ t.cursor.kind = .eof := by simpa using hclosed
      cases hw with
      | here hopen => exact absurd hkind (by simp [hopen])
      | later hopen => exact absurd hkind (by simp [hopen])
    · rename_i hclosed
      have hopen : s.cursor.kind ≠ .braceR ∧ s.cursor.kind ≠ .eof := by simpa using hclosed
      obtain ⟨index, u, hspecifier, hmore⟩ := bind_ok hrest
      obtain ⟨hfound, hnameless⟩ := ih hmore
      have hsize := Keeps.size_le hmore
      refine ⟨fun i hi => ?_, fun w hw => ?_⟩
      · rcases hfound i hi with hi | hi | ⟨w, hw, rfl⟩
        · rcases List.mem_cons.mp hi with rfl | hi
          · by_cases hname : s.cursor.kind.NamesExport
            · have hlt := specifier_named hname hspecifier
              exact .inr (.inl (by omega))
            · exact .inr (.inr ⟨s, .here hopen hname, (specifier_stopped hname hspecifier).1⟩)
          · exact .inl hi
        · exact .inr (.inl hi)
        · exact .inr (.inr ⟨w, .later hopen hspecifier hw, rfl⟩)
      · cases hw with
        | here _ hname =>
          obtain ⟨rfl, hstopped⟩ := specifier_stopped hname hspecifier
          obtain ⟨rfl, rfl⟩ := exportSpecifiers_eof hstopped.kind hmore
          exact ⟨List.mem_cons_self, hstopped⟩
        | later _ hrun h =>
          rw [hspecifier] at hrun
          cases hrun
          exact hnameless w h

/-- A list holds indices of tokens that were taken, except for one with no name. -/
theorem exportList_kept (hrun : exportList ctx s = .ok (locals, t)) :
    ∃ u, expect .braceL ctx s = .ok ((), u) ∧
      (∀ i ∈ locals, i < t.tokens.size ∨ ∃ w, Nameless ctx u w ∧ i = w.tokens.size) ∧
      ∀ w, Nameless ctx u w →
        w.tokens.size ∈ locals ∧ Stopped w t (w.cursor.lacking "identifier") := by
  obtain ⟨_, u, hbrace, hrest⟩ := bind_ok hrun
  obtain ⟨_, _, ⟨⟩, hrest⟩ := bind_ok hrest
  obtain ⟨found, v, hfound, hrest⟩ := bind_ok hrest
  obtain ⟨_, w, hclose, hrest⟩ := bind_ok hrest
  cases hrest
  obtain ⟨hkept, hnameless⟩ := exportSpecifiers_kept hfound
  have hsize := Keeps.size_le hclose
  refine ⟨u, hbrace, fun i hi => ?_, fun w hw => ?_⟩
  · rcases hkept i (List.mem_reverse.mp hi) with hi | hi | hi
    · cases hi
    · exact .inl (by omega)
    · exact .inr hi
  · -- Nothing is taken after the specifier without a name.
    obtain ⟨hmem, hstopped⟩ := hnameless w hw
    exact ⟨List.mem_reverse.mpr hmem,
      hstopped.trans (expect_stopped (by rw [hstopped.kind]; decide) hclose)⟩

/-- To a name that is missing, parsing takes its course. -/
theorem Nameless.course (h : Nameless ctx s w) : Course ctx.source.text s w := by
  induction h with
  | here => exact .refl _
  | later _ hrun _ ih =>
    exact (((Keeps.keepsAt (Nat.le_refl 0) _ (Nat.zero_le _)).above _ _ hrun).course).trans ih

theorem Nameless.live (h : Nameless ctx s w) : w.cursor.kind ≠ .eof := by
  induction h with
  | here hopen => exact hopen.2
  | later _ _ _ ih => exact ih

/-! ## Marking -/

theorem map_bare_setRole (tokens : Array Token) (index : Nat) (role : Role) :
    (tokens.modify index fun t => { t with role := some role }).map Token.bare =
      tokens.map Token.bare := by
  refine Array.ext_getElem? fun i => ?_
  rw [Array.getElem?_map, Array.getElem?_map, Array.getElem?_modify]
  split
  · rw [Option.map_map]
    rfl
  · rfl

theorem markExport_ok (ctx : Context) (hlt : index < s.tokens.size) :
    ∃ t, markExport index ctx s = .ok ((), t) ∧ t.cursor = s.cursor ∧
      t.tokens.map Token.bare = s.tokens.map Token.bare := by
  have hget : (get : Parser State) ctx s = .ok (s, s) := rfl
  unfold markExport
  rw [bind_of_ok hget, Array.getElem?_eq_getElem hlt]
  dsimp only
  split
  · exact ⟨_, rfl, rfl, map_bare_setRole ..⟩
  · exact ⟨_, rfl, rfl, rfl⟩

theorem size_of_map_bare {tokens tokens' : Array Token}
    (h : tokens'.map Token.bare = tokens.map Token.bare) : tokens'.size = tokens.size := by
  simpa using congrArg Array.size h

theorem markExport_error (ctx : Context) (hle : s.tokens.size ≤ index) :
    markExport index ctx s = .error (.missingLocal index s.tokens s.cursor.error) := by
  have hget : (get : Parser State) ctx s = .ok (s, s) := rfl
  unfold markExport
  rw [bind_of_ok hget, Array.getElem?_eq_none hle]
  rfl

theorem markExports_cons (rest : List Nat) :
    markExports (index :: rest) = (markExport index >>= fun _ => markExports rest) := rfl

/-- Marking misses an index at which there is no token. -/
theorem markExports_fault (h : markExports locals ctx s = .error f) :
    ∃ i ∈ locals, ∃ read, s.tokens.size ≤ i ∧
      read.map Token.bare = s.tokens.map Token.bare ∧ f = .missingLocal i read s.cursor.error := by
  induction locals generalizing s with
  | nil => cases h
  | cons index rest ih =>
    rw [markExports_cons] at h
    rcases Nat.lt_or_ge index s.tokens.size with hlt | hge
    · obtain ⟨t, hmark, hcursor, htokens⟩ := markExport_ok ctx hlt
      rw [bind_of_ok hmark] at h
      obtain ⟨i, hi, read, hle, hread, hf⟩ := ih h
      have hsize := size_of_map_bare htokens
      exact ⟨i, List.mem_cons_of_mem _ hi, read, by omega, hread.trans htokens, hcursor ▸ hf⟩
    · have hmissing := markExport_error ctx hge
      rcases bind_error h with hf | ⟨_, _, hok, -⟩
      · rw [hmissing] at hf
        cases hf
        exact ⟨index, List.mem_cons_self, _, hge, rfl, rfl⟩
      · rw [hmissing] at hok
        cases hok

/-- Marking gets through only if there is a token at every index. -/
theorem markExports_ok (h : markExports locals ctx s = .ok ((), t)) :
    ∀ i ∈ locals, i < s.tokens.size := by
  induction locals generalizing s with
  | nil => exact nofun
  | cons index rest ih =>
    rw [markExports_cons] at h
    obtain ⟨_, u, hmark, hrest⟩ := bind_ok h
    have hlt : index < s.tokens.size := by
      by_contra hge
      rw [markExport_error ctx (Nat.le_of_not_lt hge)] at hmark
      cases hmark
    obtain ⟨v, hv, -, htokens⟩ := markExport_ok ctx hlt
    rw [hv] at hmark
    cases hmark
    intro i hi
    rcases List.mem_cons.mp hi with rfl | hi
    · exact hlt
    · exact size_of_map_bare htokens ▸ ih hrest i hi

section

variable (hrun : exportList ctx s = .ok (locals, t))
include hrun

/-- A name that is missed is one in the place of which something else stands. -/
theorem nameless_of_fault (hmark : markExports locals ctx t = .error f) :
    ∃ u w read, expect .braceL ctx s = .ok ((), u) ∧ Nameless ctx u w ∧
      read.map Token.bare = w.tokens.map Token.bare ∧ f = .missingLocal read.size read
        (w.cursor.error.or (some (w.cursor.lacking "identifier"))) := by
  obtain ⟨u, hbrace, hkept, hnameless⟩ := exportList_kept hrun
  obtain ⟨i, hi, read, hle, hread, rfl⟩ := markExports_fault hmark
  rcases hkept i hi with hlt | ⟨w, hw, rfl⟩
  · omega
  · have hstopped := (hnameless w hw).2
    rw [hstopped.tokens] at hread
    rw [hstopped.error, ← size_of_map_bare hread]
    exact ⟨u, w, read, hbrace, hw, hread, rfl⟩

/-- A name of an export clause is missed exactly when something else stands in its place. -/
theorem markExports_fault_iff : (∃ f, markExports locals ctx t = .error f) ↔
      ∃ u w, expect .braceL ctx s = .ok ((), u) ∧ Nameless ctx u w := by
  constructor
  · rintro ⟨f, hmark⟩
    obtain ⟨u, w, -, hbrace, hw, -⟩ := nameless_of_fault hrun hmark
    exact ⟨u, w, hbrace, hw⟩
  · rintro ⟨u, w, hbrace, hw⟩
    obtain ⟨u', hbrace', -, hnameless⟩ := exportList_kept hrun
    rw [hbrace] at hbrace'
    cases hbrace'
    obtain ⟨hmem, hstopped⟩ := hnameless w hw
    cases hmark : markExports locals ctx t with
    | ok r =>
      have hlt := markExports_ok hmark _ hmem
      rw [hstopped.tokens] at hlt
      exact absurd hlt (Nat.lt_irrefl _)
    | error f => exact ⟨f, rfl⟩

/-- A clause that misses a name ends in the fault: it cannot go on to name a module. -/
theorem exportClause_fault (k : Knot)
    (hbrace : expect .braceL ctx s = .ok ((), u)) (h : Nameless ctx u w) :
    ∃ f, markExports locals ctx t = .error f ∧
      exportClause k ctx s = .error f := by
  obtain ⟨f, hmark⟩ := (markExports_fault_iff hrun).mpr ⟨u, w, hbrace, h⟩
  refine ⟨f, hmark, ?_⟩
  obtain ⟨u', hbrace', -, hnameless⟩ := exportList_kept hrun
  rw [hbrace] at hbrace'
  cases hbrace'
  have hlist : s.cursor.kind ≠ .star := by
    intro hstar
    have hstopped := expect_stopped (by rw [hstar]; decide) hbrace
    cases h with
    | here hopen => exact hopen.2 hstopped.kind
    | later hopen => exact hopen.2 hstopped.kind
  have hstar : eat .star ctx s = .ok (false, s) := by
    have hsee : seeing .star ctx s = .ok (s.cursor.kind == .star, s) := rfl
    unfold eat
    rw [bind_of_ok hsee, if_neg (by simpa using hlist)]
    rfl
  have hfrom : seeingWord .kwFrom ctx t = .ok (false, t) := by
    have hword : t.cursor.isWord .kwFrom = false := by
      simp [Cursor.isWord, (hnameless w h).2.kind]
    exact congrArg (fun b => Except.ok (b, t)) hword
  unfold exportClause
  rw [bind_of_ok hstar, if_neg Bool.false_ne_true, bind_of_ok hrun, bind_of_ok hfrom,
    if_neg Bool.false_ne_true]
  exact bind_of_error hmark

end

/-- What a fault of parsing says about the text. -/
theorem Foreseen.nameless (h : Foreseen ctx s f) (hs : s.cursor.Poised ctx.source.text) :
    f = .outOfFuel ∨ ∃ read error,
      f = .missingLocal read.size read error ∧ NamelessExport ctx read error := by
  rcases h with hfuel | ⟨s', locals, t, hcourse, hplaced, hexporting, hrun, hmark⟩
  · exact .inl hfuel
  · obtain ⟨u, w, read, hbrace, hw, hread, hf⟩ := nameless_of_fault hrun hmark
    have hs' := hcourse.poised hs
    have hu : Course ctx.source.text s' u :=
      ((Keeps.keepsAt (Nat.le_refl 0) _ (Nat.zero_le _)).above _ _ hbrace).course
    -- before the error there was none
    have hclean := Cursor.error_of_live (hw.course.poised (hu.poised hs')) hw.live
    rw [hclean, Option.none_or] at hf
    exact .inr ⟨read, _, hf, s', u, w, hexporting, hplaced, hs', hbrace, hw, hread, rfl⟩

end Grammar

end Downlevel
