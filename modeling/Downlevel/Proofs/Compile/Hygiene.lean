import Downlevel.Proofs.Compile.Linked
import Downlevel.Proofs.Compile.Steps
import Downlevel.Proofs.Linkage.Shadow
import Downlevel.Proofs.Lowering.Rewritten
import Downlevel.Proofs.Lowering.Walk

/-!
# References to imported names

A reference to a name that is imported by name becomes a member of the module, unless an inner
declaration of the name reaches it (`references_follow_scopes`). Which declarations reach it is said
by the scopes that the parser records. It records no scope of a function for the static block of a
class, and so a `var` in one reaches further than it should (`static_block_reaches_out`).
-/

namespace Downlevel.Compile

open Lowering (Draft Knot Scene isCalledAt isEnumerationAt name run_look token)

variable {text : List Char} {stream : TokenStream} {options : CompileOptions}

/-- A value that is used by its name, but not to export it. -/
structure Reference (text : List Char) (t : Token) (name : String) : Prop
    extends Survey.Refers text t name where
  own : t.role = some .access ∨ t.role = some .objectShorthand

instance decidableReference (text : List Char) (t : Token) (name : String) :
    Decidable (Reference text t name) :=
  decidable_of_iff (Survey.Refers text t name ∧
    (t.role = some .access ∨ t.role = some .objectShorthand))
    ⟨fun h => ⟨h.1, h.2⟩, fun h => ⟨h.toRefers, h.own⟩⟩

/-- What takes the place of a reference to a name that `code` stands for. In an object the name
stays as a key, and a function that is called does not get the module for its `this`. -/
def referenceCode (s : Sheet) (index : Nat) (role : Option Role) (name code : String) : String :=
  if role = some .objectShorthand then name ++ ": " ++ code
  else if isCalledAt s index then "(0, " ++ code ++ ")"
  else code

/-! ## The step -/

theorem name_of_nameCode? {c : Scene} {d : Draft} {code : String}
    (h : c.nameCode? d.editor.index = some code) : name c d =
      .ok ((), { d with editor := d.editor.replace c.sheet code }) := by
  rw [name, run_look c rfl, run_look d.editor.index rfl, h]
  rfl

section

variable {c : Scene} {d : Draft} {t : Token} (k : Knot)
  (ht : c.sheet.tokens[d.editor.index]? = some t) (htype : t.isType = false)
  (hkind : t.kind = .name ∨ t.kind = .jsxName)
  (henum : (c.options.has .typescript &&
    isEnumerationAt c.sheet d.editor.index) = false)
include ht htype hkind henum

theorem token_eq_name : token k c d = name c d := by
  rw [Lowering.token_eq_valueToken ht htype (by rcases hkind with hkind | hkind <;> simp [hkind])]
  unfold Lowering.valueToken
  rw [run_look c rfl, run_look d.editor.index rfl]
  rcases hkind with hkind | hkind
  · simp only [hkind, henum]
    rfl
  · simp only [hkind]

theorem token_of_nameCode? {code : String} (h : c.nameCode? d.editor.index = some code) :
    token k c d = .ok ((), { d with editor := d.editor.replace c.sheet code }) := by
  rw [token_eq_name k ht htype hkind henum, name_of_nameCode? h]

theorem token_of_nameCode?_none (h : c.nameCode? d.editor.index = none) :
    token k c d = .ok ((), { d with editor := d.editor.copy c.sheet }) := by
  rw [token_eq_name k ht htype hkind henum, name, run_look c rfl,
    run_look d.editor.index rfl, h]
  rfl

end

/-! ## Names that are imported -/

/-- The token at `i` of an accepted snippet refers to a name that is imported by name, and imports
are rewritten. -/
structure Imported (text : List Char) (options : CompileOptions) (stream : TokenStream)
    (n : NamedImport) (i : Nat) (t : Token) : Prop where
  parsed : parse text options.dialect = .ok (.ok stream)
  imports : options.has .imports = true
  kept : options.removeImports = false
  named : ∃ st ∈ stream.statements, ∃ path, Survey.Imports ⟨text, stream.tokens⟩ st path n
  token : stream.tokens[i]? = some t
  refers : Reference text t n.bound

variable {i : Nat} {t : Token} {n : NamedImport}

/-- A name that is imported and used stands for a member of a module. -/
theorem Imported.replacement (h : Imported text options stream n i t) :
    ∃ code, (linkageOf text stream options).replacements.get? n.bound = some code ∧
      Linkage.Gives (surveyOf text stream options).uses (linkageOf text stream options).records
        n.bound code := by
  have hused : n.bound ∈ Survey.valueReferences ⟨text, stream.tokens⟩ :=
    Survey.mem_valueReferences.mpr
    ⟨t, Array.mem_toList_iff.mpr (Array.mem_of_getElem? h.token), h.refers.toRefers⟩
  obtain ⟨st, hst, path, himport⟩ := h.named
  obtain ⟨before, hgrown⟩ := Survey.grown_of_mem (Array.mem_toList_iff.mpr hst) {}
  obtain ⟨use, huse, hnamed⟩ := Survey.named_of_take before himport
    (List.mem_append_left options.implicitReferences hused)
  obtain ⟨use', huse', hwithin⟩ := hgrown.uses huse
  have hmem : (path, use') ∈ (surveyOf text stream options).uses := by
    rw [surveyOf, Survey.ofStream_eq]
    exact Dict.mem_of_get? huse'
  rcases (link_built text stream options).gives n.bound with ⟨hnone, -⟩ | hgives
  · exact absurd rfl (hnone _ hmem n (hwithin.named hnamed))
  · exact hgives

/-! ## The decision -/

theorem nameCode?_eq {c : Scene} {i : Nat} {t : Token}
    (ht : c.sheet.tokens[i]? = some t)
    (hrole : t.role = some .access ∨ t.role = some .objectShorthand) :
    c.nameCode? i = if t.shadowed then none
      else (c.replacement? (String.ofList (t.text c.sheet.text))).map
        (referenceCode c.sheet i t.role (String.ofList (t.text c.sheet.text))) := by
  have htext : c.sheet.textAt i = String.ofList (t.text c.sheet.text) := by
    simp [Sheet.textAt, ht]
  unfold Scene.nameCode?
  simp only [Sheet.token?, ht, htext, Option.bind_eq_bind, Option.bind_some]
  by_cases hshadowed : t.shadowed = true
  · rcases hrole with hrole | hrole <;> simp [hrole, hshadowed]
  · rcases hrole with hrole | hrole
    · cases c.replacement? (String.ofList (t.text c.sheet.text)) with
      | none => simp [hrole, hshadowed]
      | some code => by_cases hcalled : isCalledAt c.sheet i = true <;>
          simp [hrole, hshadowed, referenceCode, hcalled]
    · cases c.replacement? (String.ofList (t.text c.sheet.text)) <;>
        simp [hrole, hshadowed, referenceCode]

theorem token_of_prepare {i : Nat} {t : Token}
    (hparse : parse text options.dialect = .ok (.ok stream))
    (himports : options.has .imports = true) (ht : stream.tokens[i]? = some t)
    (hkind : t.kind = .name ∨ t.kind = .jsxName)
    (hglobal : String.ofList (t.text text) ∈ (linkageOf text stream options).replacements.keys) :
    ∃ shadowed, (prepare text stream options).1.sheet.tokens[i]? = some { t with shadowed } ∧
      (shadowed = true ↔ Shadow.Hidden text stream (String.ofList (t.text text)) i) := by
  rw [prepare_sheet text stream himports]
  refine ⟨_, Shadow.getElem?_mark _ _ ht, ?_⟩
  rw [parse_unmarked hparse (Array.mem_of_getElem? ht), Bool.false_or]
  exact Shadow.isMarked_iff hparse hkind hglobal

/-- What takes the place of a reference to an imported name is told by whether a declaration inside
hides the name from it. -/
theorem Imported.nameCode?_eq (h : Imported text options stream n i t) :
    let c := (prepare text stream options).1
    ∃ code shadowed, Linkage.Gives (surveyOf text stream options).uses
        (linkageOf text stream options).records n.bound code ∧
      c.sheet.tokens[i]? = some { t with shadowed } ∧
      (shadowed = true ↔ Shadow.Hidden text stream n.bound i) ∧
      c.nameCode? i = if shadowed then none
        else some (referenceCode c.sheet i t.role n.bound code) := by
  intro c
  obtain ⟨code, hcode, hgives⟩ := h.replacement
  have hglobal :
      String.ofList (t.text text) ∈ (linkageOf text stream options).replacements.keys := by
    rw [h.refers.name]
    exact List.mem_map.mpr ⟨_, Dict.mem_of_get? hcode, rfl⟩
  obtain ⟨shadowed, htoken, hshadowed⟩ :=
    token_of_prepare h.parsed h.imports h.token h.refers.kind hglobal
  rw [h.refers.name] at hshadowed
  have hreplacement : c.replacement? n.bound = some code := by
    rw [Scene.replacement?, prepare_options, h.kept, if_neg Bool.false_ne_true,
      prepare_linkage text stream h.imports]
    exact hcode
  refine ⟨code, shadowed, hgives, htoken, hshadowed, ?_⟩
  have htext : c.sheet.text = text := by rw [prepare_sheet text stream h.imports]
  rw [Compile.nameCode?_eq htoken h.refers.own, htext]
  show (if shadowed then none else (c.replacement? (String.ofList (t.text text))).map
    (referenceCode c.sheet i t.role (String.ofList (t.text text)))) = _
  rw [h.refers.name, hreplacement]
  rfl

/-! ## References -/

/-- Every declaration belongs to a scope. A reference to a name that is imported by name becomes a
member of the module, if and only if no inner declaration of the name belongs to a scope around it;
otherwise it stays as it is. -/
theorem references_follow_scopes (h : Imported text options stream n i t) :
    (∀ level j, j < stream.tokens.size → ∃ home, Scope.Home stream.scopes.toList level j home) ∧
      let c := (prepare text stream options).1
      ((c.nameCode? i).isSome = true ↔ ¬ Shadow.Hidden text stream n.bound i) ∧
      ∃ code, Linkage.Gives (surveyOf text stream options).uses
          (linkageOf text stream options).records n.bound code ∧
        ∀ (k : Knot) (d : Draft), d.editor.index = i →
          (options.has .typescript && isEnumerationAt c.sheet i) = false →
          (¬ Shadow.Hidden text stream n.bound i → token k c d =
            .ok ((), { d with editor :=
              d.editor.replace c.sheet (referenceCode c.sheet i t.role n.bound code) })) ∧
          (Shadow.Hidden text stream n.bound i → token k c d =
            .ok ((), { d with editor := d.editor.copy c.sheet })) := by
  refine ⟨fun level j => Shadow.exists_home h.parsed level, ?_⟩
  intro c
  obtain ⟨code, shadowed, hgives, htoken, hshadowed, hname⟩ := h.nameCode?_eq
  have hshown : ¬ Shadow.Hidden text stream n.bound i →
      c.nameCode? i = some (referenceCode c.sheet i t.role n.bound code) := by
    intro hno
    rw [hname, if_neg (hshadowed.not.mpr hno)]
  have hhidden : Shadow.Hidden text stream n.bound i → c.nameCode? i = none := by
    intro hyes
    rw [hname, if_pos (hshadowed.mpr hyes)]
  refine ⟨⟨fun hsome hyes => ?_, fun hno => ?_⟩, code, hgives, ?_⟩
  · rw [hhidden hyes] at hsome
    cases hsome
  · rw [hshown hno]
    rfl
  · rintro k d rfl henum
    have hkind := h.refers.kind
    exact ⟨fun hno => token_of_nameCode? k htoken h.refers.value hkind henum (hshown hno),
      fun hyes => token_of_nameCode?_none k htoken h.refers.value hkind henum (hhidden hyes)⟩

/-- A parameter hides the name in its function, and after the function it stands for the import. -/
theorem references_follow_scopes_around_function :
    let text := "import \x7b x \x7d from 'm'; function f(x) \x7b return x \x7d x".toList
    ∃ stream, parse text {} = .ok (.ok stream) ∧ Shadow.Hidden text stream "x" 14 ∧
      ¬ Shadow.Hidden text stream "x" 16 := by
  intro text
  let options : CompileOptions := { transforms := [.imports] }
  obtain ⟨stream, hparse, ⟨st, hst, himport⟩, ⟨t, ht, href⟩, ⟨u, hu, href'⟩, hhidden, hshown⟩ :
      ∃ stream, parse text options.dialect = .ok (.ok stream) ∧
      (∃ st ∈ stream.statements[0]?, Survey.Imports ⟨text, stream.tokens⟩ st "m" ⟨"x", "x"⟩) ∧
      (∃ t ∈ stream.tokens[14]?, Reference text t "x") ∧
      (∃ t ∈ stream.tokens[16]?, Reference text t "x") ∧
      ((prepare text stream options).1.nameCode? 14).isSome = false ∧
      ((prepare text stream options).1.nameCode? 16).isSome = true :=
    exists_accepted (by decide +kernel)
  have himported : ∀ {i t}, stream.tokens[i]? = some t → Reference text t "x" →
      Imported text options stream ⟨"x", "x"⟩ i t :=
    fun ht href => ⟨hparse, rfl, rfl, ⟨st, Array.mem_of_getElem? hst, "m", himport⟩, ht, href⟩
  have hfirst := (references_follow_scopes (himported ht href)).2.1
  have hsecond := (references_follow_scopes (himported hu href')).2.1
  refine ⟨stream, hparse, ?_, hsecond.mp hshown⟩
  by_contra hno
  rw [hfirst.mpr hno] at hhidden
  cases hhidden

/-- The static block of a class, without brackets of its own. -/
structure StaticBlock (tokens : Array Token) (start stop : Nat) : Prop where
  word : tokens[start]?.any (·.isWord .kwStatic) = true
  opens : Token.At tokens (start + 1) .braceL
  plain : ∀ m < stop, start + 1 < m → tokens[m]?.any (fun t => decide t.kind.Plain) = true
  closes : Token.At tokens stop .braceR

instance (tokens : Array Token) (start stop : Nat) : Decidable (StaticBlock tokens start stop) :=
  decidable_of_iff (tokens[start]?.any (·.isWord .kwStatic) = true ∧
      Token.At tokens (start + 1) .braceL ∧
      (∀ m < stop, start + 1 < m → tokens[m]?.any (fun t => decide t.kind.Plain) = true) ∧
      Token.At tokens stop .braceR)
    ⟨fun h => ⟨h.1, h.2.1, h.2.2.1, h.2.2.2⟩, fun h => ⟨h.word, h.opens, h.plain, h.closes⟩⟩

/-- A reference after the static block of a class may be taken for one to a variable of the block:
it stays as it is, although no other inner declaration of the name is there. -/
theorem static_block_reaches_out : ¬ ∀ (text : List Char) (options : CompileOptions)
    (stream : TokenStream) (st : Statement) (path : String) (n : NamedImport) (i : Nat) (t : Token),
    parse text options.dialect = .ok (.ok stream) → options.has .imports = true →
    options.removeImports = false → st ∈ stream.statements →
    Survey.Imports ⟨text, stream.tokens⟩ st path n → stream.tokens[i]? = some t →
    Reference text t n.bound →
    (∀ j d level, stream.tokens[j]? = some d → level ≠ .topLevel →
      Shadow.Declares text d level n.bound → ∃ start stop, StaticBlock stream.tokens start stop ∧
        start < j ∧ j < stop ∧ stop < i) →
    ((prepare text stream options).1.nameCode? i).isSome = true := by
  intro h
  let text :=
    "import \x7b x \x7d from 'm';\nclass A \x7b static \x7b var x = 1; \x7d \x7d\nx;".toList
  obtain ⟨stream, hparse, ⟨st, hst, himport⟩, ⟨t, ht, href⟩, hinside, hblock, hcopied⟩ : ∃ stream,
      parse text {} = .ok (.ok stream) ∧
      (∃ st ∈ stream.statements[0]?, Survey.Imports ⟨text, stream.tokens⟩ st "m" ⟨"x", "x"⟩) ∧
      (∃ t ∈ stream.tokens[19]?, Reference text t "x") ∧
      (stream.tokens.toList.zipIdx.all fun p => !Shadow.declaresInside p.1 || p.2 == 13) = true ∧
      StaticBlock stream.tokens 10 17 ∧
      ¬ ((prepare text stream { transforms := [.imports] }).1.nameCode? 19).isSome = true :=
    exists_accepted (by decide +kernel)
  refine hcopied (h text { transforms := [.imports] } stream st "m" ⟨"x", "x"⟩ 19 t hparse rfl rfl
    (Array.mem_of_getElem? hst) himport ht href ?_)
  intro j d level hd hlevel hdeclares
  have hj := List.all_eq_true.mp hinside (d, j)
    (List.mem_zipIdx_iff_getElem?.mpr (by simpa using hd))
  have hdeclared := (Shadow.declaresInside_iff text).mpr
    ⟨level, hlevel, hdeclares.spelled ▸ hdeclares⟩
  obtain rfl : j = 13 := by simpa [hdeclared] using hj
  exact ⟨10, 17, hblock, by decide, by decide, by decide⟩

end Downlevel.Compile
