import Downlevel.Proofs.Compile.Hygiene
import Downlevel.Proofs.Compile.Yields

/-!
# Calls of imported functions

A member of a module that is called would get the module for its `this`, and so an imported name
that is called becomes `(0, module.name)`. Whether it is called is read off the tokens behind it. It
is the same before and after types are erased, as long as no type stands between the name and what
calls it (`imported_calls_lose_receiver`). With a type in between the call is not seen, and the
function is called with the module as `this` (`typed_call_keeps_receiver`).
-/

namespace Downlevel.Compile

open Token (At Sided)

/-- Tokens of these kinds call or tag what stands before them. -/
def callsBefore (ks : List Kind) : Bool :=
  ks.head? == some .parenL || ks.take 2 == [.questionDot, .parenL] || ks.head? == some .backQuote

/-- The kinds of the tokens behind an index, once types are erased. -/
def kindsAfter (tokens : Array Token) (i : Nat) : List Kind :=
  ((tokens.toList.drop (i + 1)).filter fun t => !t.isType).map (·.kind)

/-- Once types are erased, the name at an index is called, and not by `new`. -/
def isCalledErased (tokens : Array Token) (i : Nat) : Bool :=
  callsBefore (kindsAfter tokens i) && !(i != 0 && (tokens[i - 1]?).any (·.kind == .kwNew))

/-- How a member of a module is written in the place of the name at an index: without a receiver if
it is called. -/
def memberForm (tokens : Array Token) (i : Nat) (code : String) : String :=
  if isCalledErased tokens i then "(0, " ++ code ++ ")" else code

/-- No type stands between the token at an index and a call behind it. -/
structure Adjoined (tokens : Array Token) (i : Nat) : Prop where
  next : ¬ Sided tokens true (i + 1)
  second : At tokens (i + 1) .questionDot → ¬ Sided tokens true (i + 2)

section

variable {tokens : Array Token} {i : Nat}

instance (tokens : Array Token) (i : Nat) : Decidable (Adjoined tokens i) :=
  decidable_of_iff ((tokens[i + 1]?.any (·.isType)) = false ∧
      (At tokens (i + 1) .questionDot → (tokens[i + 2]?.any (·.isType)) = false)) (by
    have hsided : ∀ j, (tokens[j]?.any (·.isType)) = false ↔ ¬ Sided tokens true j := by
      intro j
      rw [← Bool.not_eq_true, Option.any_eq_true]
      rfl
    rw [hsided, hsided]
    exact ⟨fun h => ⟨h.1, h.2⟩, fun h => ⟨h.next, h.second⟩⟩)

theorem kindsAfter_of_none (h : tokens[i + 1]? = none) : kindsAfter tokens i = [] := by
  have hsize := Array.getElem?_eq_none_iff.mp h
  rw [kindsAfter, List.drop_eq_nil_of_le (by simpa using hsize)]
  rfl

theorem kindsAfter_of_value {t : Token} (h : tokens[i + 1]? = some t)
    (hvalue : ¬ Sided tokens true (i + 1)) :
    kindsAfter tokens i = t.kind :: kindsAfter tokens (i + 1) := by
  have htype : t.isType = false := by
    cases htype : t.isType with
    | false => rfl
    | true => exact absurd ⟨t, h, htype⟩ hvalue
  have hdrop : tokens.toList.drop (i + 1) = t :: tokens.toList.drop (i + 1 + 1) := by
    obtain ⟨hlt, rfl⟩ := Array.getElem?_eq_some_iff.mp h
    exact List.drop_eq_getElem_cons (by simpa using hlt)
  unfold kindsAfter
  rw [hdrop, List.filter_cons_of_pos (by simp [htype]), List.map_cons]

/-- A call that follows directly is seen before types are erased and afterwards. -/
theorem isCalledErased_eq (text : List Char) (h : Adjoined tokens i) :
    isCalledErased tokens i = Lowering.isCalledAt ⟨text, tokens⟩ i := by
  unfold isCalledErased Lowering.isCalledAt
  congr 1
  · cases hnext : tokens[i + 1]? with
    | none => simp [kindsAfter_of_none hnext, callsBefore, Sheet.hasKinds, hnext]
    | some t =>
      rw [kindsAfter_of_value hnext h.next]
      by_cases hdot : t.kind = .questionDot
      · have hsecond := h.second ⟨t, hnext, hdot⟩
        cases hthen : tokens[i + 1 + 1]? with
        | none =>
          simp [kindsAfter_of_none hthen, callsBefore, Sheet.hasKinds, hnext, hthen, hdot]
        | some u =>
          simp [kindsAfter_of_value hthen hsecond, callsBefore, Sheet.hasKinds, hnext, hthen, hdot]
      · simp [callsBefore, Sheet.hasKinds, hnext, beq_eq_false_iff_ne.mpr hdot]
  · simp [Sheet.hasKinds]

theorem hasKinds_marked {f : Nat → Token → Token} (hf : Marking f) (text : List Char) (i : Nat)
    (ks : List Kind) : (⟨text, tokens.mapIdx f⟩ : Sheet).hasKinds i ks =
      (⟨text, tokens⟩ : Sheet).hasKinds i ks := by
  induction ks generalizing i with
  | nil => rfl
  | cons k ks ih =>
    rw [Bool.eq_iff_iff, Sheet.hasKinds_cons_iff, Sheet.hasKinds_cons_iff, hf.at_iff, ih]

end

variable {text : List Char} {stream : TokenStream} {options : CompileOptions}

theorem isCalledAt_prepare (i : Nat) :
    Lowering.isCalledAt (prepare text stream options).1.sheet i =
      Lowering.isCalledAt ⟨text, stream.tokens⟩ i := by
  obtain ⟨f, hf, hsheet⟩ := prepare_tokens text stream options
  rw [hsheet, Lowering.isCalledAt, hasKinds_marked hf, hasKinds_marked hf, hasKinds_marked hf,
    hasKinds_marked hf]
  rfl

/-- Where no types are written, none stands between a name and its call. -/
theorem adjoined_of_untyped {dialect : Dialect} (hparse : parse text dialect = .ok (.ok stream))
    (htyped : dialect.typed = false) (i : Nat) : Adjoined stream.tokens i := by
  obtain ⟨body, last, htokens, hreads⟩ := parse_reads hparse
  have hvalue : ∀ j, ¬ Sided stream.tokens true j := by
    rintro j ⟨t, ht, htype⟩
    rw [hreads.untyped htyped t (htokens ▸ Array.mem_of_getElem? ht)] at htype
    cases htype
  exact ⟨hvalue _, fun _ => hvalue _⟩

variable {i : Nat} {t : Token} {n : NamedImport}

/-- What stands for an imported name is not hidden. -/
theorem not_hidden_of_nameCode? (h : Imported text options stream n i t)
    (hshown : ((prepare text stream options).1.nameCode? i).isSome = true) :
    ¬ Shadow.Hidden text stream n.bound i := by
  obtain ⟨code, shadowed, -, -, hshadowed, hname⟩ := h.nameCode?_eq
  intro hhidden
  rw [hname, if_pos (hshadowed.mpr hhidden)] at hshown
  cases hshown

/-- A reference to an imported name is replaced by a member of its module, which is put in
parentheses if and only if it is called once types are erased. -/
theorem imported_calls_lose_receiver (h : Imported text options stream n i t)
    (hrole : t.role = some .access) (hshown : ¬ Shadow.Hidden text stream n.bound i)
    (hadjoined : options.dialect.typed = true → Adjoined stream.tokens i) :
    let c := (prepare text stream options).1
    ∃ code, Linkage.Gives (surveyOf text stream options).uses
        (linkageOf text stream options).records n.bound code ∧
      ∀ d : Lowering.Draft, d.editor.index = i →
        Lowering.name c d = .ok ((), { d with
          editor := d.editor.replace c.sheet (memberForm stream.tokens i code) }) ∧
        ((options.has .typescript && Lowering.isEnumerationAt c.sheet i) = false →
          ∀ k, Lowering.token k c d = Lowering.name c d) := by
  intro c
  obtain ⟨code, shadowed, hgives, htoken, hshadowed, hname⟩ := h.nameCode?_eq
  have hadjoined : Adjoined stream.tokens i := by
    cases htyped : options.dialect.typed with
    | false => exact adjoined_of_untyped h.parsed htyped i
    | true => exact hadjoined htyped
  refine ⟨code, hgives, ?_⟩
  rintro d rfl
  have hcode : referenceCode c.sheet d.editor.index t.role n.bound code =
      memberForm stream.tokens d.editor.index code := by
    rw [referenceCode, if_neg (by simp [hrole]), isCalledAt_prepare, memberForm,
      isCalledErased_eq text hadjoined]
  rw [if_neg (hshadowed.not.mpr hshown), hcode] at hname
  exact ⟨name_of_nameCode? hname,
    fun henum k => token_eq_name k htoken h.refers.value h.refers.kind henum⟩

/-- An optional call behind a type annotation that is not part of it. -/
theorem imported_calls_lose_receiver_optional :
    let text := "import \x7b f \x7d from 'm'; let a: T = f?.(1)".toList
    let options : CompileOptions := { transforms := [.typescript, .imports] }
    ∃ stream code, parse text options.dialect = .ok (.ok stream) ∧
      memberForm stream.tokens 12 code = "(0, " ++ code ++ ")" ∧
      ∀ d : Lowering.Draft, d.editor.index = 12 →
        Lowering.name (prepare text stream options).1 d = .ok ((), { d with
          editor := d.editor.replace (prepare text stream options).1.sheet
            (memberForm stream.tokens 12 code) }) := by
  intro text options
  obtain ⟨stream, hparse, ⟨st, hst, himport⟩, ⟨t, ht, href, hrole⟩, hadjoined, hcalled, hshown⟩ :
      ∃ stream, parse text options.dialect = .ok (.ok stream) ∧
      (∃ st ∈ stream.statements[0]?, Survey.Imports ⟨text, stream.tokens⟩ st "m" ⟨"f", "f"⟩) ∧
      (∃ t ∈ stream.tokens[12]?, Reference text t "f" ∧ t.role = some .access) ∧
      Adjoined stream.tokens 12 ∧ isCalledErased stream.tokens 12 = true ∧
      ((prepare text stream options).1.nameCode? 12).isSome = true :=
    exists_accepted (by decide +kernel)
  have himported : Imported text options stream ⟨"f", "f"⟩ 12 t :=
    ⟨hparse, rfl, rfl, ⟨st, Array.mem_of_getElem? hst, "m", himport⟩, ht, href⟩
  obtain ⟨code, -, hall⟩ := imported_calls_lose_receiver himported hrole
    (not_hidden_of_nameCode? himported hshown) fun _ => hadjoined
  refine ⟨stream, code, hparse, ?_, fun d hd => (hall d hd).1⟩
  rw [memberForm, if_pos hcalled]

/-- Not every call is seen: behind type arguments the function is called with the module as `this`.
-/
theorem typed_call_keeps_receiver : ¬ ∀ (text : List Char) (options : CompileOptions)
    (stream : TokenStream) (out : Compiled), compile text options = .ok out →
    ∀ (i : Nat) (t : Token) (n : NamedImport) (code : String),
      Imported text options stream n i t → t.role = some .access →
      ¬ Shadow.Hidden text stream n.bound i →
      (linkageOf text stream options).replacement? n.bound = some code →
      (memberForm stream.tokens i code).toList <:+: out.code.toList := by
  intro h
  let text := "import \x7b f \x7d from 'x';\nf<number>(1);".toList
  let options : CompileOptions := { transforms := [.typescript, .imports] }
  obtain ⟨stream, d, out, hyields, ⟨st, hst, himport⟩, ⟨t, ht, href, hrole⟩, hshown, hreplacement,
      hlost⟩ : ∃ stream d out, Yields text options stream d out ∧
      (∃ st ∈ stream.statements[0]?, Survey.Imports ⟨text, stream.tokens⟩ st "x" ⟨"f", "f"⟩) ∧
      (∃ t ∈ stream.tokens[7]?, Reference text t "f" ∧ t.role = some .access) ∧
      ((prepare text stream options).1.nameCode? 7).isSome = true ∧
      (linkageOf text stream options).replacement? "f" = some "x$0.f" ∧
      ¬ (memberForm stream.tokens 7 "x$0.f").toList <:+: out.code.toList :=
    exists_yielded (by decide +kernel)
  have himported : Imported text options stream ⟨"f", "f"⟩ 7 t :=
    ⟨hyields.parsed, rfl, rfl, ⟨st, Array.mem_of_getElem? hst, "x", himport⟩, ht, href⟩
  exact hlost (h _ _ stream out hyields.compile 7 t _ _ himported hrole
    (not_hidden_of_nameCode? himported hshown) hreplacement)

end Downlevel.Compile
