import Downlevel.Proofs.Compile.Places
import Downlevel.Proofs.Grammar.Heads
import Downlevel.Proofs.Lowering.SnippetEnd

/-!
# What is lowered is in order

Lowering relies on what the parser notes on tokens. The snippet that is prepared for it has the
tokens of the one that was read, but for the marks on shadowed names, and so its statements are in
order (`prepare_ordered`).

One thing is not settled by the parser: lowering takes any word `enum` before a declared name for an
enumeration, be it `y = enum` at the end of a line and `z => z` in the next (`Listed`).
-/

namespace Downlevel

open Token (At Sided)
open Phrase (Spans)

variable {st : Statement}

/-- Whatever looks like an enumeration is one, and no statement starts in it. -/
def Listed (s : Sheet) (statements : List Statement) : Prop :=
  ∀ i, Lowering.isEnumerationAt s i = true → Sided s.tokens false i →
    ∃ j, Enumeration s.tokens i j ∧ ∀ st ∈ statements, i < st.start → j ≤ st.start

/-! ## Marked tokens -/

namespace Marking

variable {f : Nat → Token → Token} {tokens : Array Token} {i j m : Nat} {k : Kind} {b : Bool}

theorem getElem? {t : Token} (ht : (tokens.mapIdx f)[i]? = some t) :
    ∃ u, tokens[i]? = some u ∧ t = f i u := by
  rw [Array.getElem?_mapIdx, Option.map_eq_some_iff] at ht
  obtain ⟨u, hu, rfl⟩ := ht
  exact ⟨u, hu, rfl⟩

variable (hf : Marking f)
include hf

theorem tokens_extend (tokens : Array Token) : Token.Extends tokens (tokens.mapIdx f) := by
  constructor
  intro i t ht
  refine ⟨f i t, by simp [ht], hf.kind i t, ?_⟩
  rw [hf.shape]
  exact id

theorem at_iff : At (tokens.mapIdx f) i k ↔ At tokens i k := by
  constructor
  · rintro ⟨t, ht, rfl⟩
    rw [Array.getElem?_mapIdx, Option.map_eq_some_iff] at ht
    obtain ⟨u, hu, rfl⟩ := ht
    exact ⟨u, hu, (hf.kind i u).symm⟩
  · exact (·.mono (hf.tokens_extend tokens))

theorem undecorated (h : Undecorated tokens) : Undecorated (tokens.mapIdx f) := by
  intro i hi hdefault hmark
  rw [hf.at_iff] at hdefault hmark
  exact h i hdefault.lt_size hdefault hmark

theorem sided_iff : Sided (tokens.mapIdx f) b i ↔ Sided tokens b i := by
  constructor
  · rintro ⟨t, ht, rfl⟩
    obtain ⟨u, hu, rfl⟩ := getElem? ht
    exact ⟨u, hu, (hf.isType i u).symm⟩
  · rintro ⟨t, ht, rfl⟩
    exact ⟨f i t, by simp [ht], hf.isType i t⟩

theorem covered (h : Covered tokens i) : Covered (tokens.mapIdx f) i := by
  obtain ⟨x, y, hx, hy, hcode, htypes⟩ := h
  exact ⟨x, y, hx, hy, hcode.mono (hf.tokens_extend tokens),
    fun z hz hzy => hf.sided_iff.mpr (htypes z hz hzy)⟩

theorem formed (h : Formed tokens) : Formed (tokens.mapIdx f) := by
  intro i t shape ht hshape
  have hext := hf.tokens_extend tokens
  obtain ⟨u, hu, rfl⟩ := getElem? ht
  rw [hf.shape] at hshape
  obtain ⟨hstart, e, hshaped, hend⟩ := h hu hshape
  refine ⟨hstart.mono hext, e, hshaped.mono hext fun b => ⟨b, fun y _ _ => ?_⟩, hend.mono hext⟩
  exact hf.sided_iff.mpr

theorem site {l : Nat} (h : Site tokens l m) : Site (tokens.mapIdx f) l m := by
  obtain ⟨k, hk, hmem⟩ := h.next
  refine ⟨h.code.mono (hf.tokens_extend tokens), fun y hy => hf.sided_iff.mpr (h.before y hy),
    fun y hy htype => ?_, k, hf.at_iff.mpr hk, hmem⟩
  rw [hf.sided_iff] at htype ⊢
  exact h.after y hy htype

theorem separated_iff : Separated (tokens.mapIdx f) i j ↔ Separated tokens i j := by
  simp only [Separated, hf.at_iff]

theorem initialized (h : Initialized tokens i j) : Initialized (tokens.mapIdx f) i j := by
  cases h with
  | counted => exact .counted
  | string heq hvalue => exact .string (hf.at_iff.mpr heq) (hf.at_iff.mpr hvalue)
  | @noted _ t heq hkind hstop hsite hno =>
    refine .noted (t := f (i + 1) t) (by simp [heq]) (by rw [hf.kind, hkind])
      (by rw [hf.rhsEnd, hstop]) (hf.site hsite) fun hstring j => ?_
    rw [hf.separated_iff]
    exact hno (hf.at_iff.mp hstring) j

theorem members {ms : List Nat} (h : Members tokens i ms m) :
    Members (tokens.mapIdx f) i ms m := by
  induction h with
  | nil hc => exact .nil (hf.at_iff.mpr hc)
  | cons hname hk hvalue hafter _ ih =>
    exact .cons (hf.at_iff.mpr hname) hk (hf.initialized hvalue) (hf.separated_iff.mpr hafter) ih

theorem listing {ms : List Nat} (h : Listing tokens i ms m) :
    Listing (tokens.mapIdx f) i ms m :=
  ⟨hf.at_iff.mpr h.word, hf.at_iff.mpr h.name, hf.at_iff.mpr h.opened, hf.sided_iff.mpr h.side,
    hf.members h.members⟩

theorem enumeration (h : Enumeration tokens i j) : Enumeration (tokens.mapIdx f) i j := by
  cases h with
  | plain h => exact .plain (hf.listing h)
  | constant hconst h => exact .constant (hf.at_iff.mpr hconst) (hf.listing h)

theorem isEnumerationAt (text : List Char) (tokens : Array Token) (i : Nat) :
    Lowering.isEnumerationAt ⟨text, tokens.mapIdx f⟩ i =
    Lowering.isEnumerationAt ⟨text, tokens⟩ i := by
  have hkinds : ∀ k, Sheet.hasKinds ⟨text, tokens.mapIdx f⟩ i [k] =
      Sheet.hasKinds ⟨text, tokens⟩ i [k] := by
    intro k
    rw [Bool.eq_iff_iff, Sheet.hasKinds_one_iff, Sheet.hasKinds_one_iff, hf.at_iff]
  have hword : ∀ i, Sheet.hasWord ⟨text, tokens.mapIdx f⟩ i .kwEnum =
      Sheet.hasWord ⟨text, tokens⟩ i .kwEnum := by
    intro i
    cases ht : tokens[i]? <;> simp [Sheet.hasWord, ht, hf.isWord]
  have hrole : ∀ i, (Sheet.token? ⟨text, tokens.mapIdx f⟩ i).bind (·.role) =
      (Sheet.token? ⟨text, tokens⟩ i).bind (·.role) := by
    intro i
    cases ht : tokens[i]? <;> simp [Sheet.token?, ht, hf.role]
  simp only [Lowering.isEnumerationAt, hkinds, hword, hrole]

end Marking

/-! ## The scene -/

namespace Compile

variable {text : List Char} {options : CompileOptions} {stream : TokenStream}

/-- Elements are lowered, or enumerations. -/
def Nests (text : List Char) (stream : TokenStream) (options : CompileOptions) : Prop :=
  (Transform.jsx ∈ options.transforms ∧ options.jsxRuntime ≠ .preserve) ∨
    (Transform.typescript ∈ options.transforms ∧
      ∃ i, Lowering.isEnumerationAt ⟨text, stream.tokens⟩ i = true)

/-- What the parser leaves open is as lowering takes it: what looks like an enumeration is one, and
where something is nested, no token but `class` stands for it. -/
structure Regular (text : List Char) (stream : TokenStream) (options : CompileOptions) : Prop where
  listed : Transform.typescript ∈ options.transforms →
    Listed ⟨text, stream.tokens⟩ stream.statements.toList
  plain : Nests text stream options → Undecorated stream.tokens

/-- Without types, only elements call for more. -/
theorem Regular.of_untyped (htypescript : Transform.typescript ∉ options.transforms)
    (hplain : Transform.jsx ∈ options.transforms → options.jsxRuntime ≠ .preserve →
      Undecorated stream.tokens) : Regular text stream options :=
  ⟨(absurd · htypescript),
    Or.rec (fun hjsx => hplain hjsx.1 hjsx.2) fun hnests => absurd hnests.1 htypescript⟩

theorem mem_moduleStatements :
    st ∈ (prepare text stream options).1.moduleStatements ↔
      Transform.imports ∈ options.transforms ∧ st ∈ stream.statements.toList ∧
      st.kind.OfModule := by
  change st ∈ (if options.has .imports = true then _ else _) ↔ _
  split <;> rename_i himports
  · rw [List.mem_filter]
    simp_all [CompileOptions.has, StatementKind.OfModule, or_assoc]
  · simp_all [CompileOptions.has]

theorem prepare_enumerates {i : Nat} : (prepare text stream options).1.Enumerates i ↔
    Transform.typescript ∈ options.transforms ∧
      Lowering.isEnumerationAt ⟨text, stream.tokens⟩ i = true := by
  obtain ⟨f, hf, hsheet⟩ := prepare_tokens text stream options
  unfold Lowering.Scene.Enumerates
  rw [hsheet, hf.isEnumerationAt, Bool.and_eq_true]
  simp [prepare, CompileOptions.has]

variable (hparse : parse text options.dialect = .ok (.ok stream))
  (hregular : Regular text stream options)
include hparse hregular

/-- What is lowered is in order when it was accepted. -/
theorem prepare_ordered : ∃ body last, (prepare text stream options).1.sheet.Whole body last ∧
        (prepare text stream options).1.Ordered body.size := by
  obtain ⟨body, last, htokens, hreads⟩ := parse_reads hparse
  obtain ⟨f, hf, hsheet⟩ := prepare_tokens text stream options
  have hwhole := (Sheet.Whole.ofReads htokens hreads).mapIdx hf
  have hsize : stream.tokens.size - 1 = (body.mapIdx f).size := by simp [htokens]
  have houtline := (parse_outlines hparse).mono (hf.tokens_extend stream.tokens)
  have hlast := hf.sided_iff.mpr (parse_last_untyped hparse)
  have hmarked : (prepare text stream options).1.sheet.tokens = stream.tokens.mapIdx f :=
    congrArg Sheet.tokens hsheet
  have heof : At (stream.tokens.mapIdx f) (body.mapIdx f).size .eof := by
    refine hf.at_iff.mpr ⟨last, ?_, hreads.ended⟩
    simp [htokens]
  rw [hsize] at houtline hlast
  rw [← hmarked] at houtline hlast heof
  refine ⟨_, _, hsheet ▸ hwhole, Lowering.ordered_of_outline (fun hpragmas => ?_)
    (fun i henum => ?_) houtline (fun i henum hside => ?_) hlast heof fun st hst => ?_⟩
  · have hundecorated : Undecorated stream.tokens := by
      refine hregular.plain (.inl ⟨?_, ?_⟩)
      all_goals
        by_contra hno
        simp [prepare, CompileOptions.has, hno] at hpragmas
    rw [hmarked]
    refine ⟨hf.undecorated hundecorated, fun i htype => ?_,
      hf.formed (parse_formed hparse hundecorated)⟩
    exact hf.covered (parse_covered hparse (hf.sided_iff.mp htype))
  · rw [hmarked]
    obtain ⟨htypescript, hat⟩ := prepare_enumerates.mp henum
    exact hf.undecorated (hregular.plain (.inr ⟨htypescript, i, hat⟩))
  · obtain ⟨htypescript, hat⟩ := prepare_enumerates.mp henum
    rw [hmarked] at hside ⊢
    obtain ⟨j, hj, houter⟩ := hregular.listed htypescript i hat (hf.sided_iff.mp hside)
    exact ⟨j, hf.enumeration hj, houter⟩
  · exact (mem_moduleStatements.mp hst).2.1

omit hregular in
theorem prepare_meets {x : Nat} (hcode : Spans stream.tokens .code 0 x)
    (harrows : ∀ i < x, Sided stream.tokens false i → ∀ arrow,
      Lowering.arrowAfterType? (prepare text stream options).1.sheet i = some arrow → arrow < x)
    (henum : Transform.typescript ∈ options.transforms → ∀ i < x,
      Lowering.isEnumerationAt ⟨text, stream.tokens⟩ i = true → Sided stream.tokens false i →
      ∃ j ≤ x, Enumeration stream.tokens i j)
    (hstop : ∀ st ∈ stream.statements.toList, st.kind.OfModule → st.start < x → st.stop ≤ x) :
    (prepare text stream options).1.Meets x := by
  obtain ⟨f, hf, hmarked⟩ := prepare_marked text stream options
  refine ⟨fun _ => ?_, fun i hi hside => harrows i hi (hf.sided_iff.mp (hmarked ▸ hside)),
    fun i hi hat hside => ?_, fun st hst hlt => ?_⟩
  · rw [hmarked]
    exact hcode.mono (hf.tokens_extend stream.tokens)
  · obtain ⟨htypescript, hat⟩ := prepare_enumerates.mp hat
    rw [hmarked] at hside ⊢
    obtain ⟨j, hj, h⟩ := henum htypescript i hi hat (hf.sided_iff.mp hside)
    exact ⟨j, hj, hf.enumeration h⟩
  · obtain ⟨-, hmem, hmodule⟩ := mem_moduleStatements.mp hst
    have hle := hstop st hmem hmodule hlt
    refine ⟨hle, fun hdefault hexport => ?_, fun t stop ht hrhs => ?_⟩
    · rw [hmarked, hf.at_iff] at hexport
      have := parse_wide hparse hmem hdefault hexport
      omega
    · rw [hmarked] at ht
      obtain ⟨u, hu, rfl⟩ := Marking.getElem? ht
      rw [hf.rhsEnd] at hrhs
      have hwide := ((parse_outlines hparse).bounds.2 st hmem).2.1
      exact Nat.le_trans (parse_ends hparse hmem hwide ⟨u, hu, hrhs⟩).2 hle

/-- Nothing goes on from before where a statement begins and no type goes on. -/
theorem prepare_firm (hst : st ∈ stream.statements.toList)
    (hafter : ∀ y, y + 1 = st.start → Sided stream.tokens true y →
      ¬ Sided stream.tokens true st.start)
    (hnext : ¬ At stream.tokens st.start .colon ∧ ¬ At stream.tokens st.start .arrow) :
    (prepare text stream options).1.Firm st.start := by
  obtain ⟨f, hf, hmarked⟩ := prepare_marked text stream options
  have houtline := parse_outlines hparse
  have hedge : ∀ y, y + 1 = st.start → Sided (prepare text stream options).1.sheet.tokens true y →
      ¬ Sided (prepare text stream options).1.sheet.tokens true st.start := by
    intro y hy
    rw [hmarked, hf.sided_iff, hf.sided_iff]
    exact hafter y hy
  refine ⟨prepare_meets hparse ((houtline.code (.nil 0)).2 st hst).1
    (fun i hi _ arrow harrow => Lowering.arrow_lt hedge ?_ harrow hi)
    (fun htypescript i hi hat hside => ?_) fun st' hst' _ hlt => ?_, hedge⟩
  · rwa [hmarked, hf.at_iff, hf.at_iff]
  · obtain ⟨j, hj, houter⟩ := hregular.listed htypescript i hat hside
    exact ⟨j, houter st hst hi, hj⟩
  · exact (houtline.apart st' hst' st hst).resolve_left (by omega)

/-- Nothing goes on from before where a statement of the module begins with its word. -/
theorem prepare_firm_of_module (hst : st ∈ stream.statements.toList)
    (hmodule : st.kind.OfModule) (hplain : ¬ At stream.tokens st.start .atSign) :
    (prepare text stream options).1.Firm st.start := by
  obtain ⟨hword, hside⟩ := parse_led hparse hst hmodule hplain
  have hne : ∀ k, k = .colon ∨ k = .arrow → ¬ At stream.tokens st.start k := by
    intro k hk hat
    have hkind := hword.kind_eq hat
    unfold Grammar.wordOf at hkind
    split at hkind <;> rcases hk with rfl | rfl <;> cases hkind
  exact prepare_firm hparse hregular hst (fun _ _ _ htype => by cases hside.eq htype)
    ⟨hne _ (.inl rfl), hne _ (.inr rfl)⟩

end Compile

end Downlevel
