import Downlevel.Proofs.Compile.Steps
import Downlevel.Proofs.Lowering.Walk
import Downlevel.Proofs.SourceMap.Lookup

/-!
# Where compiled code comes from

Whatever the options, each place that a compiled snippet records is one of its code and one of the
snippet, later places of the code come from later places of the snippet, and no offset of the code
comes from two offsets of the snippet (`traced_of_compile`).
Marking shadowed names changes no span, so that lowering still works on tokens that tile the text.
-/

namespace Downlevel

open Text (Place size)

/-! ## Marked tokens -/

/-- Nothing is noted on a token but that the name stands for an inner declaration. -/
def Marking (f : Nat → Token → Token) : Prop :=
  ∀ i t, ∃ shadowed, f i t = { t with shadowed }

namespace Marking

variable {f : Nat → Token → Token} (hf : Marking f) (i : Nat) (t : Token)
include hf

theorem kind : (f i t).kind = t.kind := by
  obtain ⟨_, h⟩ := hf i t
  rw [h]

theorem span : (f i t).span = t.span := by
  obtain ⟨_, h⟩ := hf i t
  rw [h]

theorem isType : (f i t).isType = t.isType := by
  obtain ⟨_, h⟩ := hf i t
  rw [h]

theorem shape : (f i t).shape = t.shape := by
  obtain ⟨_, h⟩ := hf i t
  rw [h]

theorem role : (f i t).role = t.role := by
  obtain ⟨_, h⟩ := hf i t
  rw [h]

theorem rhsEnd : (f i t).rhsEnd = t.rhsEnd := by
  obtain ⟨_, h⟩ := hf i t
  rw [h]

theorem isWord (word : Contextual) : (f i t).isWord word = t.isWord word := by
  obtain ⟨_, h⟩ := hf i t
  rw [h]
  rfl

end Marking

theorem unmarked (tokens : Array Token) : ∃ f, Marking f ∧ tokens = tokens.mapIdx f := by
  refine ⟨fun _ t => t, fun _ t => ⟨t.shadowed, rfl⟩, ?_⟩
  apply Array.ext <;> simp

theorem mark_eq_mapIdx (s : Sheet) (scopes : List Scope) (globals : List String) :
    ∃ f, Marking f ∧ Shadow.mark s scopes globals = s.tokens.mapIdx f := by
  unfold Shadow.mark
  dsimp only
  split
  · exact unmarked s.tokens
  · refine ⟨_, fun i t => ?_, rfl⟩
    split
    · exact ⟨true, rfl⟩
    · exact ⟨t.shadowed, rfl⟩

theorem Sheet.Whole.mapIdx {s : Sheet} {body : Array Token} {last : Token} (h : s.Whole body last)
    {f : Nat → Token → Token} (hf : Marking f) :
    Sheet.Whole ⟨s.text, s.tokens.mapIdx f⟩ (body.mapIdx f) (f body.size last) := by
  have hget : ∀ {i : Nat} {t' : Token}, (body.mapIdx f)[i]? = some t' →
      ∃ t, body[i]? = some t ∧ t' = f i t := by
    intro i t' ht'
    rw [Array.getElem?_mapIdx, Option.map_eq_some_iff] at ht'
    obtain ⟨t, ht, rfl⟩ := ht'
    exact ⟨t, ht, rfl⟩
  refine ⟨?_, h.tiled.congr ?_ ?_ ?_, ?_, ?_⟩
  · simp [h.tokens, Array.mapIdx_push]
  · intro i t' ht'
    obtain ⟨t, ht, rfl⟩ := hget ht'
    exact ⟨t, ht, hf.kind i t, hf.span i t⟩
  · exact Array.size_mapIdx
  · intro i t' u' ht' hu' hpiece
    obtain ⟨t, ht, rfl⟩ := hget ht'
    obtain ⟨u, hu, rfl⟩ := hget hu'
    obtain ⟨v, hv, hends⟩ := h.tiled.pieces ht (by rw [← hf.kind i t, hpiece])
    obtain rfl := Option.some.inj (hu.symm.trans hv)
    rw [hf.isType, hf.isType, hends.isType]
  · rw [hf.kind, h.ended]
  · rw [hf.span, h.span]

/-! ## Compiled snippets -/

namespace Compile

variable {text : List Char} {options : CompileOptions}

/-- The tokens that are lowered are those of the snippet, with shadowed names marked. -/
theorem prepare_tokens (text : List Char) (stream : TokenStream) (options : CompileOptions) :
    ∃ f, Marking f ∧ (prepare text stream options).1.sheet = ⟨text, stream.tokens.mapIdx f⟩ := by
  unfold prepare
  cases options.has .imports with
  | false =>
    obtain ⟨f, hf, htokens⟩ := unmarked stream.tokens
    exact ⟨f, hf, congrArg (Sheet.mk text) htokens⟩
  | true =>
    obtain ⟨f, hf, hmark⟩ := mark_eq_mapIdx ⟨text, stream.tokens⟩ stream.scopes.toList
      (link text stream options (NameSupply.ofSheet ⟨text, stream.tokens⟩)).1.replacements.keys
    exact ⟨f, hf, congrArg (Sheet.mk text) hmark⟩

theorem prepare_marked (text : List Char) (stream : TokenStream) (options : CompileOptions) :
    ∃ f, Marking f ∧
      (prepare text stream options).1.sheet.tokens = stream.tokens.mapIdx f := by
  obtain ⟨f, hf, hsheet⟩ := prepare_tokens text stream options
  exact ⟨f, hf, congrArg Sheet.tokens hsheet⟩

theorem prepare_whole {stream : TokenStream}
    (hparse : parse text options.dialect = .ok (.ok stream)) :
    (prepare text stream options).1.sheet.text = text ∧
      ∃ body last, (prepare text stream options).1.sheet.Whole body last := by
  obtain ⟨body, last, htokens, hreads⟩ := parse_reads hparse
  obtain ⟨f, hf, hsheet⟩ := prepare_tokens text stream options
  rw [hsheet]
  exact ⟨rfl, _, _, (Sheet.Whole.ofReads htokens hreads).mapIdx hf⟩

/-- The code and the places of a compiled snippet fit together, and its map is made from them. -/
structure Traced (text : List Char) (out : Compiled) : Prop where
  paired : SourceMap.Paired text out.code.toList out.places
  inside : ∀ p ∈ out.places, p.2 < size text
  unambiguous : SourceMap.Unambiguous out.places
  climbing : out.places.Pairwise fun p q => p.1 ≤ q.1 ∧ p.2 ≤ q.2
  map : ∃ name, out.map = SourceMap.build name none true text out.code.toList out.places

/-- What is assembled is the rendering of the snippet after the code that leads. -/
theorem assemble_eq (text : List Char) (options : CompileOptions) (c : Lowering.Scene)
    (d : Lowering.Draft) (rendering : Rendering) :
    (assemble text options c d rendering).code =
        (Rendering.plain (lead c.linkage d.runtime) ++ rendering).code ∧
      (assemble text options c d rendering).places =
        (Rendering.plain (lead c.linkage d.runtime) ++ rendering).places.toList := by
  refine ⟨rfl, ?_⟩
  simp [assemble, Rendering.plain]

theorem traced_of_compile {out : Compiled} (h : compile text options = .ok out) :
    Traced text out := by
  obtain ⟨stream, d, rendering, hparse, hrun, hfinish, rfl⟩ := compile_eq_ok_iff.mp h
  obtain ⟨htext, body, last, hwhole⟩ := prepare_whole hparse
  have hneat := Lowering.neat_of_snippet hwhole rfl hrun hfinish
  rw [htext] at hneat
  obtain ⟨hcode, hplaces⟩ := assemble_eq text options (prepare text stream options).1 d rendering
  have hall := (Rendering.neat_plain (lead (prepare text stream options).1.linkage d.runtime)
    none).append_of_none hneat
  refine ⟨?_, ?_, ?_, ?_, ⟨_, rfl⟩⟩
  · intro p hp
    rw [hplaces, Array.mem_toList_iff] at hp
    rw [hcode]
    exact ⟨hall.place p hp, (hall.source p hp).1⟩
  · intro p hp
    rw [hplaces, Array.mem_toList_iff] at hp
    exact (hall.source p hp).2
  · rw [hplaces]
    exact hall.unambiguous
  · have hclimbs := Lowering.climbs_of_snippet hwhole rfl hrun hfinish
    rw [hplaces]
    refine (hall.ordered.imp fun {p q} hpq => ?_).and ?_
    · exact hpq.elim Nat.le_of_lt fun heq => Nat.le_of_eq (congrArg Prod.fst heq)
    · -- the code that leads has no places, and the others only move
      simpa [Rendering.places_append, Rendering.plain, Rendering.shifted, List.pairwise_map]
        using hclimbs

end Compile

end Downlevel
