import Downlevel.Proofs.Compile.Places
import Downlevel.Proofs.Linkage.Records
import Downlevel.Proofs.Lowering.Rounds

/-!
# Names that compiling makes

Compiled code has variables of its own: for the modules of the snippet, for the modules that
elements need, and for helpers. They differ from one another and from all names that the snippet
uses (`made_names_fresh`), because one supply gives them all out and starts from the names of the
snippet.
-/

namespace Downlevel

open NameSupply (Event Claims)

namespace Compile

variable {text : List Char} {options : CompileOptions} {stream : TokenStream}

/-- The names of the modules of a snippet. -/
def moduleNames (linkage : Option Linkage) : List String :=
  (linkage.map fun l => l.records.map (·.2.base)).getD []

def helperNames (linkage : Option Linkage) : List String :=
  (linkage.map fun l => l.helpers.map (·.2)).getD []

/-- All names that are made on the way from a scene to a draft: for the modules of the snippet, for
the modules that elements need, and for helpers. -/
def madeNames (c : Lowering.Scene) (d : Lowering.Draft) : List String :=
  moduleNames c.linkage ++ d.runtime.map (·.2.base) ++ helperNames c.linkage

theorem link_gave (text : List Char) (stream : TokenStream) (options : CompileOptions)
    (names : NameSupply) :
    let linked := link text stream options names
    names.Gave (moduleNames (some linked.1) ++ helperNames (some linked.1)) linked.2 := by
  intro linked
  have hbuilt : Linkage.Built _ _ linked := Linkage.generate_built ..
  obtain ⟨records, helpers, hrecords, hhelpers, hgave⟩ := hbuilt.gave
  simpa [moduleNames, helperNames, hrecords, hhelpers] using hgave

/-- Before lowering, the names that are taken are those of the snippet, of its modules and of
helpers. -/
theorem prepare_gave (text : List Char) (stream : TokenStream) (options : CompileOptions) :
    (NameSupply.ofSheet ⟨text, stream.tokens⟩).Gave
      (moduleNames (prepare text stream options).1.linkage ++
        helperNames (prepare text stream options).1.linkage)
      (prepare text stream options).2.names := by
  unfold prepare
  cases options.has .imports with
  | false => exact .refl _
  | true => exact link_gave text stream options _

/-- Lowering adds the names of the modules that elements need. -/
theorem snippet_gave {d : Lowering.Draft}
    (hrun : Lowering.snippet (prepare text stream options).1 (prepare text stream options).2 =
      .ok ((), d)) :
    (NameSupply.ofSheet ⟨text, stream.tokens⟩).Gave
      (madeNames (prepare text stream options).1 d) d.names := by
  obtain ⟨more, hmore, hgave, -⟩ := (Lowering.rounds_of_snippet hrun).1.later.runtime
  have hempty : (prepare text stream options).2.runtime = [] := rfl
  rw [hempty, List.nil_append] at hmore
  refine ((prepare_gave text stream options).trans hgave).perm ?_
  rw [madeNames, hmore, List.append_assoc, List.append_assoc]
  exact List.perm_append_comm.append_left _

theorem requiredModules_sublist (c : Lowering.Scene) (d : Lowering.Draft) :
    ((requiredModules c.linkage d.runtime).map (·.base)).Sublist (madeNames c d) := by
  have hadded : ∀ (records done : List ImportRecord),
      (records.foldl (fun done r => if done.any (·.source == r.source) then done else done ++ [r])
        done).Sublist (done ++ records) := by
    intro records
    induction records with
    | nil => simp
    | cons r records ih =>
      intro done
      rw [List.foldl_cons]
      refine (ih _).trans ?_
      split
      · exact (List.sublist_cons_self r records).append_left done
      · simp
  refine ((hadded (d.runtime.map (·.2)) _).map (·.base)).trans ?_
  rw [madeNames, moduleNames]
  cases c.linkage with
  | none => simp [helperNames, Function.comp_def]
  | some l => simp [Function.comp_def]

end Compile

open Compile

/-- The names that compiling makes are different from one another and from the names of the snippet,
and among them are the variables of all modules that the code requires. Whatever calls are made on a
supply, each claim gives the name with the least number that makes one not yet taken, and so never
one that was told to be used. -/
theorem made_names_fresh :
    (∀ (text : List Char) (options : CompileOptions) (out : Compiled),
      compile text options = .ok out → ∃ stream d,
        parse text options.dialect = .ok (.ok stream) ∧
        Lowering.snippet (prepare text stream options).1 (prepare text stream options).2 =
          .ok ((), d) ∧
        (out.imports.map (·.base)).Sublist (madeNames (prepare text stream options).1 d) ∧
        (madeNames (prepare text stream options).1 d).Nodup ∧
        ∀ t ∈ stream.tokens, t.kind = .name ∨ t.kind = .jsxName →
          String.ofList (t.text text) ∉ madeNames (prepare text stream options).1 d) ∧
    ∀ (s : Sheet) (calls : List NameSupply.Call) (before after : List Event)
      (base name : String),
      (NameSupply.ofSheet s).answers calls = before ++ .claimed base name :: after →
      (∃ n, Claims (.ofSheet s) before base name n) ∧
        ∀ other, Event.asked other true ∈ before → other ≠ name := by
  refine ⟨fun text options out h => ?_, fun s calls before after base name h => ?_⟩
  · obtain ⟨stream, d, rendering, hparse, hrun, -, rfl⟩ := compile_eq_ok_iff.mp h
    have hgave := snippet_gave hrun
    refine ⟨stream, d, hparse, hrun, requiredModules_sublist _ d, hgave.nodup, ?_⟩
    intro t ht hkind hmade
    apply hgave.free _ hmade
    simp only [NameSupply.ofSheet, List.mem_map, List.mem_filter]
    exact ⟨t, ⟨Array.mem_toList_iff.mpr ht, by simpa using hkind⟩, rfl⟩
  · obtain ⟨n, hclaims⟩ := NameSupply.answers_claimed h
    refine ⟨⟨n, hclaims⟩, ?_⟩
    rintro other hasked rfl
    obtain ⟨earlier, later, rfl⟩ := List.append_of_mem hasked
    rw [List.append_assoc, List.cons_append] at h
    refine hclaims.free (((NameSupply.answers_asked h).mp rfl).imp id ?_)
    rintro ⟨base', hgiven⟩
    exact ⟨base', List.mem_append_left _ hgiven⟩

/-- A module whose first name the snippet uses itself, a helper and a module that an element needs;
and a supply that is asked for a name which it has given. -/
theorem made_names_fresh_fragment :
    (∃ out stream d,
      compile "import * as a from 'a'; export * from 'b'; a$0; <></>".toList
        { jsxRuntime := .automatic } = .ok out ∧
      out.imports.map (·.base) = ["a$1", "b$0", "jsxRuntime$0"] ∧
      (madeNames (prepare "import * as a from 'a'; export * from 'b'; a$0; <></>".toList stream
        { jsxRuntime := .automatic }).1 d).Nodup) ∧
    (NameSupply.ofSheet ⟨[], #[]⟩).answers [.claim "a", .ask "a$0", .claim "a"] =
        [.claimed "a" "a$0", .asked "a$0" true] ++ .claimed "a" "a$1" :: [] ∧
      "a$0" ≠ "a$1" := by
  obtain ⟨out, hcompile, himports⟩ : ∃ out,
      compile "import * as a from 'a'; export * from 'b'; a$0; <></>".toList
        { jsxRuntime := .automatic } = .ok out ∧
      out.imports.map (·.base) = ["a$1", "b$0", "jsxRuntime$0"] :=
    exists_compiled (by decide +kernel)
  obtain ⟨stream, d, -, -, -, hnodup, -⟩ := made_names_fresh.1 _ _ out hcompile
  refine ⟨⟨out, stream, d, hcompile, himports, hnodup⟩, ?_⟩
  have hanswers : (NameSupply.ofSheet ⟨[], #[]⟩).answers [.claim "a", .ask "a$0", .claim "a"] =
      [.claimed "a" "a$0", .asked "a$0" true] ++ .claimed "a" "a$1" :: [] := by decide +kernel
  exact ⟨hanswers, (made_names_fresh.2 _ _ _ _ _ _ hanswers).2 "a$0" (by decide)⟩

end Downlevel
