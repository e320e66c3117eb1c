import Downlevel.Compile.Basic
import Downlevel.Proofs.Edit.Copy
import Downlevel.Proofs.Grammar.Program

/-!
# The steps of compiling

A snippet compiles when it parses, when lowering gets through it and when its notes reach the end of
the input (`compile_eq_ok_iff`).
-/

namespace Downlevel

variable {options : CompileOptions} {text : List Char}

namespace Compile

/-- What the rendering of a snippet is compiled to. -/
def assemble (text : List Char) (options : CompileOptions) (c : Lowering.Scene) (d : Lowering.Draft)
    (rendering : Rendering) : Compiled :=
  let lead := lead c.linkage d.runtime
  let places := (Rendering.shifted lead.utf8ByteSize rendering.places).toList
  { code := lead ++ rendering.code
    imports := requiredModules c.linkage d.runtime
    places
    map := SourceMap.build (options.filePath.getD "snippet") none true text
      (lead ++ rendering.code).toList places }

end Compile

open Compile

theorem Sheet.Whole.ofReads {dialect : Dialect} {body : Array Token} {last : Token}
    {tokens : Array Token} (htokens : tokens = body.push last) (h : Reads text dialect body last) :
    Sheet.Whole ⟨text, tokens⟩ body last :=
  ⟨htokens, h.tiled, h.ended, h.span⟩

/-- What a text is compiled to, if it is. -/
def compiled? (text : List Char) (options : CompileOptions) : Option Compiled :=
  (compile text options).toOption

theorem compiled?_eq_some_iff {out : Compiled} :
    compiled? text options = some out ↔ compile text options = .ok out :=
  toOption_eq_some_iff

/-- A fact about what a fixed text is compiled to is computed from the text. -/
theorem exists_compiled {P : Compiled → Prop} [DecidablePred P]
    (h : (compiled? text options).any (decide <| P ·) = true) :
    ∃ out, compile text options = .ok out ∧ P out := by
  obtain ⟨out, hout, hP⟩ := (Option.any_eq_true ..).mp h
  exact ⟨out, compiled?_eq_some_iff.mp hout, of_decide_eq_true hP⟩

theorem compile_eq_ok_iff {out : Compiled} :
    compile text options = .ok out ↔ ∃ stream d rendering,
      parse text options.dialect = .ok (.ok stream) ∧
      Lowering.snippet (prepare text stream options).1 (prepare text stream options).2 =
        .ok ((), d) ∧
      d.editor.finish (prepare text stream options).1.sheet = .ok rendering ∧
      out = assemble text options (prepare text stream options).1 d rendering := by
  unfold compile
  rw [bind_eq_ok_iff]
  constructor
  · rintro ⟨parsed, hparse, hcompile⟩
    rw [mapError_eq_ok_iff] at hparse
    cases parsed with
    | error e => cases hcompile
    | ok stream =>
      obtain ⟨⟨⟨⟩, d⟩, hsnippet, hcompile⟩ := bind_eq_ok_iff.mp hcompile
      obtain ⟨rendering, hfinish, hcompile⟩ := bind_eq_ok_iff.mp hcompile
      cases hcompile
      exact ⟨stream, d, rendering, hparse, hsnippet, mapError_eq_ok_iff.mp hfinish, rfl⟩
  · rintro ⟨stream, d, rendering, hparse, hsnippet, hfinish, rfl⟩
    refine ⟨.ok stream, mapError_eq_ok_iff.mpr hparse, ?_⟩
    refine bind_eq_ok_iff.mpr ⟨((), d), hsnippet, ?_⟩
    exact bind_eq_ok_iff.mpr ⟨rendering, mapError_eq_ok_iff.mpr hfinish, rfl⟩

end Downlevel
