import Downlevel.Compile.Basic
import Downlevel.Proofs.Linkage.Records

/-!
# The modules of a snippet that is compiled

What lowering looks at when imports are lowered: the survey of the snippet, the linkage that is made
from it, and the tokens with the names marked that an inner declaration hides.
-/

namespace Downlevel.Compile

variable {options : CompileOptions}

/-- The survey of a snippet. -/
def surveyOf (text : List Char) (stream : TokenStream) (options : CompileOptions) : Survey :=
  Survey.ofStream text stream
    { elideUnused := options.has .typescript && !options.keepUnusedImports
      keepUnused := options.keepUnusedImports
      implicitReferences := options.implicitReferences }

/-- The modules of a snippet, with their code. -/
def linkageOf (text : List Char) (stream : TokenStream) (options : CompileOptions) : Linkage :=
  (link text stream options (.ofSheet ⟨text, stream.tokens⟩)).1

section

variable (text : List Char) (stream : TokenStream) (options : CompileOptions)

theorem link_built : Linkage.Built (surveyOf text stream options).uses
    ({ survey := surveyOf text stream options
       boundPaths := options.runtimePaths stream.tokens.toList },
      .ofSheet ⟨text, stream.tokens⟩)
    (link text stream options (.ofSheet ⟨text, stream.tokens⟩)) :=
  Linkage.generate_built ..

theorem prepare_options : (prepare text stream options).1.options = options := rfl

end

section

variable (text : List Char) (stream : TokenStream) (himports : options.has .imports = true)
include himports

theorem prepare_linkage :
    (prepare text stream options).1.linkage = some (linkageOf text stream options) := by
  unfold prepare linkageOf
  simp only [himports, if_true]

theorem prepare_sheet : (prepare text stream options).1.sheet =
    ⟨text, Shadow.mark ⟨text, stream.tokens⟩ stream.scopes.toList
      (linkageOf text stream options).replacements.keys⟩ := by
  unfold prepare linkageOf
  simp only [himports, if_true]

end

end Downlevel.Compile
