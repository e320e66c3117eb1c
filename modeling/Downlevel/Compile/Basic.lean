import Downlevel.Grammar.Program
import Downlevel.Linkage.Shadow
import Downlevel.Lowering.Walk
import Downlevel.Name.Taken
import Downlevel.SourceMap.Basic

/-! # Compiling

A snippet is read, its modules are surveyed, its tokens are lowered, and the map from the code back
to the snippet is built. -/

namespace Downlevel

structure Compiled where
  code : String
  /-- the modules that the code requires, in the order in which they are first named -/
  imports : List ImportRecord
  /-- offsets in the code, with the offsets in the snippet that they come from -/
  places : List (Nat × Nat)
  map : SourceMap
deriving Repr

namespace Compile

def moduleMarker : String :=
  "Object.defineProperty(exports, '__esModule', \x7b value: true \x7d);"

def link (text : List Char) (stream : TokenStream) (options : CompileOptions)
    (names : NameSupply) : Linkage × NameSupply :=
  let survey := Survey.ofStream text stream
    { elideUnused := options.has .typescript && !options.keepUnusedImports
      keepUnused := options.keepUnusedImports
      implicitReferences := options.implicitReferences }
  Linkage.generate survey (options.runtimePaths stream.tokens.toList) names

def resolvePragma (scene : Lowering.Scene) (pragma : String) : String :=
  let head := CompileOptions.pragmaHead pragma
  match scene.replacement? head with
  | some code => code ++ String.ofList (pragma.toList.drop head.length)
  | none => pragma

def prepare (text : List Char) (stream : TokenStream) (options : CompileOptions) :
    Lowering.Scene × Lowering.Draft :=
  let plain : Sheet := { text, tokens := stream.tokens }
  let statements := stream.statements.toList
  let (linkage, names) :=
    if options.has .imports then
      let (linkage, names) := link text stream options (NameSupply.ofSheet plain)
      (some linkage, names)
    else (none, NameSupply.ofSheet plain)
  let tokens :=
    match linkage with
    | some linkage => Shadow.mark plain stream.scopes.toList linkage.replacements.keys
    | none => stream.tokens
  let scene : Lowering.Scene :=
    { sheet := { text, tokens }
      options, linkage
      moduleStatements :=
        if options.has .imports then
          statements.filter fun c =>
            c.kind == .importStatement || c.kind == .exportStatement || c.kind == .exportDefault
        else []
      lines := Text.LineIndex.ofText text
      pragmas := none }
  let pragmas : Lowering.Pragmas :=
    ⟨resolvePragma scene options.jsxPragma, resolvePragma scene options.jsxFragmentPragma⟩
  let lowersElements := options.has .jsx && options.jsxRuntime != .preserve
  let plan :=
    if options.has .wrapLastExpression then WrapPlan.ofStatements? plain statements else none
  ({ scene with pragmas := if lowersElements then some pragmas else none },
   { names, wrapping := match plan with
      | some plan => .before plan
      | none => .off })

def lead (linkage : Option Linkage) (runtime : Dict ImportRecord) : String :=
  let marker := if linkage.any (·.survey.hasExports) then [moduleMarker] else []
  let definitions := (linkage.map (·.definitions)).getD []
  match marker ++ runtime.map (·.2.code) ++ definitions with
  | [] => ""
  | parts => " ".intercalate parts ++ " "

def requiredModules (linkage : Option Linkage) (runtime : Dict ImportRecord) : List ImportRecord :=
  (runtime.map (·.2)).foldl
    (fun done r => if done.any (·.source == r.source) then done else done ++ [r])
    ((linkage.map fun l => l.records.map (·.2)).getD [])

end Compile

/-- Compiles a snippet to code that runs as the body of a function, with `require` and `exports` in
scope. -/
def compile (text : List Char) (options : CompileOptions) : Except Halt Compiled := do
  match ← (parse text options.dialect).mapError Halt.fault with
  | .error e => throw (.error (.invalid e))
  | .ok stream =>
    let (scene, draft) := Compile.prepare text stream options
    let ((), draft) ← (Lowering.snippet.run scene).run draft
    let rendering ← (draft.editor.finish scene.sheet).mapError Halt.error
    let lead := Compile.lead scene.linkage draft.runtime
    let code := lead ++ rendering.code
    let places := (Rendering.shifted lead.utf8ByteSize rendering.places).toList
    return {
      code, places
      imports := Compile.requiredModules scene.linkage draft.runtime
      map := SourceMap.build (options.filePath.getD "snippet") none true text code.toList places }

end Downlevel
