import Downlevel.Command.Config
import Downlevel.Command.Files
import Downlevel.Command.Output

/-! # Sessions

One pass over the inputs of a command line: the configuration is found, snippets are read and
compiled, and the results are written. -/

namespace Downlevel

inductive CommandError where
  | readFailed (path : String)
  | configUnreadable (path : String)
  | configInvalid (path : String)
  | watchesStdin
  | noEngine
  | fault (f : Fault)
deriving DecidableEq, Repr

def CommandError.message : CommandError → String
  | readFailed path => "failed to read " ++ path ++ ": no such file or directory"
  | configUnreadable path => "failed to read " ++ path
  | configInvalid path => "invalid config " ++ path
  | watchesStdin => "watch error: cannot watch stdin; pass files or directories"
  | noEngine => "no JS runtime found"
  | fault _ => "internal error"

structure Pass where
  results : List SnippetResult
  output : String

def Pass.summary (p : Pass) : Summary := Summary.ofResults p.results

def Pass.exitCode (p : Pass) : Nat := if p.summary.errors > 0 then 1 else 0

structure Surroundings (m : Type → Type) where
  files : Files m
  stdin : m (Option String)
  depth : Nat
  workspace : String

namespace Session

variable {m : Type → Type} [Monad m] (around : Surroundings m)

/-! ## Configuration -/

def configCandidates (depth : Nat) : List String :=
  (List.range (depth + 1)).map fun n => String.join (List.replicate n "../") ++ Config.fileName

def configPath? (args : Args) : m (Option String) := do
  match args.config with
  | some path => return some path
  | none =>
    (configCandidates around.depth).foldlM
      (fun found path => do
        if found.isNone && (← around.files.isFile path) then return some path else return found)
      none

def config (args : Args) : ExceptT CommandError m Config := do
  match ← (configPath? around args : m _) with
  | none => return {}
  | some path =>
    match ← around.files.read path with
    | none => throw (.configUnreadable path)
    | some text =>
      match Config.parse? text with
      | some config => return config
      | none => throw (.configInvalid path)

/-! ## Snippets -/

def extensions : List String := ["js", "jsx", "mjs", "cjs", "ts", "tsx"]

def isSnippetName (name : String) : Bool :=
  match (Text.split '.' name.toList).reverse with
  | extension :: _ :: _ => extensions.contains (String.ofList extension)
  | _ => false

def isSkipped (name : String) : Bool :=
  name == "node_modules" || name.toList.head? == some '.'

def join (path name : String) : String :=
  if path.toList.getLast? == some '/' then path ++ name else path ++ "/" ++ name

/-- The snippets below a directory, at most `n` levels deep, in the order of the names along their
paths. -/
def below : Nat → String → m (List String)
  | 0, _ => return []
  | n + 1, path => do
    let names := (← around.files.entries path).mergeSort
    let found ← (names.filter fun name => !isSkipped name).mapM fun name => do
      let inner := join path name
      if ← around.files.isDirectory inner then below n inner
      else return if isSnippetName name then [inner] else []
    return found.flatten

def levels : Nat := 4096

def filesAt (path : String) : ExceptT CommandError m (List String) := do
  if ← around.files.isDirectory path then (below around levels path : m _)
  else if ← around.files.isFile path then return [path]
  else throw (.readFailed path)

def displayName (path : String) : String :=
  let lead := around.workspace ++ "/"
  if lead.toList.isPrefixOf path.toList then String.ofList (path.toList.drop lead.length) else path

def readSnippet (path : String) : ExceptT CommandError m Snippet := do
  match ← around.files.read path with
  | some source => return { name := displayName around path, source }
  | none => throw (.readFailed path)

def snippets (args : Args) : ExceptT CommandError m (List Snippet) := do
  let first ←
    if args.readsStdin then do
      match ← around.stdin with
      | some source => pure [{ name := "<stdin>", source : Snippet }]
      | none => throw (.readFailed "<stdin>")
    else pure []
  let paths ← (args.paths.filter (· != "-")).mapM (filesAt around)
  return first ++ (← paths.flatten.mapM (readSnippet around))

/-! ## Passes -/

/-- Compiles snippets and writes the results. Code cannot be run, because there is no engine. -/
def check (args : Args) (options : CompileOptions) (inputs : List Snippet) :
    Except CommandError Pass := do
  let results ← (inputs.mapM fun s => SnippetResult.ofSnippet s options).mapError CommandError.fault
  if args.run && results.any (·.compiled.isSome) then throw .noEngine
  return { results, output := args.output.render results }

def run (args : Args) : ExceptT CommandError m Pass := do
  let config ← config around args
  if args.watch && args.readsStdin then throw .watchesStdin
  let inputs ← snippets around args
  ExceptT.mk (return check args (args.applyTo config.options) inputs)

end Session

end Downlevel
