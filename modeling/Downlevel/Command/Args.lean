import Downlevel.Compile.Options
import Downlevel.Json.Reader
import Downlevel.Text.Blank
import Downlevel.Text.Split

/-! # Command lines

Arguments are read from left to right. The value of an option is looked at only when the next
argument is not its continuation, so that of two faults the one that is noticed first is told. -/

namespace Downlevel

inductive OutputFormat where
  | human
  | json
  | code
  | map
deriving DecidableEq, Repr

def OutputFormat.names : List (String × OutputFormat) :=
  [("human", human), ("json", json), ("code", code), ("map", map)]

structure Args where
  paths : List String := []
  transforms : Option (List Transform) := none
  jsxRuntime : Option JsxRuntime := none
  production : Bool := false
  jsxImportSource : Option String := none
  jsxPragma : Option String := none
  jsxFragmentPragma : Option String := none
  keepUnusedImports : Bool := false
  removeImports : Bool := false
  objectAssign : Option String := none
  output : OutputFormat := .human
  run : Bool := false
  scope : List (String × Json) := []
  watch : Bool := false
  config : Option String := none
  verbose : Nat := 0
  logJson : Bool := false

inductive ArgumentError where
  /-- a value that is none of the choices, or no value at all -/
  | invalidValue
  | valueValidation
  | unknownArgument
  /-- an option that may be given once is given again -/
  | argumentConflict
  /-- a value for a flag -/
  | tooManyValues
  | displayHelp
  | displayVersion
deriving DecidableEq, Repr

namespace Args

def applyTo (a : Args) (o : CompileOptions) : CompileOptions :=
  { o with
    transforms := a.transforms.getD o.transforms
    jsxRuntime := a.jsxRuntime.getD o.jsxRuntime
    production := a.production || o.production
    jsxImportSource := a.jsxImportSource.getD o.jsxImportSource
    jsxPragma := a.jsxPragma.getD o.jsxPragma
    jsxFragmentPragma := a.jsxFragmentPragma.getD o.jsxFragmentPragma
    keepUnusedImports := a.keepUnusedImports || o.keepUnusedImports
    removeImports := a.removeImports || o.removeImports
    objectAssign := a.objectAssign.or o.objectAssign }

def readsStdin (a : Args) : Bool := a.paths.isEmpty || a.paths.contains "-"

/-! ## Options with values -/

def choice (choices : List (String × α)) (value : String) : Except ArgumentError α :=
  match choices.lookup value with
  | some a => .ok a
  | none => .error .invalidValue

def transformNames : List (String × Transform) :=
  Transform.names ++ [("wrap-last-expression", .wrapLastExpression)]

def trimmed (cs : List Char) : List Char :=
  ((cs.dropWhile Text.isBlank).reverse.dropWhile Text.isBlank).reverse

def scopeEntry (value : String) : Except ArgumentError (String × Json) :=
  let name := String.ofList (trimmed (value.toList.takeWhile (· != '=')))
  match value.toList.dropWhile (· != '=') with
  | _ :: text =>
    match Json.parse? (String.ofList text) with
    | some j => if name.isEmpty then .error .valueValidation else .ok (name, j.canonical)
    | none => .error .valueValidation
  | [] => .error .valueValidation

inductive Setting where
  | transforms
  | jsxRuntime
  | jsxImportSource
  | jsxPragma
  | jsxFragmentPragma
  | objectAssign
  | output
  | scope
  | config
deriving DecidableEq, Repr

def Setting.names : List (String × Setting) :=
  [("transforms", transforms), ("jsx-runtime", jsxRuntime),
   ("jsx-import-source", jsxImportSource), ("jsx-pragma", jsxPragma),
   ("jsx-fragment-pragma", jsxFragmentPragma), ("object-assign", objectAssign),
   ("output", output), ("scope", scope), ("config", config)]

def Setting.repeats : Setting → Bool
  | transforms | scope => true
  | _ => false

def set (a : Args) (value : String) : Setting → Except ArgumentError Args
  | .transforms => do
    let parts := (Text.split ',' value.toList).map String.ofList
    let found ← parts.mapM (choice transformNames)
    return { a with transforms := some (a.transforms.getD [] ++ found) }
  | .jsxRuntime => return { a with jsxRuntime := some (← choice JsxRuntime.names value) }
  | .jsxImportSource => return { a with jsxImportSource := some value }
  | .jsxPragma => return { a with jsxPragma := some value }
  | .jsxFragmentPragma => return { a with jsxFragmentPragma := some value }
  | .objectAssign => return { a with objectAssign := some value }
  | .output => return { a with output := ← choice OutputFormat.names value }
  | .scope => return { a with scope := a.scope ++ [← scopeEntry value] }
  | .config => return { a with config := some value }

/-! ## Flags -/

inductive Flag where
  | production
  | keepUnusedImports
  | removeImports
  | run
  | watch
  | logJson
  | verbose
  | help
  | version
deriving DecidableEq, Repr

def Flag.names : List (String × Flag) :=
  [("production", production), ("keep-unused-imports", keepUnusedImports),
   ("remove-imports", removeImports), ("run", run), ("watch", watch), ("log-json", logJson),
   ("verbose", verbose), ("help", help), ("version", version)]

def Flag.letters : List (Char × Flag) := [('v', verbose), ('h', help), ('V', version)]

/-! ## Reading -/

structure Reading where
  args : Args := {}
  given : List (Setting ⊕ Flag) := []
  /-- an option that waits for its value, or whose value is not looked at yet -/
  pending : Option (Setting × Option String) := none
  pathsOnly : Bool := false

namespace Reading

def give (r : Reading) (setting : Setting) (value : String) : Except ArgumentError Reading := do
  if r.given.contains (.inl setting) then throw .argumentConflict
  return { r with
    args := ← r.args.set value setting
    given := if setting.repeats then r.given else .inl setting :: r.given }

def resolve (r : Reading) : Except ArgumentError Reading :=
  match r.pending with
  | none => .ok r
  | some (_, none) => .error .invalidValue
  | some (setting, some value) => { r with pending := none }.give setting value

def switch (r : Reading) (flag : Flag) (on : Args → Args) : Except ArgumentError Reading := do
  if r.given.contains (.inr flag) then throw .argumentConflict
  return { r with args := on r.args, given := .inr flag :: r.given }

def raise (r : Reading) (flag : Flag) : Except ArgumentError Reading := do
  let r ← r.resolve
  match flag with
  | .production => r.switch flag ({ · with production := true })
  | .keepUnusedImports => r.switch flag ({ · with keepUnusedImports := true })
  | .removeImports => r.switch flag ({ · with removeImports := true })
  | .run => r.switch flag ({ · with run := true })
  | .watch => r.switch flag ({ · with watch := true })
  | .logJson => r.switch flag ({ · with logJson := true })
  | .verbose => return { r with args := { r.args with verbose := min 255 (r.args.verbose + 1) } }
  | .help => throw .displayHelp
  | .version => throw .displayVersion

def long (r : Reading) (cs : List Char) : Except ArgumentError Reading :=
  let name := String.ofList (cs.takeWhile (· != '='))
  let value : Option String :=
    match cs.dropWhile (· != '=') with
    | _ :: rest => some (String.ofList rest)
    | [] => none
  match Setting.names.lookup name, Flag.names.lookup name, value with
  | some setting, _, some value => do (← r.resolve).give setting value
  | some setting, _, none => do return { ← r.resolve with pending := some (setting, none) }
  | none, some _, some _ => .error .tooManyValues
  | none, some flag, none => r.raise flag
  | none, none, _ => .error .unknownArgument

def letters (r : Reading) : List Char → Except ArgumentError Reading
  | [] => .ok r
  | c :: cs =>
    match Flag.letters.lookup c with
    | some flag => do (← r.raise flag).letters cs
    | none => .error .unknownArgument

def plain (r : Reading) (argument : String) : Except ArgumentError Reading := do
  match r.pending with
  | some (setting, none) =>
    if !r.pathsOnly then return { r with pending := some (setting, some argument) }
  | _ => pure ()
  let r ← r.resolve
  return { r with args := { r.args with paths := r.args.paths ++ [argument] } }

def next (r : Reading) (argument : String) : Except ArgumentError Reading :=
  if r.pathsOnly then r.plain argument
  else
    match argument.toList with
    | ['-', '-'] => .ok { r with pathsOnly := true }
    | '-' :: '-' :: cs => r.long cs
    | '-' :: c :: cs => r.letters (c :: cs)
    | _ => r.plain argument

end Reading

def parse (arguments : List String) : Except ArgumentError Args := do
  return (← (← arguments.foldlM Reading.next {}).resolve).args

end Args

end Downlevel
