import Downlevel.Json.Record
import Downlevel.Token.Stream

/-! # Compile options -/

namespace Downlevel

inductive Transform where
  /-- elements become calls -/
  | jsx
  | typescript
  | flow
  /-- imports and exports become calls of `require` and members of `exports` -/
  | imports
  | wrapLastExpression
deriving DecidableEq, Repr

namespace Transform

def names : List (String × Transform) :=
  [("jsx", jsx), ("typescript", typescript), ("flow", flow), ("imports", imports),
   ("wrapLastExpression", wrapLastExpression)]

def name : Transform → String
  | jsx => "jsx"
  | typescript => "typescript"
  | flow => "flow"
  | imports => "imports"
  | wrapLastExpression => "wrapLastExpression"

end Transform

inductive JsxRuntime where
  /-- calls that take the children as further arguments -/
  | classic
  /-- calls of the functions of a runtime module, which take the children among the props -/
  | automatic
  | preserve
deriving DecidableEq, Repr

namespace JsxRuntime

def names : List (String × JsxRuntime) :=
  [("classic", classic), ("automatic", automatic), ("preserve", preserve)]

def name : JsxRuntime → String
  | classic => "classic"
  | automatic => "automatic"
  | preserve => "preserve"

end JsxRuntime

structure CompileOptions where
  transforms : List Transform := [.jsx, .imports, .wrapLastExpression]
  jsxRuntime : JsxRuntime := .classic
  production : Bool := false
  jsxImportSource : String := "react"
  jsxPragma : String := "React.createElement"
  jsxFragmentPragma : String := "React.Fragment"
  /-- keeps an import whose names are all unused, for its effects -/
  keepUnusedImports : Bool := false
  removeImports : Bool := false
  /-- the function that merges props, in place of spreads -/
  objectAssign : Option String := none
  filePath : Option String := none
deriving DecidableEq, Repr

namespace CompileOptions

def has (o : CompileOptions) (t : Transform) : Bool := o.transforms.contains t

/-- The language that the options make a snippet be read in. Without elements, `<T>x` is a type
assertion. -/
def dialect (o : CompileOptions) : Dialect :=
  { jsx := o.has .jsx || !o.has .typescript
    typescript := o.has .typescript
    flow := o.has .flow }

def runtimeModule (o : CompileOptions) : String :=
  o.jsxImportSource ++ (if o.production then "/jsx-runtime" else "/jsx-dev-runtime")

def isAutomatic (o : CompileOptions) : Bool := o.has .jsx && o.jsxRuntime == .automatic

def runtimePaths (o : CompileOptions) (tokens : List Token) : List String :=
  if o.isAutomatic then
    let shapes := (tokens.filter (·.kind == .jsxTagStart)).filterMap (·.shape)
    (if shapes.any (· != .keyAfterSpread) then [o.runtimeModule] else []) ++
      (if shapes.any (· == .keyAfterSpread) then [o.jsxImportSource] else [])
  else []

def pragmaHead (pragma : String) : String := String.ofList (pragma.toList.takeWhile (· != '.'))

def implicitReferences (o : CompileOptions) : List String :=
  if o.has .jsx && o.jsxRuntime == .classic then
    [pragmaHead o.jsxPragma, pragmaHead o.jsxFragmentPragma]
  else []

def fieldNames : List String :=
  ["transforms", "jsxRuntime", "production", "jsxImportSource", "jsxPragma", "jsxFragmentPragma",
   "keepUnusedImports", "removeImports", "objectAssign", "filePath"]

/-- The options that given fields say; the others are as by default. Under the name of a choice
stands what is `blank`. -/
def ofFields? (blank : Json → Bool) (fields : List (String × Json)) : Option CompileOptions := do
  let d : CompileOptions := {}
  return {
    transforms := ← Json.withDefault? fields "transforms" d.transforms
      (Json.list? (Json.choice? blank Transform.names))
    jsxRuntime := ← Json.withDefault? fields "jsxRuntime" d.jsxRuntime
      (Json.choice? blank JsxRuntime.names)
    production := ← Json.withDefault? fields "production" d.production Json.bool?
    jsxImportSource := ← Json.withDefault? fields "jsxImportSource" d.jsxImportSource Json.string?
    jsxPragma := ← Json.withDefault? fields "jsxPragma" d.jsxPragma Json.string?
    jsxFragmentPragma :=
      ← Json.withDefault? fields "jsxFragmentPragma" d.jsxFragmentPragma Json.string?
    keepUnusedImports :=
      ← Json.withDefault? fields "keepUnusedImports" d.keepUnusedImports Json.bool?
    removeImports := ← Json.withDefault? fields "removeImports" d.removeImports Json.bool?
    objectAssign :=
      ← Json.withDefault? fields "objectAssign" d.objectAssign (Json.nullable? Json.string?)
    filePath := ← Json.withDefault? fields "filePath" d.filePath (Json.nullable? Json.string?) }

def ofJson? (j : Json) : Option CompileOptions :=
  (j.record? fieldNames).bind (ofFields? Json.isNull)

def toJson (o : CompileOptions) : Json :=
  .object [("transforms", .array (o.transforms.map fun t => .string t.name)),
    ("jsxRuntime", .string o.jsxRuntime.name), ("production", .bool o.production),
    ("jsxImportSource", .string o.jsxImportSource), ("jsxPragma", .string o.jsxPragma),
    ("jsxFragmentPragma", .string o.jsxFragmentPragma),
    ("keepUnusedImports", .bool o.keepUnusedImports), ("removeImports", .bool o.removeImports),
    ("objectAssign", .option .string o.objectAssign), ("filePath", .option .string o.filePath)]

end CompileOptions

end Downlevel
