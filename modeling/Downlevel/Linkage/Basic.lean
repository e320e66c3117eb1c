import Downlevel.Json.Basic

/-! # What a snippet takes from modules

All that a snippet imports from one module, or exports again out of it, is gathered in one
`ModuleUse`; a compiled module is told about in an `ImportRecord`. -/

namespace Downlevel

structure NamedImport where
  bound : String
  imported : String
deriving DecidableEq, Repr

structure NamedExport where
  exported : String
  imported : String
deriving DecidableEq, Repr

structure ModuleUse where
  defaults : List String := []
  wildcards : List String := []
  named : List NamedImport := []
  reexports : List NamedExport := []
  bare : Bool := false
  /-- the names given by `export * as name from '…'` -/
  starNames : List String := []
  star : Bool := false
deriving DecidableEq, Repr

/-- Whether the module object is needed in a variable. -/
def ModuleUse.needsBinding (u : ModuleUse) : Bool :=
  !u.defaults.isEmpty || !u.wildcards.isEmpty || !u.named.isEmpty || !u.reexports.isEmpty ||
    !u.starNames.isEmpty || u.star

structure ImportKey where
  bound : String
  /-- the exported name, `default`, or `*` for the whole module -/
  imported : String
deriving DecidableEq, Repr

/-- A module that compiled code requires, with the code that does so. -/
structure ImportRecord where
  source : String
  base : String
  keys : List ImportKey
  code : String
deriving DecidableEq, Repr

def ImportRecord.toJson (r : ImportRecord) : Json :=
  .object [("source", .string r.source), ("base", .string r.base),
    ("keys", .array (r.keys.map fun k =>
      .object [("local", .string k.bound), ("imported", .string k.imported)])),
    ("code", .string r.code)]

/-- What becomes of an import, or of an export that names a module. -/
inductive StatementPlan where
  /-- the code for the module takes its place, unless it stands elsewhere already -/
  | load (path : String)
  /-- it goes, because all that it binds is a type or not used -/
  | elide
deriving DecidableEq, Repr

end Downlevel
