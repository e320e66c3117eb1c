import Downlevel.Linkage.Survey
import Downlevel.Name.Basic

/-! # Code for modules

For each module that a snippet names, a variable for the module object and the code that requires
it, binds the imported names and defines the exports. -/

namespace Downlevel

inductive Helper where
  | interopRequireWildcard
  | reexport
  | exportStar
deriving DecidableEq, Repr

namespace Helper

def baseName : Helper → String
  | interopRequireWildcard => "interopRequireWildcard"
  | reexport => "reexport"
  | exportStar => "exportStar"

def definition (name : String) : Helper → String
  | interopRequireWildcard =>
    "function " ++ name ++ "(obj) \x7b if (obj && obj.__esModule) \x7b return obj; \x7d " ++
    "var newObj = \x7b\x7d; if (obj != null) \x7b for (var key in obj) \x7b " ++
    "if (Object.prototype.hasOwnProperty.call(obj, key)) \x7b newObj[key] = obj[key]; \x7d " ++
    "\x7d \x7d newObj.default = obj; return newObj; \x7d"
  | reexport =>
    "function " ++ name ++
    "(target, name, source, key) \x7b Object.defineProperty(target, name, " ++
    "\x7b enumerable: true, get: function () \x7b return source[key]; \x7d \x7d); \x7d"
  | exportStar =>
    "function " ++ name ++
    "(target, source, skip) \x7b Object.keys(source).forEach(function (key) \x7b " ++
    "if (key === 'default' || key === '__esModule' || skip.indexOf(key) !== -1) " ++
    "\x7b return; \x7d Object.defineProperty(target, key, \x7b enumerable: true, " ++
    "get: function () \x7b return source[key]; \x7d \x7d); \x7d); \x7d"

end Helper

/-- The member of an object, written with a dot where that can be. -/
def member (object name : String) : String :=
  if Name.isIdentifier name then object ++ "." ++ name
  else object ++ "[" ++ Text.quoted name ++ "]"

structure Linkage where
  survey : Survey
  /-- modules that the compiled code requires itself, and whose objects are kept in variables -/
  boundPaths : List String := []
  records : Dict ImportRecord := []
  replacements : Dict String := []
  helpers : List (Helper × String) := []
deriving Repr

namespace Linkage

def hasBinding (l : Linkage) (path : String) (use : ModuleUse) : Bool :=
  use.needsBinding || l.boundPaths.contains path

def binding? (l : Linkage) (path : String) : Option String := do
  let use ← l.survey.uses.get? path
  if l.hasBinding path use then (l.records.get? path).map (·.base) else none

def replacement? (l : Linkage) (name : String) : Option String := l.replacements.get? name

def definitions (l : Linkage) : List String := l.helpers.map fun (h, name) => h.definition name

/-- A linkage on the way, with the names that are left. -/
abbrev Build := StateM (Linkage × NameSupply)

def freshName (base : String) : Build String :=
  modifyGet fun (l, names) =>
    let (name, names) := names.fresh base
    (name, (l, names))

def helperName (h : Helper) : Build String := do
  match (← get).1.helpers.lookup h with
  | some name => return name
  | none =>
    let name ← freshName h.baseName
    modify fun (l, names) => ({ l with helpers := l.helpers ++ [(h, name)] }, names)
    return name

def exportLines (use : ModuleUse) (base : String) : Build (List String) := do
  let again ← use.reexports.mapM fun e => do
    let helper ← helperName .reexport
    return helper ++ "(exports, " ++ Text.quoted e.exported ++ ", " ++ base ++ ", " ++
      Text.quoted e.imported ++ ");"
  let named ← use.starNames.mapM fun name => do
    let helper ← helperName .interopRequireWildcard
    return member "exports" name ++ " = " ++ helper ++ "(" ++ base ++ ");"
  let star ←
    if use.star then do
      let helper ← helperName .exportStar
      let skip := ", ".intercalate ((← get).1.survey.exported.map Text.quoted)
      pure [helper ++ "(exports, " ++ base ++ ", [" ++ skip ++ "]);"]
    else pure []
  return again ++ named ++ star

def addRecord (path : String) (use : ModuleUse) : Build Unit := do
  let base ← freshName (Name.ofPath path)
  let require := "require(" ++ Text.quoted path ++ ");"
  let first := if (← get).1.hasBinding path use then "var " ++ base ++ " = " ++ require else require
  let defaults := use.defaults.map fun name =>
    "var " ++ name ++ " = " ++ base ++ ".default || " ++ base ++ ";"
  let wildcards ← use.wildcards.mapM fun name => do
    let helper ← helperName .interopRequireWildcard
    return "var " ++ name ++ " = " ++ helper ++ "(" ++ base ++ ");"
  for n in use.named do
    modify fun (l, names) =>
      ({ l with replacements := l.replacements.put n.bound (member base n.imported) }, names)
  let exports ← exportLines use base
  let keys := use.defaults.map (⟨·, "default"⟩) ++ use.wildcards.map (⟨·, "*"⟩) ++
    use.named.map fun n => ⟨n.bound, n.imported⟩
  let code := "\n".intercalate ([first] ++ defaults ++ wildcards ++ exports)
  modify fun (l, names) =>
    ({ l with records := l.records ++ [(path, { source := path, base, keys, code })] }, names)

def generate (survey : Survey) (boundPaths : List String) (names : NameSupply) :
    Linkage × NameSupply :=
  let build : Build Unit := survey.uses.forM fun (path, use) => addRecord path use
  (build.run ({ survey, boundPaths }, names)).2

/-- The code for a module, unless it is among those already loaded. -/
def load (l : Linkage) (loaded : List String) (path : String) : String × List String :=
  if loaded.contains path then ("", loaded)
  else (((l.records.get? path).map (·.code)).getD "", path :: loaded)

end Linkage

end Downlevel
