import Downlevel.Compile.Basic
import Downlevel.Run.Thrown

/-! # Requests to run

What is handed to an engine together with code: values for names in scope, and values for modules.
-/

namespace Downlevel

structure MissingModule where
  path : String
deriving DecidableEq, Repr

namespace MissingModule

def lead : String := "Module not found: "

def message (m : MissingModule) : String := lead ++ m.path

def ofThrown? (e : Thrown) : Option MissingModule :=
  if lead.toList.isPrefixOf e.message.toList then
    some ⟨String.ofList (e.message.toList.drop lead.length)⟩
  else none

end MissingModule

abbrev ImportMap := Dict Json

namespace ImportMap

def contains (m : ImportMap) (path : String) : Bool := (m.get? path).isSome

def resolve (m : ImportMap) (path : String) : Except MissingModule Json :=
  match m.get? path with
  | some value => .ok value
  | none => .error ⟨path⟩

def missing (m : ImportMap) (records : List ImportRecord) (builtins : List String) :
    List MissingModule :=
  (records.filter fun r => !m.contains r.source && !builtins.contains r.source).map (⟨·.source⟩)

end ImportMap

structure RunRequest where
  code : String
  scope : Dict Json
  imports : ImportMap

namespace RunRequest

def parameters (r : RunRequest) : List String :=
  ["React", "render"] ++ r.scope.keys ++ ["require", "exports"]

def toJson (r : RunRequest) : Json :=
  .object [("code", .string r.code), ("scope", .object r.scope), ("imports", .object r.imports)]

end RunRequest

end Downlevel
