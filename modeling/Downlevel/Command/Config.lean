import Downlevel.Json.Comment
import Downlevel.Run.Request

/-! # Configurations

A configuration is a JSON object with comments that holds compile options, and beside them what
snippets are run with. -/

namespace Downlevel

structure Config where
  options : CompileOptions := {}
  scope : Dict Json := []
  imports : ImportMap := []
  timeoutMs : Option Nat := none

namespace Config

def fileName : String := "snippet.config.json"

def fieldNames : List String := CompileOptions.fieldNames ++ ["scope", "imports", "timeoutMs"]

def values? (j : Json) : Option (Dict Json) :=
  j.members?.map fun members => Dict.ofPairs (members.map fun (key, value) =>
    (key, value.canonical))

/-- The configuration that a JSON value holds; only an object holds one. A choice may also be
written as an object with an empty object under its name. -/
def ofJson? (j : Json) : Option Config := do
  let members ← j.members?
  let fields ← (Json.object members).record? fieldNames
  return {
    options := ← CompileOptions.ofFields? Json.isVoid fields
    scope := ← Json.withDefault? fields "scope" [] values?
    imports := ← Json.withDefault? fields "imports" [] values?
    timeoutMs := ← Json.withDefault? fields "timeoutMs" none
      (Json.nullable? (Json.nat? 0xffffffffffffffff)) }

def parse? (text : String) : Option Config :=
  (Json.parse? (String.ofList (Json.withoutComments text.toList))).bind ofJson?

end Config

end Downlevel
