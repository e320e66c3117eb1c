import Downlevel.Command.Args
import Downlevel.Report.Diagnostic

/-! # Results

What came of several snippets, and how it is written. -/

namespace Downlevel

structure Snippet where
  name : String
  source : String

structure SnippetResult where
  name : String
  compiled : Option Compiled := none
  diagnostics : List Diagnostic := []
  value : Option Json := none

namespace SnippetResult

def count (r : SnippetResult) (severity : Diagnostic.Severity) : Nat :=
  (r.diagnostics.filter (·.severity == severity)).length

def ofSnippet (s : Snippet) (options : CompileOptions) : Except Fault SnippetResult :=
  let text := s.source.toList
  match compile text { options with filePath := some s.name } with
  | .ok compiled => .ok { name := s.name, compiled := some compiled }
  | .error (.error e) => .ok { name := s.name, diagnostics := [.ofCompileError text e] }
  | .error (.fault f) => .error f

def toJson (r : SnippetResult) : Json :=
  let known (key : String) (value : Option Json) : List (String × Json) :=
    value.toList.map fun j => (key, j)
  .object <| [("file", .string r.name)] ++ known "code" (r.compiled.map (.string ·.code)) ++
    [("imports", .array (((r.compiled.map (·.imports)).getD []).map ImportRecord.toJson))] ++
    known "map" (r.compiled.map (·.map.toJson)) ++
    [("diagnostics", .array (r.diagnostics.map Diagnostic.toJson))] ++ known "value" r.value

end SnippetResult

structure Summary where
  snippets : Nat
  errors : Nat
  warnings : Nat
deriving DecidableEq, Repr

namespace Summary

def ofResults (results : List SnippetResult) : Summary :=
  { snippets := results.length
    errors := results.foldl (fun n r => n + r.count .error) 0
    warnings := results.foldl (fun n r => n + r.count .warning) 0 }

def counted (n : Nat) (word : String) : String :=
  toString n ++ " " ++ word ++ (if n == 1 then "" else "s")

def render (s : Summary) : String :=
  counted s.snippets "snippet" ++ ", " ++ counted s.errors "error" ++ ", " ++
    counted s.warnings "warning" ++ "\n"

end Summary

namespace OutputFormat

def rendersReports (f : OutputFormat) : Bool := f != json

def humanResult (r : SnippetResult) : String :=
  match r.compiled with
  | none => ""
  | some compiled =>
    let value :=
      match r.value with
      | some j => "// => " ++ j.compact ++ "\n"
      | none => ""
    "// " ++ r.name ++ "\n" ++ compiled.code ++ "\n" ++ value ++ "\n"

/-- What `part` gives for each snippet that compiles, under its name if there are more snippets. -/
def parts (results : List SnippetResult) (part : Compiled → String) : String :=
  String.join (results.map fun r =>
    match r.compiled with
    | none => ""
    | some compiled =>
      (if 1 < results.length then "// " ++ r.name ++ "\n" else "") ++ part compiled ++ "\n")

def render (results : List SnippetResult) : OutputFormat → String
  | human => String.join (results.map humanResult) ++ (Summary.ofResults results).render
  | json => (Json.array (results.map SnippetResult.toJson)).pretty ++ "\n"
  | code => parts results (·.code)
  | map => parts results (·.map.toJson.compact)

end OutputFormat

end Downlevel
