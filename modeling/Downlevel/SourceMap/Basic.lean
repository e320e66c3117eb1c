import Downlevel.Json.Printer
import Downlevel.Json.Reader
import Downlevel.Json.Record
import Downlevel.SourceMap.Codec
import Downlevel.Text.LineIndex
import Downlevel.Text.Span

/-! # Source maps

A source map in its third version, made from pairs of offsets, asked where generated code came from,
and written as JSON. -/

namespace Downlevel

open SourceMap (Mappings DecodeError Origin)

structure SourceMap where
  version : Nat := 3
  file : Option String := none
  sources : List String
  sourcesContent : List (Option String) := []
  names : List String := []
  mappings : String
deriving DecidableEq, Repr

namespace SourceMap

def decode (m : SourceMap) : Except DecodeError Mappings := Mappings.decode m.mappings

/-- Where the segment came from that starts exactly at a position of the generated code. -/
def originAt (m : SourceMap) (p : Position) : Except DecodeError (Option Origin) := do
  return ((← m.decode).segmentAt? p.line p.column).bind (·.origin)

/-- Where the segment came from that is nearest before a position of the generated code. -/
def originBefore (m : SourceMap) (p : Position) : Except DecodeError (Option Origin) := do
  return ((← m.decode).segmentBefore? p.line p.column).bind (·.origin)

/-- A pair of offsets, each cut down to the largest that there is. -/
def cut (p : Nat × Nat) : Nat × Nat := (min p.1 Span.maxOffset, min p.2 Span.maxOffset)

/-- The segments for pairs of generated and source offsets, of which those that are no places of
their texts are left out. -/
def segments (source generated : List Char) (pairs : List (Nat × Nat)) : Mappings :=
  let sourceIndex := Text.LineIndex.ofText source
  let generatedIndex := Text.LineIndex.ofText generated
  (pairs.map cut).foldl (fun m (g, o) =>
    match generatedIndex.position? generated g, sourceIndex.position? source o with
    | some target, some origin =>
      m.push target.line
        ⟨target.column, some { source := 0, line := origin.line, column := origin.column }⟩
    | _, _ => m) {}

def build (name : String) (file : Option String) (withContent : Bool)
    (source generated : List Char) (pairs : List (Nat × Nat)) : SourceMap :=
  { file, sources := [name],
    sourcesContent := if withContent then [some (String.ofList source)] else [],
    mappings := (segments source generated pairs).prune.encode }

/-- The map as JSON. No file and no contents are left out. -/
def toJson (m : SourceMap) : Json :=
  .object <|
    [("version", .nat m.version)] ++
    (match m.file with
      | some file => [("file", .string file)]
      | none => []) ++
    [("sources", .array (m.sources.map .string))] ++
    (if m.sourcesContent.isEmpty then []
      else [("sourcesContent", .array (m.sourcesContent.map (.option .string)))]) ++
    [("names", .array (m.names.map .string)), ("mappings", .string m.mappings)]

def fieldNames : List String :=
  ["version", "file", "sources", "sourcesContent", "names", "mappings"]

/-- The map that a JSON value holds. Only the file and the contents may be missing. -/
def ofJson? (j : Json) : Option SourceMap := do
  let fields ← j.record? fieldNames
  return {
    version := ← Json.required? fields "version" (Json.nat? 255)
    file := ← Json.withDefault? fields "file" none (Json.nullable? Json.string?)
    sources := ← Json.required? fields "sources" (Json.list? Json.string?)
    sourcesContent :=
      ← Json.withDefault? fields "sourcesContent" [] (Json.list? (Json.nullable? Json.string?))
    names := ← Json.required? fields "names" (Json.list? Json.string?)
    mappings := ← Json.required? fields "mappings" Json.string? }

/-- The map that a JSON text holds. Of members that are no fields of a map, only the grammar
matters. -/
def parse? (text : String) : Option SourceMap := do
  ofJson? (← (← Json.outline? text).valueOf? fieldNames)

end SourceMap

end Downlevel
