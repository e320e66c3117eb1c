import Downlevel.Json.Record

/-! # Thrown errors

What code throws when it runs. -/

namespace Downlevel

/-- A position in a snippet: lines count from one, columns from zero and in UTF-16 units. -/
structure Location where
  line : Nat
  column : Nat
deriving DecidableEq, Repr

namespace Location

def render (l : Location) : String := toString l.line ++ ":" ++ toString l.column

def limit : Nat := 0xffffffff

def ofJson? (j : Json) : Option Location := do
  let fields ← j.record? ["line", "column"]
  return {
    line := ← Json.required? fields "line" (Json.nat? limit)
    column := ← Json.required? fields "column" (Json.nat? limit) }

def toJson (l : Location) : Json := .object [("line", .nat l.line), ("column", .nat l.column)]

end Location

structure Thrown where
  name : String := ""
  message : String := ""
  stack : Option String := none
  lineNumber : Option Nat := none
  columnNumber : Option Nat := none
  location : Option Location := none
deriving DecidableEq, Repr

namespace Thrown

def title (e : Thrown) : String := if e.name.isEmpty then e.message else e.name ++ ": " ++ e.message

def render (e : Thrown) : String :=
  match e.location with
  | some l => e.title ++ " (" ++ l.render ++ ")"
  | none => e.title

def fieldNames : List String :=
  ["name", "message", "stack", "lineNumber", "columnNumber", "location"]

/-- The error that a JSON value holds; every field may be missing. -/
def ofJson? (j : Json) : Option Thrown := do
  let fields ← j.record? fieldNames
  return {
    name := ← Json.withDefault? fields "name" "" Json.string?
    message := ← Json.withDefault? fields "message" "" Json.string?
    stack := ← Json.withDefault? fields "stack" none (Json.nullable? Json.string?)
    lineNumber :=
      ← Json.withDefault? fields "lineNumber" none (Json.nullable? (Json.nat? Location.limit))
    columnNumber :=
      ← Json.withDefault? fields "columnNumber" none (Json.nullable? (Json.nat? Location.limit))
    location := ← Json.withDefault? fields "location" none (Json.nullable? Location.ofJson?) }

/-- The error as JSON; what is not known is left out. -/
def toJson (e : Thrown) : Json :=
  let known (key : String) (value : Option Json) : List (String × Json) :=
    value.toList.map fun j => (key, j)
  .object <| [("name", .string e.name), ("message", .string e.message)] ++
    known "stack" (e.stack.map .string) ++ known "lineNumber" (e.lineNumber.map .nat) ++
    known "columnNumber" (e.columnNumber.map .nat) ++
    known "location" (e.location.map Location.toJson)

end Thrown

end Downlevel
