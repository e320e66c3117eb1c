/-! # Mappings

For each line of generated code, the segments that say where it came from, in the order of their
columns. -/

namespace Downlevel.SourceMap

structure Origin where
  source : Nat
  line : Nat
  column : Nat
  name : Option Nat := none
deriving DecidableEq, Repr

/-- The start of a stretch of a generated line, and where the stretch came from, if from
anywhere. -/
structure Segment where
  column : Nat
  origin : Option Origin
deriving DecidableEq, Repr

structure Mappings where
  lines : List (List Segment) := []
deriving DecidableEq, Repr

namespace Mappings

/-- Puts a segment behind all segments of a line that start at or before its column. -/
def insertSegment (s : Segment) : List Segment → List Segment
  | [] => [s]
  | t :: rest => if t.column ≤ s.column then t :: insertSegment s rest else s :: t :: rest

/-- Changes line `n` of some lines, which are filled up to it. -/
def atLine (f : List Segment → List Segment) : Nat → List (List Segment) → List (List Segment)
  | 0, [] => [f []]
  | 0, line :: rest => f line :: rest
  | n + 1, [] => [] :: atLine f n []
  | n + 1, line :: rest => line :: atLine f n rest

def push (m : Mappings) (line : Nat) (s : Segment) : Mappings :=
  ⟨atLine (insertSegment s) line m.lines⟩

def line (m : Mappings) (n : Nat) : List Segment := (m.lines[n]?).getD []

/-- The last segment of a line that starts at or before a column. -/
def segmentBefore? (m : Mappings) (line column : Nat) : Option Segment :=
  ((m.line line).takeWhile (·.column ≤ column)).getLast?

/-- The last segment of a line that starts at a column. -/
def segmentAt? (m : Mappings) (line column : Nat) : Option Segment :=
  (m.segmentBefore? line column).filter (·.column == column)

/-- Whether `s` tells nothing after `previous`: it starts at the same column, or neither comes from
anywhere. At the start of a line, a segment from nowhere tells nothing. -/
def redundant (previous : Option Segment) (s : Segment) : Bool :=
  match previous with
  | none => s.origin.isNone
  | some p => p.column == s.column || (p.origin.isNone && s.origin.isNone)

/-- A line without its redundant segments, after the segment `previous` that was kept. -/
def pruneLine (previous : Option Segment) : List Segment → List Segment
  | [] => []
  | s :: rest =>
    if redundant previous s then pruneLine previous rest else s :: pruneLine (some s) rest

def dropEmptyEnd (lines : List (List Segment)) : List (List Segment) :=
  (lines.reverse.dropWhile List.isEmpty).reverse

def prune (m : Mappings) : Mappings := ⟨dropEmptyEnd (m.lines.map (pruneLine none))⟩

end Mappings

end Downlevel.SourceMap
