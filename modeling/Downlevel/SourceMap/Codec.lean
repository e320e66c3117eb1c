import Downlevel.SourceMap.Mappings
import Downlevel.SourceMap.Vlq

/-! # The text of mappings

Lines are parted by `;`, segments by `,`, and the fields of a segment are written as differences to
the last segment that had the field: columns of the generated code start anew on each line. -/

namespace Downlevel.SourceMap

/-- The fields of the last segment, to which the next one is written as a difference. -/
structure Registers where
  column : Int := 0
  source : Int := 0
  line : Int := 0
  sourceColumn : Int := 0
  name : Int := 0

namespace Mappings

/-! ## Writing -/

def encodeSegment (r : Registers) (s : Segment) : List Char × Registers :=
  let head := Vlq.encode (s.column - r.column)
  let r := { r with column := s.column }
  match s.origin with
  | none => (head, r)
  | some o =>
    let body := Vlq.encode (o.source - r.source) ++ Vlq.encode (o.line - r.line) ++
      Vlq.encode (o.column - r.sourceColumn)
    let r := { r with source := o.source, line := o.line, sourceColumn := o.column }
    match o.name with
    | none => (head ++ body, r)
    | some n => (head ++ body ++ Vlq.encode (n - r.name), { r with name := n })

def encodeLine (r : Registers) : List Segment → List Char × Registers
  | [] => ([], r)
  | [s] => encodeSegment r s
  | s :: rest =>
    let (first, r) := encodeSegment r s
    let (others, r) := encodeLine r rest
    (first ++ ',' :: others, r)

def encodeLines (r : Registers) : List (List Segment) → List Char
  | [] => []
  | [line] => (encodeLine { r with column := 0 } line).1
  | line :: rest =>
    let (text, r) := encodeLine { r with column := 0 } line
    text ++ ';' :: encodeLines r rest

def encode (m : Mappings) : String := String.ofList (encodeLines {} m.lines)

/-! ## Reading -/

def accumulate (total delta : Int) : Except DecodeError Int :=
  let sum := total + delta
  if -0x8000000000000000 ≤ sum ∧ sum < 0x8000000000000000 then .ok sum else .error .overflow

def field (value : Int) : Except DecodeError Nat :=
  if 0 ≤ value ∧ value < 0x100000000 then .ok value.toNat else .error .negativeValue

def endsSegment (byte : UInt8) : Bool := byte == 44 || byte == 59

/-- The numbers of one segment, of which at most `room` may follow, and the bytes after it. -/
def fields : (room : Nat) → List UInt8 → Except DecodeError (List Int × List UInt8)
  | _, [] => .ok ([], [])
  | 0, byte :: rest =>
    if endsSegment byte then .ok ([], byte :: rest) else .error (.badSegmentLength 6)
  | room + 1, byte :: rest => do
    if endsSegment byte then return ([], byte :: rest)
    let decoded := Vlq.decode (byte :: rest)
    let value ← decoded.result
    let (values, after) ← fields room ((byte :: rest).drop decoded.consumed)
    return (value :: values, after)

/-- The origin of a segment, and the registers after it. -/
def decodeOrigin (r : Registers) (source line column : Int) (name : Option Int) :
    Except DecodeError (Origin × Registers) := do
  let r := { r with source := ← accumulate r.source source }
  let r := { r with line := ← accumulate r.line line }
  let r := { r with sourceColumn := ← accumulate r.sourceColumn column }
  let (name, r) ←
    match name with
    | none => pure (none, r)
    | some delta => do
      let r := { r with name := ← accumulate r.name delta }
      pure (some (← field r.name), r)
  let origin : Origin :=
    { source := ← field r.source, line := ← field r.line, column := ← field r.sourceColumn, name }
  return (origin, r)

def decodeSegment (r : Registers) (values : List Int) :
    Except DecodeError (Segment × Registers) := do
  let r := { r with column := ← accumulate r.column (values.headD 0) }
  match values with
  | [_] => return (⟨← field r.column, none⟩, r)
  | [_, source, line, column] =>
    let (origin, r) ← decodeOrigin r source line column none
    return (⟨← field r.column, some origin⟩, r)
  | [_, source, line, column, name] =>
    let (origin, r) ← decodeOrigin r source line column (some name)
    return (⟨← field r.column, some origin⟩, r)
  | _ => throw (.badSegmentLength values.length)

/-- Lines of segments that are being read, the last one first. -/
structure Reading where
  done : List (List Segment) := []
  current : List Segment := []
  registers : Registers := {}

def decodeUpTo (r : Reading) : Nat → List UInt8 → Except DecodeError Reading
  | 0, _ => .ok r
  | _, [] => .ok r
  | n + 1, byte :: rest => do
    if byte == 59 then
      decodeUpTo
        { done := r.current :: r.done, current := [],
          registers := { r.registers with column := 0 } } n rest
    else if byte == 44 then decodeUpTo r n rest
    else
      let (values, after) ← fields 5 (byte :: rest)
      let (s, registers) ← decodeSegment r.registers values
      decodeUpTo { r with current := s :: r.current, registers } n after

/-- Segments in the order of their columns; those at one column stay as they are. -/
def sortLine (line : List Segment) : List Segment :=
  line.mergeSort fun a b => a.column ≤ b.column

def decode (text : String) : Except DecodeError Mappings := do
  let bytes := text.toUTF8.toList
  let r ← decodeUpTo {} bytes.length bytes
  let lines := (r.current :: r.done).reverse.map fun line => sortLine line.reverse
  return ⟨dropEmptyEnd lines⟩

end Mappings

/-! ## Messages -/

/-- A byte, as the character with that code, in quotes. What has no image is escaped. -/
def quoteByte (byte : UInt8) : String :=
  let n := byte.toNat
  let hex (n : Nat) : String := String.ofList (Nat.toDigits 16 n)
  let inner :=
    if n == 0 then "\\0"
    else if n == 9 then "\\t"
    else if n == 10 then "\\n"
    else if n == 13 then "\\r"
    else if n == 39 then "\\'"
    else if n == 92 then "\\\\"
    else if n < 32 || (127 ≤ n && n ≤ 160) || n == 173 then "\\u\x7b" ++ hex n ++ "\x7d"
    else (Char.ofNat n).toString
  "'" ++ inner ++ "'"

def DecodeError.message : DecodeError → String
  | .invalidDigit byte => "invalid base64 digit " ++ quoteByte byte ++ " in mappings"
  | .unexpectedEnd => "mappings end in the middle of a value"
  | .overflow => "VLQ value does not fit in 64 bits"
  | .badSegmentLength n => "segment has " ++ toString n ++ " fields; expected 1, 4 or 5"
  | .negativeValue => "segment field resolves to a negative index or position"

end Downlevel.SourceMap
