/-! # Variable-length quantities

A whole number is written as digits of a base-64 alphabet, five bits in each, lowest first; the
sixth bit of a digit says that more follow. The lowest bit of all is the sign. Numbers are 64 bits
wide. -/

namespace Downlevel.SourceMap

inductive DecodeError where
  | invalidDigit (byte : UInt8)
  | unexpectedEnd
  | overflow
  | badSegmentLength (fields : Nat)
  | negativeValue
deriving DecidableEq, Repr

namespace Vlq

def alphabet : List Char :=
  "ABCDEFGHIJKLMNOPQRSTUVWXYZabcdefghijklmnopqrstuvwxyz0123456789+/".toList

def digit (n : Nat) : Char := alphabet.getD n 'A'

def digitValue? (byte : UInt8) : Option Nat :=
  let n := byte.toNat
  if 65 ≤ n && n ≤ 90 then some (n - 65)
  else if 97 ≤ n && n ≤ 122 then some (n - 97 + 26)
  else if 48 ≤ n && n ≤ 57 then some (n - 48 + 52)
  else if n == 43 then some 62
  else if n == 47 then some 63
  else none

def words : Nat := 0x10000000000000000

def toWord (value : Int) : Nat :=
  (2 * value.natAbs + if value < 0 then 1 else 0) % words

def ofWord (word : Nat) : Int :=
  if word % 2 = 1 then -((word / 2 : Nat) : Int) else ((word / 2 : Nat) : Int)

def encodeWord (word : Nat) : List Char :=
  if _h : word < 32 then [digit word]
  else digit (word % 32 + 32) :: encodeWord (word / 32)
termination_by word
decreasing_by omega

def encode (value : Int) : List Char := encodeWord (toWord value)

structure Decoded where
  result : Except DecodeError Int
  consumed : Nat
deriving Repr

/-- Reads digits on, after `count` of them have come to `word`. The thirteenth digit is the last
that a number may have; bits beyond the sixty-fourth are dropped. -/
def decodeFrom (count word : Nat) : List UInt8 → Decoded
  | [] => ⟨.error .unexpectedEnd, count⟩
  | byte :: rest =>
    match digitValue? byte with
    | none => ⟨.error (.invalidDigit byte), count⟩
    | some d =>
      if 13 ≤ count then ⟨.error .overflow, count + 1⟩
      else
        let word := (word + (d % 32) * Nat.pow 32 count) % words
        if d < 32 then ⟨.ok (ofWord word), count + 1⟩ else decodeFrom (count + 1) word rest

def decode (bytes : List UInt8) : Decoded := decodeFrom 0 0 bytes

structure Row where
  values : List Int := []
  consumed : Nat := 0
  error : Option DecodeError := none
deriving Repr

def decodeUpTo : Nat → List UInt8 → Row
  | 0, _ => {}
  | _, [] => {}
  | n + 1, bytes =>
    let decoded := decode bytes
    match decoded.result with
    | .error e => { consumed := decoded.consumed, error := some e }
    | .ok value =>
      let row := decodeUpTo n (bytes.drop decoded.consumed)
      { row with values := value :: row.values, consumed := decoded.consumed + row.consumed }

def decodeAll (bytes : List UInt8) : Row := decodeUpTo bytes.length bytes

end Vlq

end Downlevel.SourceMap
