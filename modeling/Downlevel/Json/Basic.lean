import Downlevel.Decimal.Double
import Downlevel.Dict

/-! # JSON values

A value keeps its members in the order of the text, repeated keys and all; `canonical` is the form
in which each key stands once and keys are in order. -/

namespace Downlevel

inductive Json.Number where
  | whole (value : Int)
  | double (negative : Bool) (magnitude : Double)
deriving DecidableEq, Repr

inductive Json where
  | null
  | bool (b : Bool)
  | number (n : Json.Number)
  | string (s : String)
  | array (items : List Json)
  | object (members : List (String × Json))
deriving Repr, Inhabited, BEq

namespace Json

def nat (n : Nat) : Json := .number (.whole n)

def int (n : Int) : Json := .number (.whole n)

def option (encode : α → Json) : Option α → Json
  | some a => encode a
  | none => .null

def members? : Json → Option (List (String × Json))
  | .object members => some members
  | _ => none

def items? : Json → Option (List Json)
  | .array items => some items
  | _ => none

def string? : Json → Option String
  | .string s => some s
  | _ => none

def bool? : Json → Option Bool
  | .bool b => some b
  | _ => none

def nat? (limit : Nat) : Json → Option Nat
  | .number (.whole (.ofNat n)) => if n ≤ limit then some n else none
  | _ => none

/-- The member with the given key, the last one if there are more. -/
def get? (j : Json) (key : String) : Option Json :=
  j.members?.bind fun members => members.reverse.lookup key

mutual

/-- The value with the members of all objects in order, each key once. -/
def canonical : Json → Json
  | .array items => .array (canonicalItems items)
  | .object members => .object (Dict.sorted (canonicalMembers members))
  | j => j

def canonicalItems : List Json → List Json
  | [] => []
  | j :: rest => canonical j :: canonicalItems rest

def canonicalMembers : List (String × Json) → List (String × Json)
  | [] => []
  | (key, j) :: rest => (key, canonical j) :: canonicalMembers rest

end

end Json

end Downlevel
