import Downlevel.Json.Basic

/-! # Records in JSON

A record with fixed fields may be written as an object, in which other keys are passed over and no
field may stand twice, or as an array of its fields in order. -/

namespace Downlevel.Json

def record? (fields : List String) : Json → Option (List (String × Json))
  | .object members =>
    let known := members.filter fun (key, _) => fields.contains key
    if (known.map (·.1)).Nodup then some known else none
  | .array items => if items.length ≤ fields.length then some (fields.zip items) else none
  | _ => none

def required? (fields : List (String × Json)) (key : String) (decode : Json → Option α) :
    Option α :=
  (fields.lookup key).bind decode

def withDefault? (fields : List (String × Json)) (key : String) (default : α)
    (decode : Json → Option α) : Option α :=
  match fields.lookup key with
  | some j => decode j
  | none => some default

def nullable? (decode : Json → Option α) : Json → Option (Option α)
  | .null => some none
  | j => (decode j).map some

def isNull : Json → Bool
  | .null => true
  | _ => false

def isVoid : Json → Bool
  | .null | .object [] => true
  | _ => false

/-- One of some named choices, written as its name or as an object with one member of that name.
What stands there has to be `blank`. -/
def choice? (blank : Json → Bool) (choices : List (String × α)) : Json → Option α
  | .string name => choices.lookup name
  | .object [(name, j)] => if blank j then choices.lookup name else none
  | _ => none

def list? (decode : Json → Option α) (j : Json) : Option (List α) :=
  j.items?.bind fun items => items.mapM decode

end Downlevel.Json
