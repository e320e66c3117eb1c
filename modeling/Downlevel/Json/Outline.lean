import Downlevel.Json.Basic

/-! # Outlines

A JSON text may follow the grammar and still say something that has no value: a number that is too
large for a double, a string with half of a surrogate pair, or arrays and objects that are nested
too deep. An outline is what the grammar alone tells of a text. A reader that passes over a part of
it asks for no value of that part. -/

namespace Downlevel.Json

def nestingLimit : Nat := 127

/-- A text that follows the grammar. Parts without a value are none. -/
inductive Outline where
  | scalar (value : Option Json)
  | array (items : List Outline)
  | object (members : List (Option String × Outline))

namespace Outline

mutual

def valueWithin? (room : Nat) : Outline → Option Json
  | .scalar value => value
  | .array items =>
    match room with
    | 0 => none
    | room + 1 => (itemsWithin? room items).map .array
  | .object members =>
    match room with
    | 0 => none
    | room + 1 => (membersWithin? room members).map .object

def itemsWithin? (room : Nat) : List Outline → Option (List Json)
  | [] => some []
  | o :: rest => do return (← valueWithin? room o) :: (← itemsWithin? room rest)

def membersWithin? (room : Nat) : List (Option String × Outline) → Option (List (String × Json))
  | [] => some []
  | (key, o) :: rest => do
    return (← key, ← valueWithin? room o) :: (← membersWithin? room rest)

end

def value? (o : Outline) : Option Json := o.valueWithin? nestingLimit

/-- The value of an outline in which members of other names than `fields` are passed over. Only
their names have to be texts. -/
def valueOf? (fields : List String) : Outline → Option Json
  | .object members => do
    let named ← members.mapM fun (key, o) => do return (← key, o)
    let known := named.filter fun (key, _) => fields.contains key
    value? (.object (known.map fun (key, o) => (some key, o)))
  | o => o.value?

end Outline

end Downlevel.Json
