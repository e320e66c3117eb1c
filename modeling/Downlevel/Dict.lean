/-! # Dictionaries

Values under keys, in the order in which the keys were first put. A list in which a key stands twice
is a dictionary too, for reading: its first value counts. `put` keeps each key at one place. -/

namespace Downlevel

abbrev Dict (α : Type) := List (String × α)

namespace Dict

def get? (d : Dict α) (key : String) : Option α := d.lookup key

def keys (d : Dict α) : List String := d.map (·.1)

/-- Puts a value under a key: in the place of the value there, or else at the end. -/
def put : Dict α → String → α → Dict α
  | [], key, value => [(key, value)]
  | (k, v) :: rest, key, value =>
    if k == key then (key, value) :: rest else (k, v) :: put rest key value

/-- Each key of a list once, where it first stood, with its last value. -/
def ofPairs (pairs : List (String × α)) : Dict α :=
  pairs.foldl (fun d (key, value) => d.put key value) []

def putInOrder : Dict α → String → α → Dict α
  | [], key, value => [(key, value)]
  | (k, v) :: rest, key, value =>
    if key == k then (key, value) :: rest
    else if key < k then (key, value) :: (k, v) :: rest
    else (k, v) :: putInOrder rest key value

/-- Each key of a list once with its last value, in the order of keys. -/
def sorted (pairs : List (String × α)) : Dict α :=
  pairs.foldl (fun d (key, value) => d.putInOrder key value) []

end Dict

end Downlevel
