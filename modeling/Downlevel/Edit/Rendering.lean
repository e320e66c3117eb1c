/-! # Renderings

Rendered code together with the places in it that come from the snippet. Renderings are put one
after the other, and the places of the later one move along. -/

namespace Downlevel

/-- Code, and pairs of an offset into it and the offset in the snippet that it comes from. -/
structure Rendering where
  code : String := ""
  places : Array (Nat × Nat) := #[]
deriving DecidableEq, Repr

namespace Rendering

def plain (code : String) : Rendering := { code }

def mapped (code : String) (source : Nat) : Rendering := { code, places := #[(0, source)] }

def shifted (n : Nat) (places : Array (Nat × Nat)) : Array (Nat × Nat) :=
  places.map fun (generated, source) => (n + generated, source)

def append (a b : Rendering) : Rendering :=
  { code := a.code ++ b.code, places := a.places ++ shifted a.code.utf8ByteSize b.places }

instance : Append Rendering := ⟨append⟩

end Rendering

end Downlevel
