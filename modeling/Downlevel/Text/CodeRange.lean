/-! # Sets of code points

Character classes are given as lists of inclusive ranges, or of runs that take every `step`-th code
point between two ends. -/

namespace Downlevel.Text

def inRanges (ranges : List (Nat × Nat)) (c : Char) : Bool :=
  ranges.any fun (first, last) => first ≤ c.toNat && c.toNat ≤ last

/-- Whether the code point of `c` is one of `first, first + step, …, last`. -/
def inRun : Nat × Nat × Nat → Char → Bool
  | (first, last, step), c =>
    first ≤ c.toNat && c.toNat ≤ last && (c.toNat - first) % step == 0

def inRuns (runs : List (Nat × Nat × Nat)) (c : Char) : Bool :=
  runs.any fun run => inRun run c

end Downlevel.Text
