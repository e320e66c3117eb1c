import Downlevel.Decimal.Double

/-! # Shortest decimals

The decimal with the fewest digits that reads back as a given double; of several, the one nearest to
the double. -/

namespace Downlevel

/-- The number `digits · 10 ^ exponent`. -/
structure Decimal where
  digits : Nat
  exponent : Int
deriving DecidableEq, Repr

namespace Decimal

def trimmed (d : Decimal) : Nat → Decimal
  | 0 => d
  | n + 1 =>
    if d.digits != 0 && d.digits % 10 == 0 then trimmed ⟨d.digits / 10, d.exponent + 1⟩ n else d

/-- The numerator and the denominator of `num / den / 10 ^ e`. -/
def scaleDecimal (num den : Nat) (e : Int) : Nat × Nat :=
  if e < 0 then (num * Nat.pow 10 (-e).toNat, den) else (num, den * Nat.pow 10 e.toNat)

/-- The interval of numbers that read back as a double, in units of a quarter of its last place:
from `4 · mantissa - low` to `4 · mantissa + 2`. Below a power of two doubles lie closer together.
-/
def lowMargin (x : Double) : Nat :=
  if 2 * x.mantissa == Double.mantissas && x.exponent > Double.minExponent then 1 else 2

/-- Whether `digits · 10 ^ exponent` reads back as a double. The ends of the interval do so if the
mantissa is even. -/
def readsBack (x : Double) (d : Decimal) : Bool :=
  -- both sides are multiplied by the same powers
  let (p, q) := scaleDecimal d.digits 1 (-d.exponent)
  let (u, v) := Double.scaleBinary 1 1 (2 - x.exponent)
  let value := p * v
  let low := (4 * x.mantissa - lowMargin x) * u * q
  let high := (4 * x.mantissa + 2) * u * q
  if x.mantissa % 2 == 0 then low ≤ value && value ≤ high else low < value && value < high

/-- The number of digits before the point of a quotient, negative if zeros follow the point. -/
def magnitude (num den : Nat) : Int :=
  ((Nat.toDigits 10 (num * Nat.pow 10 400 / den)).length : Int) - 400

/-- The decimal with `n` digits nearest to a double among those that read back as it. -/
def withDigits? (x : Double) (n : Nat) : Option Decimal :=
  let (num, den) := x.ratio
  let e := magnitude num den - n
  let (p, q) := scaleDecimal num den e
  let below : Decimal := ⟨p / q, e⟩
  let above : Decimal := ⟨p / q + 1, e⟩
  let nearest : Decimal := ⟨Double.roundQuotient p q, e⟩
  if readsBack x nearest then some nearest
  else if readsBack x below then some below
  else if readsBack x above then some above
  else none

/-- The shortest decimal that reads back as a double. Seventeen digits are always enough. -/
def shortest (x : Double) : Decimal :=
  if x.mantissa == 0 then ⟨0, 0⟩
  else (((List.range' 1 17).findSome? (withDigits? x)).getD ⟨0, 0⟩).trimmed 17

end Decimal

end Downlevel
