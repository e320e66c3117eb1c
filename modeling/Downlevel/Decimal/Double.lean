/-! # Doubles

Binary floating-point numbers with 53 bits, as exact values: a mantissa and a power of two. -/

namespace Downlevel

/-- The number `mantissa · 2 ^ exponent`. The mantissa is below `2 ^ 53`, and the exponent is the
least that lets it be so, but not below the least exponent of all. -/
structure Double where
  mantissa : Nat
  exponent : Int
deriving DecidableEq, Repr

namespace Double

def precision : Nat := 53

def mantissas : Nat := Nat.pow 2 precision

def minExponent : Int := -1074

def maxExponent : Int := 971

def zero : Double := ⟨0, minExponent⟩

/-- A quotient, rounded to the nearest whole number; of two that are as near, the even one. -/
def roundQuotient (num den : Nat) : Nat :=
  let q := num / den
  let twice := 2 * (num % den)
  if twice < den then q else if twice > den then q + 1 else q + q % 2

/-- The numerator and the denominator of `num / den / 2 ^ e`. -/
def scaleBinary (num den : Nat) (e : Int) : Nat × Nat :=
  if e < 0 then (num * Nat.pow 2 (-e).toNat, den) else (num, den * Nat.pow 2 e.toNat)

/-- The double next to a quotient, the even one of two that are as near; none if the quotient is too
large. -/
def ofRatio? (num den : Nat) : Option Double :=
  if num == 0 then some zero
  else
    -- at most one more than the exponent of the leading bit
    let guess : Int := (Nat.log2 num : Int) - Nat.log2 den - precision
    let scaled (e : Int) : Nat := let (n, d) := scaleBinary num den e; n / d
    let least := if scaled guess < mantissas then guess else guess + 1
    let e := max least minExponent
    let (n, d) := scaleBinary num den e
    let m := roundQuotient n d
    let (m, e) := if m == mantissas then (mantissas / 2, e + 1) else (m, e)
    if e ≤ maxExponent then some ⟨m, e⟩ else none

def ratio (x : Double) : Nat × Nat := scaleBinary x.mantissa 1 (-x.exponent)

def mul? (x y : Double) : Option Double :=
  let (a, b) := x.ratio
  let (c, d) := y.ratio
  ofRatio? (a * c) (b * d)

def div? (x y : Double) : Option Double :=
  let (a, b) := x.ratio
  let (c, d) := y.ratio
  ofRatio? (a * d) (b * c)

def tenPow? (n : Nat) : Option Double := ofRatio? (Nat.pow 10 n) 1

def maxTenPow : Nat := 308

def divTenPow? (x : Double) (n : Nat) : (steps : Nat) → Option Double
  | 0 => some zero
  | steps + 1 =>
    if x.mantissa == 0 then some x
    else if n ≤ maxTenPow then do div? x (← tenPow? n)
    else do (← div? x (← tenPow? maxTenPow)).divTenPow? (n - maxTenPow) steps

/-- The double for `significand · 10 ^ exponent`. The significand and the power are rounded by
themselves, and then their product or quotient is; none if the number is too large. -/
def ofDecimal? (significand : Nat) (exponent : Int) : Option Double := do
  let x ← ofRatio? significand 1
  if x.mantissa == 0 then return x
  if 0 ≤ exponent then
    if exponent ≤ maxTenPow then mul? x (← tenPow? exponent.toNat) else none
  else x.divTenPow? (-exponent).toNat 4

end Double

end Downlevel
