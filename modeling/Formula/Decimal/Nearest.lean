import Formula.Decimal.Basic

/-!
Decimals and doubles. A double without its sign is known by its bits, read as a natural number:
these codes grow with the number, from 0 to the code of infinity. `Decimal.nearest` is the code of
the double nearest to a decimal, a tie going to the even code; `Decimal.exact` writes the double
of a finite code as a decimal, which is always possible since a power of two divides a power of ten.
-/

namespace Formula

/-- The quotient rounded to the nearest whole number, a half to the even one. -/
def roundHalfEven (numerator denominator : Nat) : Nat :=
  let quotient := numerator / denominator
  let rest := numerator % denominator
  if 2 * rest < denominator then quotient
  else if denominator < 2 * rest then quotient + 1
  else quotient + quotient % 2

/-- The code of infinity; every smaller code is that of a finite double. -/
def infinityCode : Nat := 2047 <<< 52

namespace Decimal

/-- The code of the double nearest to a decimal. The number is counted in units of `2 ^ -1074`,
the least double; from `2 ^ 53` units on, `shift` binary places of the count are rounded off, and
a mantissa that is rounded up to `2 ^ 53` carries into the exponent by itself. -/
def nearest (d : Decimal) : Nat :=
  let units := d.numerator <<< 1074
  let shift := (units / d.unit).log2 - 52
  min (roundHalfEven units (d.unit <<< shift) + (shift <<< 52)) infinityCode

/-- The nearest double, infinite if the decimal is too large. -/
def toFloat (d : Decimal) : Float := Float.ofBits (UInt64.ofNat d.nearest)

/-- The double with a finite code, as a decimal of the same value. -/
def exact (code : Nat) : Decimal :=
  let exponent := code >>> 52
  let fraction := code % (1 <<< 52)
  let mantissa := if exponent = 0 then fraction else (1 <<< 52) + fraction
  let shift := exponent - 1
  if 1074 ≤ shift then ⟨mantissa <<< (shift - 1074), 0⟩
  else ⟨mantissa * Nat.pow 5 (1074 - shift), 1074 - shift⟩

end Decimal
end Formula
