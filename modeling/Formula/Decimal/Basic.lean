/-!
Decimals without a sign: a whole number of units of the last place. They are made from the digits
on both sides of a point, and written back without an exponent.
-/

namespace Formula

/-- The number `numerator / 10 ^ places`. -/
structure Decimal where
  numerator : Nat
  places : Nat
  deriving DecidableEq, Repr

namespace Decimal

/-- The decimal written with the digits `whole` before the point and `fraction` after it. -/
def ofDigits (whole fraction : List Char) : Decimal where
  numerator := Nat.ofDigitChars 10 (whole ++ fraction) 0
  places := fraction.length

/-- How many units of the last place make one. -/
def unit (d : Decimal) : Nat := Nat.pow 10 d.places

/-- How many digits the numerator has; zero has one. -/
def digitCount (d : Decimal) : Nat := (Nat.toDigits 10 d.numerator).length

/-- The same number with no zero at the end of its fraction. -/
def reduce (d : Decimal) : Decimal := go d.numerator d.places
where
  go (numerator : Nat) : Nat → Decimal
    | 0 => ⟨numerator, 0⟩
    | places + 1 =>
      if numerator % 10 = 0 then go (numerator / 10) places else ⟨numerator, places + 1⟩

/-- The digits before the point, at least one. -/
def wholeDigits (d : Decimal) : List Char := Nat.toDigits 10 (d.numerator / d.unit)

/-- The digits after the point, one for each place. -/
def fractionDigits (d : Decimal) : List Char :=
  if d.places = 0 then []
  else (Nat.toDigits 10 (d.numerator % d.unit)).leftpad d.places '0'

/-- All digits, with a point only where there is a fraction. -/
def text (d : Decimal) : String :=
  match d.fractionDigits with
  | [] => String.ofList d.wholeDigits
  | fraction => String.ofList (d.wholeDigits ++ '.' :: fraction)

/-- All digits, with at least one behind a point. -/
def pointedText (d : Decimal) : String :=
  match d.fractionDigits with
  | [] => String.ofList (d.wholeDigits ++ ['.', '0'])
  | fraction => String.ofList (d.wholeDigits ++ '.' :: fraction)

end Decimal
end Formula
