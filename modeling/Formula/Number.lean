import Formula.Decimal.Shortest

/-!
How a double is shown: the shortest decimal that reads back, never with an exponent. A number in a
formula always has a point (`5.0`); a number in a message has one only where it needs it (`5`).
-/

namespace Formula
namespace Number

/-- The bits of a double without its sign. -/
def code (x : Float) : Nat := (x.toBits &&& 0x7fffffffffffffff).toNat

/-- Whether the sign bit is set: true of `-0.0` as well. -/
def isNegative (x : Float) : Bool := x.toBits >>> 63 != 0

/-- A double written with `write` for its finite magnitude. What is no number has no sign. -/
def textWith (write : Decimal → String) (x : Float) : String :=
  if x.isNaN then "NaN"
  else
    let magnitude := if code x < infinityCode then write (.shortest (code x)) else "inf"
    if isNegative x then "-" ++ magnitude else magnitude

/-- The text of a double in a message: `3`, `1.5`, `-0`, `inf`. -/
def text (x : Float) : String := textWith Decimal.text x

/-- The text of a constant in a formula: `3.0`, `1.5`, `-0.0`, `inf`. -/
def pointedText (x : Float) : String := textWith Decimal.pointedText x

end Number
end Formula
