import Formula.Decimal.Nearest

/-!
The shortest decimal of a double: the one with the fewest digits among those to which the double
is nearest, and of these the one closest to the double itself. For each number of digits only the
two neighbours on that grid are tried, since a grid that has a point in the rounding interval has
a neighbour of the double in it.
-/

namespace Formula
namespace Decimal

/-- The decimals next below and next above that keep only the first `digits` digits, the closer
one in front; of two that are equally close, the greater. -/
def neighbours (d : Decimal) (digits : Nat) : List Decimal :=
  let grid := Nat.pow 10 (d.digitCount - digits)
  let below := d.numerator / grid * grid
  let above := below + grid
  if 2 * (d.numerator - below) < grid then [⟨below, d.places⟩, ⟨above, d.places⟩]
  else [⟨above, d.places⟩, ⟨below, d.places⟩]

/-- The shortest decimal that reads back to a finite code. -/
def shortest (code : Nat) : Decimal :=
  let d := exact code
  let found := (List.range d.digitCount).findSome? fun n =>
    (d.neighbours (n + 1)).find? fun candidate => candidate.nearest == code
  (found.getD d).reduce

end Decimal
end Formula
