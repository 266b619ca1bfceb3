import Formula.Expr.Reading
import Formula.Plot.Collector
import Formula.Plot.Range

/-!
A plot shows a formula of `x` over a range of each axis. It is sampled at evenly spaced places;
where the formula leaves the picture or has no finite value there is a gap.
-/

namespace Formula

/-- The variable that runs along the horizontal axis. -/
def plotVariable : String := "x"

structure Plot where
  function : Expr
  xRange : Range
  yRange : Range
  /-- The formula has no other variable. -/
  only_x : ∀ name ∈ function.vars, name = plotVariable

/-- A sample: its place, and its height unless there is a gap. -/
structure Point where
  x : Float
  y : Option Float

namespace Plot

/-- The plot of a text over two ranges. The text is looked at first, then the ranges, and at last
the variables, of which the first one other than `x` is reported. -/
def ofText (text : String) (xMin xMax yMin yMax : Float) : Except PlotError Plot := do
  let function ← (Expr.ofText text).mapError .parse
  let xRange ← Range.ofEnds .x xMin xMax
  let yRange ← Range.ofEnds .y yMin yMax
  match h : function.vars.find? (· ≠ plotVariable) with
  | some name => throw (.evaluation (.unboundVariable name))
  | none => return { function, xRange, yRange, only_x := by simpa using h }

/-- The place of sample `i`. The last one is the end of the range itself, so that rounding does
not move it. -/
def place (p : Plot) (samples i : Nat) : Float :=
  let step := (p.xRange.high - p.xRange.low) / Float.ofNat (samples - 1)
  if i = samples - 1 then p.xRange.high else p.xRange.low + step * Float.ofNat i

/-- The sample at a place. -/
def point (p : Plot) (x : Float) : Except EvalError Point := do
  let y ← p.function.evaluate [(plotVariable, x)]
  return { x, y := if p.yRange.shows y then some y else none }

/-- The samples from the low end of the horizontal range to the high one. How they are put together
does not matter. -/
def sample (p : Plot) (samples : Nat) (c : Collector := .sequential) :
    Except PlotError (List Point) :=
  if samples < 2 then .error (.tooFewSamples samples)
  else (c.collect samples fun i => p.point (p.place samples i)).mapError .evaluation

end Plot
end Formula
