import Formula.Expr.Evaluation
import Formula.Number
import Formula.ParseError

/-!
The stretch of an axis that a plot shows. Both ends are finite and the low end is below the high
one, so what is no number is never an end.
-/

namespace Formula

inductive Axis where
  | x
  | y
  deriving DecidableEq, Repr

/-- The letter of an axis. -/
def Axis.text : Axis → String
  | x => "x"
  | y => "y"

/-- Why there is nothing to plot. -/
inductive PlotError where
  | parse (error : ParseError)
  | evaluation (error : EvalError)
  | emptyRange (axis : Axis) (low high : Float)
  | tooFewSamples (samples : Nat)

namespace PlotError

def message : PlotError → String
  | parse e => e.message
  | evaluation e => e.message
  | emptyRange axis low high =>
    axis.text ++ " minimum (" ++ Number.text low ++ ") must be less than " ++
      axis.text ++ " maximum (" ++ Number.text high ++ ")."
  | tooFewSamples samples => s!"At least two samples are needed to plot, got {samples}."

end PlotError

structure Range where
  low : Float
  high : Float
  valid : low.isFinite ∧ high.isFinite ∧ low < high

namespace Range

/-- The range between two ends, if it is not empty. -/
def ofEnds (axis : Axis) (low high : Float) : Except PlotError Range :=
  if h : low.isFinite ∧ high.isFinite ∧ low < high then .ok ⟨low, high, h⟩
  else .error (.emptyRange axis low high)

/-- Whether a value is to be seen: it is finite and not beyond either end. -/
def shows (r : Range) (v : Float) : Bool := v.isFinite && r.low ≤ v && v ≤ r.high

end Range
end Formula
