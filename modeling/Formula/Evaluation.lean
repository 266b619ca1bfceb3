import Formula.Expr.Evaluation
import Formula.Expr.Reading

/-!
The value of a formula given as text: it is read, then evaluated.
-/

namespace Formula

/-- Why a text has no value. -/
inductive Failure where
  | parse (error : ParseError)
  | evaluation (error : EvalError)
  deriving DecidableEq, Repr

namespace Failure

/-- The text of the error within. -/
def message : Failure → String
  | parse e => e.message
  | evaluation e => e.message

end Failure

/-- Evaluates a formula that has been read, or passes on why it could not be. -/
def evaluateRead (read : Except ParseError Expr) (bindings : Bindings) : Except Failure Float :=
  match read with
  | .ok e => (e.evaluate bindings).mapError .evaluation
  | .error e => .error (.parse e)

/-- Reads a text and evaluates it once. -/
def evaluate (text : String) (bindings : Bindings) : Except Failure Float :=
  evaluateRead (Expr.ofText text) bindings

end Formula
