import Formula.Expr.Basic

/-!
The value of a formula under bindings. Arithmetic never fails, so the only error is a variable
without a value, and the leftmost such leaf is the one that is named.
-/

namespace Formula

/-- The values of variables; of two entries for a name the first counts. -/
abbrev Bindings := List (String × Float)

/-- Why a formula has no value. -/
inductive EvalError where
  | unboundVariable (name : String)
  deriving DecidableEq, Repr

namespace EvalError

def message : EvalError → String
  | unboundVariable name => s!"Variable `{name}' is not bound."

end EvalError

namespace Expr

/-- Both operands are evaluated, the left one first, and then joined. -/
def evaluate (bindings : Bindings) : Expr → Except EvalError Float
  | constant value => .ok value
  | var name =>
    match bindings.lookup name with
    | some value => .ok value
    | none => .error (.unboundVariable name)
  | binary op l r => do
    let a ← l.evaluate bindings
    let b ← r.evaluate bindings
    return op.apply a b

end Expr
end Formula
