import Formula.Expr.Basic
import Formula.Number

/-!
The two written forms of a formula: `text`, which is read back as the same formula, with
parentheses around every operation, and `outline`, which names every node. Names of variables are
written as they are.
-/

namespace Formula
namespace Expr

/-- The formula with every operation in parentheses: `(5.0 + x)`. -/
def text : Expr → String
  | constant value => Number.pointedText value
  | var name => name
  | binary op l r => "(" ++ l.text ++ op.between ++ r.text ++ ")"

/-- The formula with its nodes named: `SumOp(Constant(5.0), Variable('x'))`. -/
def outline : Expr → String
  | constant value => "Constant(" ++ Number.pointedText value ++ ")"
  | var name => "Variable('" ++ name ++ "')"
  | binary op l r => op.nodeName ++ "(" ++ l.outline ++ ", " ++ r.outline ++ ")"

end Expr
end Formula
