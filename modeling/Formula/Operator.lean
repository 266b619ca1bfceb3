/-!
The five operators of a formula: the character each is written with, the text that stands between
its operands, and the arithmetic it does on doubles. An operator is found again from its own
character, and no other character is an operator.
-/

namespace Formula

inductive Operator where
  | sum
  | difference
  | product
  | quotient
  | power
  deriving DecidableEq, Repr

/-- A character that is no operator. -/
structure UnknownOperator where
  symbol : Char
  deriving DecidableEq, Repr

namespace UnknownOperator

def message (e : UnknownOperator) : String := s!"Unknown operator: {e.symbol}"

end UnknownOperator

namespace Operator

/-- The character an operator is written with in a formula. -/
def symbol : Operator → Char
  | sum => '+'
  | difference => '-'
  | product => '*'
  | quotient => '/'
  | power => '^'

/-- The operator that a character stands for. -/
def ofSymbol : Char → Except UnknownOperator Operator
  | '+' => .ok sum
  | '-' => .ok difference
  | '*' => .ok product
  | '/' => .ok quotient
  | '^' => .ok power
  | c => .error ⟨c⟩

/-- The text between two operands: sums and differences are spaced out for the eye. -/
def between : Operator → String
  | sum => " + "
  | difference => " - "
  | product => "*"
  | quotient => "/"
  | power => "^"

/-- The word for a node in the outline of a formula. -/
def nodeName : Operator → String
  | sum => "SumOp"
  | difference => "DifferenceOp"
  | product => "ProductOp"
  | quotient => "QuotientOp"
  | power => "PowerOp"

/-- Plain IEEE arithmetic: `1 / 0` is infinite and a root of a negative number is no number. -/
def apply : Operator → Float → Float → Float
  | sum, a, b => a + b
  | difference, a, b => a - b
  | product, a, b => a * b
  | quotient, a, b => a / b
  | power, a, b => a.pow b

@[simp] theorem ofSymbol_symbol (op : Operator) : ofSymbol op.symbol = .ok op := by
  cases op <;> rfl

theorem symbol_inj {op op' : Operator} : op.symbol = op'.symbol ↔ op = op' := by
  refine ⟨fun h => ?_, congrArg symbol⟩
  have hof := congrArg ofSymbol h
  rw [ofSymbol_symbol, ofSymbol_symbol] at hof
  exact Except.ok.inj hof

end Operator
end Formula
