import Formula.Operator

/-!
Formulas as trees. There is no node for a leading minus: `-e` is the difference `0 - e`. Two
formulas are equal as numbers are: `0.0` equals `-0.0`, and what is no number differs from itself.
-/

namespace Formula

inductive Expr where
  | constant (value : Float)
  | var (name : String)
  | binary (op : Operator) (left right : Expr)
  deriving Inhabited

namespace Expr

/-- The formula for a leading minus. -/
def negate (e : Expr) : Expr := binary .difference (constant 0.0) e

/-- Same shape, same operators and names, and constants that are equal as numbers. -/
protected def beq : Expr → Expr → Bool
  | constant a, constant b => a == b
  | var a, var b => a == b
  | binary o l r, binary o' l' r' => o == o' && l.beq l' && r.beq r'
  | _, _ => false

instance : BEq Expr := ⟨Expr.beq⟩

/-- The names of the variable leaves, from left to right. -/
def names : Expr → List String
  | constant _ => []
  | var name => [name]
  | binary _ l r => l.names ++ r.names

/-- Puts a name in its place in a strictly increasing list; one that is there is not repeated. -/
def insertName (name : String) : List String → List String
  | [] => [name]
  | n :: rest =>
    if name < n then name :: n :: rest
    else if name = n then n :: rest
    else n :: insertName name rest

/-- The variables of a formula, each once, in the order of their code points. -/
def vars (e : Expr) : List String := e.names.foldr insertName []

theorem mem_insertName {name n : String} {ns : List String} :
    n ∈ insertName name ns ↔ n = name ∨ n ∈ ns := by
  induction ns with
  | nil => simp [insertName]
  | cons m ns ih =>
    simp only [insertName]
    split
    · simp
    · split
      · next h => subst h; simp
      · simp [ih, or_left_comm]

theorem mem_vars {e : Expr} {n : String} : n ∈ e.vars ↔ n ∈ e.names := by
  unfold vars
  induction e.names with
  | nil => simp
  | cons m ns ih => simp [mem_insertName, ih]

end Expr
end Formula
