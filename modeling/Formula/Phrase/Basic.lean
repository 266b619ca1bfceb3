import Formula.Token.Reader

/-!
What every phrase of a formula is read with: one token in view, a count of the operations that have
been joined, and operands joined from the left. A phrase moves on before it judges the token that it
leaves, so a source that fails is heard before a misplaced token.
-/

namespace Formula

/-- How many operations a formula may have, a leading minus included. -/
def maxOperations : Nat := 1000

/-- What a phrase is read with: the token in view and the operations joined so far. -/
structure Progress where
  /-- Nothing once the tokens have come to their end. -/
  current : Option Token
  operations : Nat := 0

/-- A reader that keeps one token in view. -/
abbrev Phrase := StateT Progress Reader

namespace Phrase

/-- Gives up with an error. -/
def refuse {α : Type} (e : ParseError) : Phrase α := StateT.lift (.fail e)

/-- The token in view. -/
def current : Phrase (Option Token) := do
  return (← get).current

/-- Asks for the next token and gives back the one that was in view. -/
def advance : Phrase (Option Token) := do
  let next ← StateT.lift Reader.token
  modifyGet fun p => (p.current, { p with current := next })

/-- Counts one operation. -/
def count : Phrase Unit := do
  modify fun p => { p with operations := p.operations + 1 }
  if maxOperations < (← get).operations then refuse (.tooLong maxOperations)

/-- Joins two operands, which is one operation. -/
def join (op : Operator) (left right : Expr) : Phrase Expr := do
  count
  return .binary op left right

/-- The operator of a sign. The character of a sign need not be one. -/
def operator (symbol : Char) : Phrase Operator :=
  match Operator.ofSymbol symbol with
  | .ok op => return op
  | .error e => refuse (.unexpectedToken (String.singleton e.symbol))

/-- Joins further operands to `left` for as long as `sign` finds a sign in the token in view;
`operand` reads what comes after one. Each round joins once, so with one round more than
`maxOperations` the rounds never run out: the last one is refused as it joins. -/
def chain (sign : Token → Option Char) (operand : Char → Phrase Expr) : Nat → Expr → Phrase Expr
  | 0, _ => refuse (.tooLong maxOperations)
  | rounds + 1, left => do
    match (← current).bind sign with
    | none => return left
    | some symbol =>
      discard advance
      let right ← operand symbol
      let op ← operator symbol
      chain sign operand rounds (← join op left right)

end Phrase
end Formula
