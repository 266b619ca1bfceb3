import Formula.Phrase.Basic

/-!
The phrases of a formula, lowest precedence first:

    sum      = product (SUMOP product)*
    product  = power (PRODOP power)*
    power    = SUMOP exponent | exponent
    exponent = value (POWOP power)?
    value    = OPPAR sum CLPAR | VARIABLE | CONSTANT

Sums and products are joined from the left, powers from the right. A leading `+` is dropped, a
leading `-` gives `0 - e`. One token of look-ahead decides everything.

Four slips have a message of their own: a name before a group, a constant or a group before a
group, and two stars, which reach the phrases apart when blanks stand between them.

Each phrase takes the reader of the power phrases within it as a parameter. `power` ties the knot
by recursion on the levels of nesting that are left.
-/

namespace Formula

/-- How many power phrases may be nested in each other. -/
def maxNesting : Nat := 64

namespace Phrase

/-- The sign of a product or quotient. -/
def prodSign : Token → Option Char
  | .prodOp symbol => some symbol
  | _ => none

/-- The sign of a sum or difference. -/
def sumSign : Token → Option Char
  | .sumOp symbol => some symbol
  | _ => none

/-- The operand after the sign of a product; a second star is taken for a power. -/
def factor (power : Phrase Expr) (symbol : Char) : Phrase Expr := do
  match symbol, ← current with
  | '*', some (.prodOp '*') => refuse .doubleStar
  | _, _ => power

def product (power : Phrase Expr) : Phrase Expr := do
  chain prodSign (factor power) (maxOperations + 1) (← power)

def sum (power : Phrase Expr) : Phrase Expr := do
  chain sumSign (fun _ => product power) (maxOperations + 1) (← product power)

/-- The inside of a group, up to its closing parenthesis, which stays in view. -/
def group (power : Phrase Expr) : Phrase Expr := do
  let inner ← sum power
  match ← current with
  | some .closeParen => return inner
  | some token => refuse (.unexpectedToken token.text)
  | none => refuse .unexpectedEnd

/-- The inside of a group that follows a value with nothing between them. It is read for the sake
of the message only. -/
def adjacent (power : Phrase Expr) : Phrase (Option Expr) := do
  match ← current with
  | some .openParen =>
    discard advance
    return some (← group power)
  | _ => return none

def value (power : Phrase Expr) : Phrase Expr := do
  match ← advance with
  | none => refuse .unexpectedEnd
  | some .openParen =>
    let inner ← group power
    discard advance
    match ← adjacent power with
    | some right => refuse (.implicitProduct ("(" ++ inner.text ++ ")") right.text)
    | none => return inner
  | some (.name node) =>
    match ← adjacent power with
    | some argument => refuse (.functionCall node.text argument.text)
    | none => return node
  | some (.number node) =>
    match ← adjacent power with
    | some right => refuse (.implicitProduct node.text right.text)
    | none => return node
  | some (.prodOp '*') =>
    match ← current with
    | some (.prodOp '*') => refuse .doubleStar
    | _ => refuse (.unexpectedToken "*")
  | some token => refuse (.unexpectedToken token.text)

def exponent (power : Phrase Expr) : Phrase Expr := do
  let base ← value power
  match ← current with
  | some .powOp =>
    discard advance
    join .power base (← power)
  | _ => return base

/-- A value with its powers, and the sign before it. Only a minus leaves a trace. -/
def signed (power : Phrase Expr) : Phrase Expr := do
  match ← current with
  | some (.sumOp symbol) =>
    discard advance
    let operand ← exponent power
    if symbol = '-' then
      count
      return operand.negate
    else return operand
  | _ => exponent power

/-- A power phrase that may nest `levels` deep, itself included. -/
def power : Nat → Phrase Expr
  | 0 => refuse (.tooDeeplyNested maxNesting)
  | levels + 1 => signed (power levels)

/-- A formula that takes all tokens to their end. -/
def whole : Reader Expr := do
  match ← Reader.token with
  | none => .fail .emptyInput
  | first =>
    let (e, rest) ← (sum (power maxNesting)).run { current := first }
    match rest.current with
    | none => return e
    | some token => .fail (.unexpectedToken token.text)

end Phrase
end Formula
