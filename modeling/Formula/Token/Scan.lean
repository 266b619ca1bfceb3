import Formula.Decimal.Nearest
import Formula.ParseError
import Formula.Token.Basic
import Formula.Token.Pattern

/-!
The token at the head of a text. It is of the first kind that matches there; some kinds are answered
with a message of their own.
-/

namespace Formula

/-- Blanks stand between tokens and have no meaning. -/
def isBlank (c : Char) : Bool := c == ' ' || c == '\t' || c == '\n'

/-- The characters up to the next blank, as they are quoted where nothing matches. -/
def fragment (cs : List Char) : String := String.ofList (cs.takeWhile (!isBlank ·))

/-- The token of a kind that has matched `text`. The digits of a number are always read as one, and
an operator does not match without a character. -/
def Kind.token (kind : Kind) (text : List Char) : Except ParseError Token :=
  match kind, text with
  | comparison, _ => .error (.unsupportedOperator (String.ofList text))
  | decimalComma, _ => .error .decimalComma
  | doubleStar, _ => .error .doubleStar
  | openParen, _ => .ok .openParen
  | closeParen, _ => .ok .closeParen
  | sumOp, symbol :: _ => .ok (.sumOp symbol)
  | prodOp, symbol :: _ => .ok (.prodOp symbol)
  | powOp, _ => .ok .powOp
  | name, _ => .ok (.name (.var (String.ofList text)))
  | number, _ =>
    let fraction := (text.dropWhile Char.isDigit).drop 1
    .ok (.number (.constant (Decimal.ofDigits (text.takeWhile Char.isDigit) fraction).toFloat))
  | sumOp, [] | prodOp, [] => .error (.unknownSymbol (fragment text))

/-- The token that begins with `c`, with the count of characters that it takes from `rest`. -/
def Token.scan (c : Char) (rest : List Char) : Except ParseError (Token × Nat) :=
  match Kind.first (c :: rest) with
  | some (kind, n) => (kind.token ((c :: rest).take n)).map (·, n - 1)
  | none => .error (.unknownSymbol (fragment (c :: rest)))

end Formula
