import Formula.Expr.Text

/-!
The tokens of a formula. A name or a number is a leaf of the formula as soon as it is read, so its
token holds that leaf; a stream made by hand may put any formula there. A sign carries its
character, which is again only a rule of the text and not of the type.
-/

namespace Formula

inductive Token where
  | openParen
  | closeParen
  /-- A sign of the level of sums, `+` or `-`. -/
  | sumOp (symbol : Char)
  /-- A sign of the level of products, `*` or `/`. -/
  | prodOp (symbol : Char)
  | powOp
  | name (node : Expr)
  | number (node : Expr)
  deriving Inhabited

namespace Token

/-- The word for the class of a token. -/
def kind : Token → String
  | openParen => "OPPAR"
  | closeParen => "CLPAR"
  | sumOp _ => "SUMOP"
  | prodOp _ => "PRODOP"
  | powOp => "POWOP"
  | name _ => "VARIABLE"
  | number _ => "CONSTANT"

/-- A token as it is quoted in messages: its character, or the text of its leaf. -/
def text : Token → String
  | openParen => "("
  | closeParen => ")"
  | sumOp symbol | prodOp symbol => String.singleton symbol
  | powOp => "^"
  | name node | number node => node.text

end Token

/-- A token with its place in a text. -/
structure Lexeme where
  token : Token
  /-- Formulas have one line only. -/
  line : Nat := 1
  /-- How many bytes stand before the first character of the token. -/
  position : Nat
  deriving Inhabited

end Formula
