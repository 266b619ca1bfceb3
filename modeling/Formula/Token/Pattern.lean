/-!
The patterns of the tokens. A pattern takes as many characters from the head of a text as it can,
and never fewer for the sake of what comes behind it. The kinds of tokens are tried in a fixed order
and the first one whose pattern matches is taken, so the kinds that stand for a mistake come first:
two stars are never split into two products, nor is a number with a comma into two numbers.
-/

namespace Formula

/-- How many characters are taken from the head of a text, if it matches. -/
abbrev Pattern := List Char → Option Nat

namespace Pattern

/-- One of the characters. -/
def oneOf (chars : List Char) : Pattern
  | [] => none
  | c :: _ => if chars.contains c then some 1 else none

/-- As many characters with a property as there are, but at least one. -/
def many (p : Char → Bool) : Pattern := fun cs =>
  match cs.takeWhile p with
  | [] => none
  | taken => some taken.length

/-- One pattern behind the other. -/
def seq (first second : Pattern) : Pattern := fun cs =>
  (first cs).bind fun n => (second (cs.drop n)).map (n + ·)

/-- A pattern that may be left out. -/
def optional (pattern : Pattern) : Pattern := fun cs => some ((pattern cs).getD 0)

end Pattern

/-- The kinds of what may stand at the head of a text. -/
inductive Kind where
  /-- A comparison or an equals sign. -/
  | comparison
  /-- A comma between digits. -/
  | decimalComma
  | doubleStar
  | openParen
  | closeParen
  | sumOp
  | prodOp
  | powOp
  | name
  | number
  deriving DecidableEq, Repr

namespace Kind

open Pattern

/-- The pattern of a kind. Letters and digits are those of ASCII. -/
def pattern : Kind → Pattern
  | comparison => seq (oneOf ['<', '>', '=']) (optional (oneOf ['=']))
  | decimalComma => seq (many Char.isDigit) (seq (oneOf [',']) (many Char.isDigit))
  | doubleStar => seq (oneOf ['*']) (oneOf ['*'])
  | openParen => oneOf ['(']
  | closeParen => oneOf [')']
  | sumOp => oneOf ['+', '-']
  | prodOp => oneOf ['*', '/']
  | powOp => oneOf ['^']
  | name => many Char.isAlpha
  | number => seq (many Char.isDigit) (optional (seq (oneOf ['.']) (many Char.isDigit)))

/-- All kinds in the order in which they are tried. -/
def inOrder : List Kind :=
  [comparison, decimalComma, doubleStar, openParen, closeParen, sumOp, prodOp, powOp, name, number]

/-- The first kind that matches, with the count of characters that it takes. -/
def first (cs : List Char) : Option (Kind × Nat) :=
  inOrder.findSome? fun kind => (kind.pattern cs).map (kind, ·)

end Kind
end Formula
