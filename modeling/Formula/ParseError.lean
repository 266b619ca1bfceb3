/-!
Why a text or a stream of tokens is no formula, with the message for whoever typed it.
-/

namespace Formula

inductive ParseError where
  /-- A run of characters that begins no token. -/
  | unknownSymbol (fragment : String)
  /-- A comparison or an equals sign. -/
  | unsupportedOperator (symbol : String)
  /-- A comma between digits. -/
  | decimalComma
  /-- Two stars where a power is meant. -/
  | doubleStar
  | emptyInput
  /-- A name before a group, as in `sin(x)`. -/
  | functionCall (name argument : String)
  /-- A constant or a group before a group, as in `2(x)`. -/
  | implicitProduct (left right : String)
  | unexpectedToken (token : String)
  | unexpectedEnd
  | tooDeeplyNested (limit : Nat)
  | tooLong (limit : Nat)
  /-- The source of the tokens gave up for a reason of its own. -/
  | unreadable (reason : String)
  deriving DecidableEq, Repr

namespace ParseError

/-- The text shown for an error. -/
def message : ParseError → String
  | unknownSymbol fragment => s!"Unknown symbol `{fragment}'."
  | unsupportedOperator symbol => s!"Sorry, operator `{symbol}' is not yet implemented."
  | decimalComma => "Unknown symbol `,'.  The decimal point is a `.'."
  | doubleStar => "Power operator is `^', not `**'."
  | emptyInput => "Nothing to parse."
  | functionCall name argument =>
    s!"Functions are currently not supported.  Offending piece: ``{name}({argument})''."
  | implicitProduct left right =>
    s!"Implicit multiplication is currently not supported.  Offending piece: ``{left}({right})''."
  | unexpectedToken token => s!"Syntax error at `{token}'."
  | unexpectedEnd => "Unexpected end of input."
  | tooDeeplyNested limit => s!"Expression is nested too deeply (more than {limit} levels)."
  | tooLong limit => s!"Expression is too long (more than {limit} operations)."
  | unreadable reason => s!"Could not read the input: {reason}"

/-- Whether the input is sound but asks for something that formulas do not have yet. -/
def isUnsupported : ParseError → Bool
  | unsupportedOperator _ | functionCall _ _ | implicitProduct _ _ => true
  | _ => false

end ParseError
end Formula
