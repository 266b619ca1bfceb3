import Formula.Phrase.Grammar

/-!
Reading a formula, from a text or from any other source of tokens.
-/

namespace Formula
namespace Expr

/-- Reads a formula from all tokens of a source. What is left of the source shows how far the
reading went. -/
def ofTokens {σ : Type} [TokenSource σ] (source : σ) : Except ParseError Expr × σ :=
  Phrase.whole.run source

/-- Reads a formula from a text. -/
def ofText (text : String) : Except ParseError Expr := (ofTokens (Scanner.ofText text)).1

end Expr
end Formula
