import Formula.Token.Scan

/-!
A scanner gives the tokens of a text one at a time, each with its place. Places are counted in
bytes of UTF-8, and the position of a scanner is always the width of what it has passed. After an
error it stands at the end of the text.
-/

namespace Formula

/-- How many bytes the characters take. -/
def width : List Char → Nat
  | [] => 0
  | c :: cs => c.utf8Size + width cs

structure Scanner where
  /-- What is still to be read. -/
  rest : List Char
  /-- How many bytes have been passed. -/
  position : Nat := 0

namespace Scanner

/-- A scanner at the beginning of a text. -/
def ofText (text : String) : Scanner where
  rest := text.toList

/-- Passes `n` characters. -/
def advance (s : Scanner) (n : Nat) : Scanner where
  rest := s.rest.drop n
  position := s.position + width (s.rest.take n)

/-- Passes the blanks that come next. -/
def skipBlanks (s : Scanner) : Scanner := s.advance (s.rest.takeWhile isBlank).length

/-- Passes all that is left. -/
def exhaust (s : Scanner) : Scanner := s.advance s.rest.length

/-- The next token, or nothing at the end of the text; blanks before either are passed. -/
def next (s : Scanner) : Except ParseError (Option Lexeme) × Scanner :=
  let s := s.skipBlanks
  match s.rest with
  | [] => (.ok none, s)
  | c :: rest =>
    match Token.scan c rest with
    | .ok (token, more) => (.ok (some { token, position := s.position }), s.advance (more + 1))
    -- No limit is set on the steps of a match, so it fails only where nothing matches: the text is
    -- never `unreadable`, which is left to other sources of tokens.
    | .error e => (.error e, s.exhaust)

theorem length_skipBlanks_le (s : Scanner) : s.skipBlanks.rest.length ≤ s.rest.length := by
  simp [skipBlanks, advance]

/-- A token takes at least one character. -/
theorem length_next_lt {s t : Scanner} {lexeme : Lexeme} (h : s.next = (.ok (some lexeme), t)) :
    t.rest.length < s.rest.length := by
  have hle := s.length_skipBlanks_le
  simp only [next] at h
  split at h
  · simp at h
  · next c rest hrest =>
    split at h
    · next token more _ =>
      simp only [Prod.mk.injEq] at h
      obtain ⟨-, rfl⟩ := h
      simp only [advance, List.length_drop]
      have : s.skipBlanks.rest.length = rest.length + 1 := by simp [hrest]
      omega
    · simp at h

/-- All tokens that are still to come, and the error that ends them if there is one. -/
def items (s : Scanner) : List (Except ParseError Lexeme) :=
  match _h : s.next with
  | (.ok none, _) => []
  | (.ok (some lexeme), t) => .ok lexeme :: t.items
  | (.error e, _) => [.error e]
termination_by s.rest.length
decreasing_by exact length_next_lt (by assumption)

end Scanner
end Formula
