import Formula.Expr.Reading
import Formula.Proofs.Token.Tiling

/-!
A reader cannot tell a text from the list of its tokens. Where a text begins with what spells a
token, that token comes first in the list, and the tokens of what is left come after it. Where it
ends in none that goes on, the tokens of what is put behind it come after its own.
-/

namespace Formula
namespace Scanner

theorem items_eq_tour (s : Scanner) :
    s.items = s.tour.1.map (fun span => .ok span.lexeme) ++ s.tour.2.toList.map .error := by
  rw [items]
  split
  · next hnext => rw [tour_none hnext]; rfl
  · next lexeme t hnext =>
      have := length_next_lt hnext
      rw [tour_some hnext, t.items_eq_tour]
      rfl
  · next hnext => rw [tour_error hnext]; rfl
termination_by s.rest.length

/-- The tokens of a text without their places. -/
def tokens (s : Scanner) : List (Except ParseError Token) := s.items.map (Except.map Lexeme.token)

theorem tokens_none {s t : Scanner} (h : s.next = (.ok none, t)) : s.tokens = [] := by
  rw [tokens, items_eq_tour, tour_none h]
  rfl

theorem tokens_some {s t : Scanner} {lexeme : Lexeme} (h : s.next = (.ok (some lexeme), t)) :
    s.tokens = .ok lexeme.token :: t.tokens := by
  rw [tokens, tokens, items_eq_tour, items_eq_tour, tour_some h]
  rfl

theorem tokens_error {s t : Scanner} {x : ParseError} (h : s.next = (.error x, t)) :
    s.tokens = [.error x] := by
  rw [tokens, items_eq_tour, tour_error h]
  rfl

theorem tokens_nil (p : Nat) : tokens ⟨[], p⟩ = [] := tokens_none rfl

theorem next_none {s t : Scanner} (h : s.next = (.ok none, t)) : t.rest = [] := by
  simp only [next] at h
  split at h
  · next hrest =>
      obtain rfl := (Prod.mk.inj h).2
      exact hrest
  · split at h <;> simp at h

end Scanner

/-- What is read from a text is what is read from the list of its tokens. -/
theorem Reader.run_tokens {α : Type} (r : Reader α) (s : Scanner) :
    (r.run s).1 = (r.run s.tokens).1 := by
  induction r generalizing s with
  | done a => rfl
  | fail x => rfl
  | ask next ih =>
      rw [Reader.run, Reader.run]
      cases hnext : s.next with
      | mk answer t =>
          have hsource : TokenSource.next s = (answer.map (Option.map Lexeme.token), t) := by
            simp only [TokenSource.next, hnext]
          cases answer with
          | error x =>
              rw [hsource, Scanner.tokens_error hnext]
              rfl
          | ok found =>
              cases found with
              | none =>
                  -- the reader may go on asking at the end, and both sources stay there
                  rw [hsource, Scanner.tokens_none hnext]
                  obtain ⟨rest, position⟩ := t
                  obtain rfl : rest = [] := Scanner.next_none hnext
                  exact (ih none _).trans (by rw [Scanner.tokens_nil]; rfl)
              | some lexeme =>
                  rw [hsource, Scanner.tokens_some hnext]
                  exact ih (some lexeme.token) t

theorem Expr.ofText_eq (text : String) :
    ofText text = (ofTokens (Scanner.ofText text).tokens).1 :=
  Reader.run_tokens Phrase.whole (Scanner.ofText text)

theorem isBlank_cases {c : Char} (h : isBlank c) : c = ' ' ∨ c = '\t' ∨ c = '\n' := by
  simpa [isBlank, or_assoc] using h

/-- A blank belongs to no name and to no number. -/
theorem not_digit_alpha_of_isBlank {c : Char} (h : isBlank c) : ¬ c.isDigit ∧ ¬ c.isAlpha := by
  obtain rfl | rfl | rfl := isBlank_cases h <;> decide

theorem Token.Spells.not_isBlank {t : Token} {c : Char} {us rest : List Char}
    (h : t.Spells (c :: us) rest) : ¬ isBlank c := by
  intro hc
  have hscan := h.scan
  obtain rfl | rfl | rfl := isBlank_cases hc <;> contradiction

namespace Scanner

theorem next_spells {blanks us rest : List Char} {t : Token} (hblank : ∀ b ∈ blanks, isBlank b)
    (h : t.Spells us rest) (p : Nat) :
    next ⟨blanks ++ (us ++ rest), p⟩ = (.ok (some { token := t, position := p + width blanks }),
      ⟨rest, p + width blanks + width us⟩) := by
  obtain ⟨c, us, rfl⟩ := List.exists_cons_of_ne_nil h.ne_nil
  have hstop : ∀ d ∈ (c :: us ++ rest).head?, ¬ isBlank d := by
    rintro d ⟨⟩
    exact h.not_isBlank
  rw [next, skipBlanks_append hblank hstop]
  simp only [List.cons_append, h.scan, advance]
  simp

theorem next_fits {blanks rest : List Char} {c : Char} {x : ParseError}
    (hblank : ∀ b ∈ blanks, isBlank b) (hc : ¬ isBlank c) (h : x.Fits (c :: rest)) (p : Nat) :
    ∃ t, next ⟨blanks ++ c :: rest, p⟩ = (.error x, t) := by
  have hstop : ∀ d ∈ (c :: rest).head?, ¬ isBlank d := by
    rintro d ⟨⟩
    exact hc
  refine ⟨exhaust ⟨c :: rest, p + width blanks⟩, ?_⟩
  rw [next, skipBlanks_append hblank hstop]
  simp only [h.scan]

theorem items_spells {blanks us rest : List Char} {t : Token} (hblank : ∀ b ∈ blanks, isBlank b)
    (h : t.Spells us rest) (p : Nat) :
    items ⟨blanks ++ (us ++ rest), p⟩ =
      .ok { token := t, position := p + width blanks } ::
        items ⟨rest, p + width blanks + width us⟩ := by
  rw [items_eq_tour, items_eq_tour, tour_some (next_spells hblank h p)]
  rfl

theorem tokens_spells {blanks us rest : List Char} {t : Token} (hblank : ∀ b ∈ blanks, isBlank b)
    (h : t.Spells us rest) (p : Nat) :
    tokens ⟨blanks ++ (us ++ rest), p⟩ = .ok t :: tokens ⟨rest, p + width blanks + width us⟩ :=
  tokens_some (next_spells hblank h p)

theorem tokens_spells_first {us rest : List Char} {t : Token} (h : t.Spells us rest) (p : Nat) :
    tokens ⟨us ++ rest, p⟩ = .ok t :: tokens ⟨rest, p + width us⟩ := by
  have hnone : ∀ b ∈ ([] : List Char), isBlank b := by simp
  exact tokens_spells hnone h p

theorem skipBlanks_blanks {blanks : List Char} (hblank : ∀ b ∈ blanks, isBlank b) (cs : List Char)
    (p : Nat) : skipBlanks ⟨blanks ++ cs, p⟩ = skipBlanks ⟨cs, p + width blanks⟩ := by
  obtain ⟨more, rest, rfl, -, -, hmore, hstop⟩ := span_split isBlank cs
  have hall : ∀ b ∈ blanks ++ more, isBlank b := List.forall_mem_append.mpr ⟨hblank, hmore⟩
  rw [← List.append_assoc, skipBlanks_append hall hstop, skipBlanks_append hmore hstop,
    width_append, Nat.add_assoc]

theorem tokens_congr {s t : Scanner} (h : s.next = t.next) : s.tokens = t.tokens := by
  rw [tokens, tokens, items_eq_tour, items_eq_tour]
  obtain ⟨_, _, _, _, -, -, -, hnext⟩ | ⟨_, _, _, _, -, -, -, -, hnext⟩ | ⟨-, hnext⟩ :=
    t.next_cases
  · rw [tour_some hnext, tour_some (h.trans hnext)]
  · rw [tour_error hnext, tour_error (h.trans hnext)]
  · rw [tour_none hnext, tour_none (h.trans hnext)]

/-- Blanks before the first token are passed. -/
theorem tokens_blanks {blanks : List Char} (hblank : ∀ b ∈ blanks, isBlank b) (cs : List Char)
    (p : Nat) : tokens ⟨blanks ++ cs, p⟩ = tokens ⟨cs, p + width blanks⟩ :=
  tokens_congr (by rw [next, next, skipBlanks_blanks hblank])

/-- A text in which nothing fails has the same tokens before a character that carries none of them
on, but that a second star right behind a last one makes it fail. -/
theorem tokens_append_cons {s : Scanner} {ts : List Token} (h : s.tokens = ts.map .ok) {c : Char}
    (hc : ¬ c.isDigit ∧ ¬ c.isAlpha ∧ c ≠ '.' ∧ c ≠ ',') (r : List Char) (p : Nat) :
    (∃ q, tokens ⟨s.rest ++ c :: r, p⟩ = ts.map .ok ++ tokens ⟨c :: r, q⟩) ∨
      c = '*' ∧ ∃ us, us <+: ts ∧
        tokens ⟨s.rest ++ c :: r, p⟩ = us.map .ok ++ [.error .doubleStar] := by
  obtain ⟨blanks, us, rest, t, hrest, hblank, hspells, hnext⟩ | ⟨_, _, _, x, -, -, -, -, hnext⟩ |
    ⟨hblank, hnext⟩ := s.next_cases
  · rw [tokens_some hnext] at h
    obtain ⟨v, ts, rfl, ht, hts⟩ := List.map_eq_cons_iff.mp h.symm
    obtain rfl : t = v := (Except.ok.inj ht).symm
    rw [hrest, List.append_assoc, List.append_assoc]
    by_cases hlast : t = .prodOp '*' ∧ rest = [] ∧ c = '*'
    · obtain ⟨hstar, rfl, rfl⟩ := hlast
      obtain ⟨rfl, -⟩ : (Token.prodOp '*').Spells us [] := hstar ▸ hspells
      have hfits : ParseError.doubleStar.Fits ('*' :: '*' :: r) := ⟨r, rfl⟩
      obtain ⟨_, hfails⟩ := next_fits hblank (by decide) hfits p
      exact .inr ⟨rfl, [], List.nil_prefix, tokens_error hfails⟩
    · have hmore := hspells.append_cons hc (fun ht hnil hstar => hlast ⟨ht, hnil, hstar⟩) r
      rw [tokens_spells hblank hmore]
      obtain ⟨q, htokens⟩ | ⟨hstar, vs, ⟨more, hprefix⟩, htokens⟩ :=
        tokens_append_cons hts.symm hc r (p + width blanks + width us)
      · exact .inl ⟨q, congrArg (.ok t :: ·) htokens⟩
      · exact .inr ⟨hstar, t :: vs, ⟨more, congrArg (t :: ·) hprefix⟩,
          congrArg (.ok t :: ·) htokens⟩
  · rw [tokens_error hnext] at h
    obtain ⟨_, _, -, ht, -⟩ := List.map_eq_cons_iff.mp h.symm
    contradiction
  · rw [tokens_none hnext] at h
    obtain rfl := List.map_eq_nil_iff.mp h.symm
    exact .inl ⟨_, tokens_blanks hblank _ p⟩
termination_by s.rest.length
decreasing_by exact length_next_lt hnext

end Scanner
end Formula
