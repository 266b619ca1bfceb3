import Formula.Proofs.Token.Stream

/-!
How far a reader goes into its source. It knows the source by the answers to its requests alone, so
sources that answer these alike cannot be told apart, whatever they would answer next. A failure
that is answered ends the reading. A text answers as the list of its tokens does, and no request
depends on the place where the text begins.
-/

namespace Formula

variable {σ τ α : Type} [TokenSource σ] [TokenSource τ]

namespace TokenSource

/-- What a source answers to its first `n` requests. -/
def answers : Nat → σ → List (Except ParseError (Option Token))
  | 0, _ => []
  | n + 1, source => (next source).1 :: answers n (next source).2

/-- What is left of a source after `n` requests. -/
def after : Nat → σ → σ
  | 0, source => source
  | n + 1, source => after n (next source).2

theorem answers_append {items : List (Except ParseError Token)} {n : Nat} (h : n ≤ items.length)
    (more : List (Except ParseError Token)) : answers n (items ++ more) = answers n items := by
  induction n generalizing items with
  | zero => rfl
  | succ n ih =>
      cases items with
      | nil => contradiction
      | cons item items =>
          have hn : n ≤ items.length := Nat.le_of_succ_le_succ h
          cases item <;> exact congrArg (_ :: ·) (ih hn)

theorem answers_of_take_isPrefix {items items' : List (Except ParseError Token)} {n : Nat}
    (h : n ≤ items.length) (hbegin : items.take n <+: items') :
    answers n items' = answers n items := by
  obtain ⟨more, rfl⟩ := hbegin
  have hn : n ≤ (items.take n).length := by simp [h]
  rw [answers_append hn, ← answers_append hn (items.drop n), List.take_append_drop]

theorem answers_getElem? {items : List (Except ParseError Token)} {i n : Nat}
    {item : Except ParseError Token} (hi : i < n) (h : items[i]? = some item) :
    (answers n items)[i]? = some (item.map some) := by
  induction n generalizing items i with
  | zero => contradiction
  | succ n ih =>
      cases items with
      | nil => simp at h
      | cons first items =>
          cases i with
          | zero =>
              obtain rfl : first = item := by simpa using h
              cases first <;> rfl
          | succ i =>
              have hrest := ih (Nat.lt_of_succ_lt_succ hi) (by simpa using h)
              cases first <;> exact hrest

end TokenSource

namespace Reader
open TokenSource

/-- How many requests a reader makes of a source. The one that is answered by the end of the tokens
counts, and so does the one that fails. -/
def pulls : Reader α → σ → Nat
  | done _, _ | fail _, _ => 0
  | ask next, source =>
    match TokenSource.next source with
    | (.ok token, source) => (next token).pulls source + 1
    | (.error _, _) => 1

theorem pulls_ok {next : Option Token → Reader α} {source rest : σ} {token : Option Token}
    (h : TokenSource.next source = (.ok token, rest)) :
    (ask next).pulls source = (next token).pulls rest + 1 := by
  rw [pulls, h]

theorem pulls_error {next : Option Token → Reader α} {source rest : σ} {x : ParseError}
    (h : TokenSource.next source = (.error x, rest)) : (ask next).pulls source = 1 := by
  rw [pulls, h]

theorem run_ok {next : Option Token → Reader α} {source rest : σ} {token : Option Token}
    (h : TokenSource.next source = (.ok token, rest)) :
    (ask next).run source = (next token).run rest := by
  rw [run, h]

theorem run_error {next : Option Token → Reader α} {source rest : σ} {x : ParseError}
    (h : TokenSource.next source = (.error x, rest)) :
    (ask next).run source = (.error x, rest) := by
  rw [run, h]

/-- A reader leaves its source where its requests have brought it. -/
theorem run_snd (r : Reader α) (source : σ) : (r.run source).2 = after (r.pulls source) source := by
  induction r generalizing source with
  | done a | fail x => rfl
  | ask next ih =>
      obtain ⟨answer, rest, h⟩ : ∃ answer rest, TokenSource.next source = (answer, rest) :=
        ⟨_, _, rfl⟩
      cases answer with
      | ok token => rw [run_ok h, pulls_ok h, after, h, ih]
      | error x => rw [run_error h, pulls_error h, after, h, after]

/-- A reader is led by the answers to its own requests. -/
theorem run_congr (r : Reader α) {source : σ} {source' : τ}
    (h : answers (r.pulls source) source' = answers (r.pulls source) source) :
    (r.run source').1 = (r.run source).1 ∧ r.pulls source' = r.pulls source := by
  induction r generalizing source source' with
  | done a | fail x => exact ⟨rfl, rfl⟩
  | ask next ih =>
      obtain ⟨answer, rest, hs⟩ : ∃ answer rest, TokenSource.next source = (answer, rest) :=
        ⟨_, _, rfl⟩
      obtain ⟨answer', rest', hs'⟩ : ∃ answer rest, TokenSource.next source' = (answer, rest) :=
        ⟨_, _, rfl⟩
      cases answer with
      | ok token =>
          rw [pulls_ok hs, answers, answers, hs, hs'] at h
          obtain ⟨rfl, h⟩ := List.cons.inj h
          obtain ⟨hrun, hpulls⟩ := ih token h
          exact ⟨by rw [run_ok hs, run_ok hs', hrun], by rw [pulls_ok hs, pulls_ok hs', hpulls]⟩
      | error x =>
          simp only [pulls_error hs, answers, hs, hs'] at h
          obtain ⟨rfl, -⟩ := List.cons.inj h
          exact ⟨by rw [run_error hs, run_error hs'], by rw [pulls_error hs, pulls_error hs']⟩

/-- A failure among the answers is the last of them, and is passed on. -/
theorem run_of_answers_error (r : Reader α) {source : σ} {i : Nat} {x : ParseError}
    (h : (answers (r.pulls source) source)[i]? = some (.error x)) :
    r.pulls source = i + 1 ∧ (r.run source).1 = .error x := by
  induction r generalizing source i with
  | done a | fail y => simp [pulls, answers] at h
  | ask next ih =>
      obtain ⟨answer, rest, hs⟩ : ∃ answer rest, TokenSource.next source = (answer, rest) :=
        ⟨_, _, rfl⟩
      cases answer with
      | ok token =>
          rw [pulls_ok hs, answers, hs] at h
          cases i with
          | zero => simp at h
          | succ i =>
              obtain ⟨hpulls, hrun⟩ := ih token h
              exact ⟨by rw [pulls_ok hs, hpulls], by rw [run_ok hs, hrun]⟩
      | error y =>
          rw [pulls_error hs, answers, hs] at h
          cases i with
          | zero =>
              obtain rfl : y = x := by simpa using h
              exact ⟨pulls_error hs, by rw [run_error hs]⟩
          | succ i => simp [answers] at h

section List
variable {r : Reader α} {items : List (Except ParseError Token)}

/-- What is not asked for is not known. -/
theorem run_of_take_isPrefix {items' : List (Except ParseError Token)}
    (h : r.pulls items ≤ items.length) (hbegin : items.take (r.pulls items) <+: items') :
    (r.run items').1 = (r.run items).1 ∧ r.pulls items' = r.pulls items :=
  r.run_congr (answers_of_take_isPrefix h hbegin)

theorem run_append_of_pulls_le (h : r.pulls items ≤ items.length)
    (more : List (Except ParseError Token)) : (r.run (items ++ more)).1 = (r.run items).1 :=
  (r.run_congr (answers_append h more)).1

theorem run_of_error_item {i : Nat} {x : ParseError} (h : items[i]? = some (.error x))
    (hi : i < r.pulls items) : r.pulls items = i + 1 ∧ (r.run items).1 = .error x :=
  r.run_of_answers_error (answers_getElem? hi h)

theorem run_append_error_of_lt_pulls {ts : List Token} {x : ParseError}
    {rest : List (Except ParseError Token)}
    (h : ts.length < r.pulls (ts.map (Except.ok : Token → Except ParseError Token))) :
    (r.run (ts.map (Except.ok : Token → Except ParseError Token) ++ .error x :: rest)).1 =
      .error x := by
  induction r generalizing ts with
  | done a | fail y => exact absurd h (Nat.not_lt_zero _)
  | ask next ih =>
      cases ts with
      | nil => rfl
      | cons t ts =>
          have hnext : ts.length <
              (next (some t)).pulls (ts.map (Except.ok : Token → Except ParseError Token)) := by
            rw [List.map_cons, pulls_ok rfl, List.length_cons] at h
            omega
          exact ih (some t) hnext

end List
end Reader

namespace Scanner
open TokenSource

theorem next_of_ok {s t : Scanner} {lexeme : Option Lexeme} (h : s.next = (.ok lexeme, t)) :
    TokenSource.next s = (.ok (lexeme.map Lexeme.token), t) := by
  simp only [TokenSource.next, h, Except.map]

theorem next_of_error {s t : Scanner} {x : ParseError} (h : s.next = (.error x, t)) :
    TokenSource.next s = (.error x, t) := by
  simp only [TokenSource.next, h, Except.map]

/-- A text answers as the list of its tokens does. -/
theorem answers_tokens (n : Nat) (s : Scanner) : answers n s.tokens = answers n s := by
  induction n generalizing s with
  | zero => rfl
  | succ n ih =>
      rw [answers, answers]
      obtain ⟨blanks, us, rest, t, -, -, -, hnext⟩ | ⟨blanks, c, rest, x, -, -, -, -, hnext⟩ |
        ⟨-, hnext⟩ := s.next_cases
      · rw [next_of_ok hnext, tokens_some hnext]
        exact congrArg _ (ih _)
      · have hrest := ih ⟨[], s.position + width s.rest⟩
        rw [tokens_nil] at hrest
        rw [next_of_error hnext, tokens_error hnext]
        exact congrArg _ hrest
      · have hrest := ih ⟨[], s.position + width s.rest⟩
        rw [tokens_nil] at hrest
        rw [next_of_ok hnext, tokens_none hnext]
        exact congrArg _ hrest

theorem next_place (rest : List Char) (p q : Nat) :
    (TokenSource.next (⟨rest, p⟩ : Scanner)).1 =
        (TokenSource.next (⟨rest, q⟩ : Scanner)).1 ∧
      (TokenSource.next (⟨rest, p⟩ : Scanner)).2.rest =
        (TokenSource.next (⟨rest, q⟩ : Scanner)).2.rest := by
  simp only [TokenSource.next, next, skipBlanks, advance, exhaust]
  cases rest.drop (rest.takeWhile isBlank).length with
  | nil => exact ⟨rfl, rfl⟩
  | cons c cs => cases hscan : Token.scan c cs <;> simp [hscan, Except.map]

theorem answers_place (n : Nat) (rest : List Char) (p q : Nat) :
    answers n (⟨rest, p⟩ : Scanner) = answers n (⟨rest, q⟩ : Scanner) := by
  induction n generalizing rest p q with
  | zero => rfl
  | succ n ih =>
      obtain ⟨hanswer, hrest⟩ := next_place rest p q
      rw [answers, answers, hanswer]
      obtain ⟨rest', p', h⟩ : ∃ rest' p',
          (TokenSource.next (⟨rest, p⟩ : Scanner)).2 = ⟨rest', p'⟩ := ⟨_, _, rfl⟩
      obtain ⟨rest'', q', h'⟩ : ∃ rest' p',
          (TokenSource.next (⟨rest, q⟩ : Scanner)).2 = ⟨rest', p'⟩ := ⟨_, _, rfl⟩
      rw [h, h'] at hrest ⊢
      obtain rfl : rest' = rest'' := hrest
      rw [ih rest' p' q']

/-- A request passes a part of the text, and the position grows by its width. -/
theorem next_passes (s : Scanner) :
    ∃ us, s.rest = us ++ (TokenSource.next s).2.rest ∧
      (TokenSource.next s).2.position = s.position + width us := by
  obtain ⟨blanks, us, rest, t, hrest, -, -, hnext⟩ | ⟨blanks, c, rest, x, hrest, -, -, -, hnext⟩ |
    ⟨-, hnext⟩ := s.next_cases
  · rw [next_of_ok hnext]
    exact ⟨blanks ++ us, by simp [hrest], by simp [width_append, Nat.add_assoc]⟩
  · rw [next_of_error hnext]
    exact ⟨s.rest, by simp, rfl⟩
  · rw [next_of_ok hnext]
    exact ⟨s.rest, by simp, rfl⟩

theorem after_passes (n : Nat) (s : Scanner) :
    ∃ us, s.rest = us ++ (after n s).rest ∧ (after n s).position = s.position + width us := by
  induction n generalizing s with
  | zero => exact ⟨[], rfl, rfl⟩
  | succ n ih =>
      obtain ⟨us, hrest, hposition⟩ := s.next_passes
      obtain ⟨vs, hrest', hposition'⟩ := ih (TokenSource.next s).2
      refine ⟨us ++ vs, ?_, ?_⟩
      · rw [hrest, hrest', List.append_assoc]
        rfl
      · rw [width_append, ← Nat.add_assoc, ← hposition]
        exact hposition'

/-- With more requests than there are tokens, nothing is left. -/
theorem rest_after (n : Nat) (s : Scanner) (h : s.tokens.length < n) : (after n s).rest = [] := by
  have hnil (m p : Nat) : (after m (⟨[], p⟩ : Scanner)).rest = [] := by
    obtain ⟨us, hrest, -⟩ := after_passes m ⟨[], p⟩
    exact (List.append_eq_nil_iff.mp hrest.symm).2
  induction n generalizing s with
  | zero => contradiction
  | succ n ih =>
      obtain ⟨blanks, us, rest, t, -, -, -, hnext⟩ | ⟨blanks, c, rest, x, -, -, -, -, hnext⟩ |
        ⟨-, hnext⟩ := s.next_cases
      · rw [tokens_some hnext, List.length_cons] at h
        rw [after, next_of_ok hnext]
        exact ih _ (Nat.lt_of_succ_lt_succ h)
      · rw [after, next_of_error hnext]
        exact hnil _ _
      · rw [after, next_of_ok hnext]
        exact hnil _ _

end Scanner
end Formula
