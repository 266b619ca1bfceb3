import Formula.Proofs.Number.Written
import Formula.Proofs.Phrase.Acceptance
import Formula.Proofs.Token.Stream

/-!
The text of a formula is read back as the same formula, as far as the limits go. The text of every
part is scanned to tokens that depend on the part alone, since what stands next to it is a blank, a
sign or a parenthesis and never carries a token on; and these tokens are a value of the grammar.
-/

namespace Formula

/-- The token of an operator. -/
def Operator.token : Operator → Token
  | sum => .sumOp '+'
  | difference => .sumOp '-'
  | product => .prodOp '*'
  | quotient => .prodOp '/'
  | power => .powOp

namespace Expr

/-- A formula whose text can be read back: names are made of letters, and constants are finite and
have no sign. -/
def Writable : Expr → Prop
  | constant x => x.isFinite ∧ Number.isNegative x = false
  | var name => name ≠ "" ∧ ∀ c ∈ name.toList, c.isAlpha
  | binary _ l r => l.Writable ∧ r.Writable

/-- How many operations a formula has. -/
def operations : Expr → Nat
  | constant _ | var _ => 0
  | binary _ l r => l.operations + r.operations + 1

/-- How many power phrases are nested in each other in the text of a formula. The right operand of
a power lies in one more than the left one. -/
def nesting : Expr → Nat
  | constant _ | var _ => 1
  | binary .power l r => 1 + max l.nesting (1 + r.nesting)
  | binary _ l r => 1 + max l.nesting r.nesting

/-- The tokens in the text of a formula. -/
def tokens : Expr → List Token
  | constant x => [.number (constant x)]
  | var name => [.name (var name)]
  | binary op l r => .openParen :: (l.tokens ++ op.token :: r.tokens ++ [.closeParen])

end Expr

/-- No name and no number goes on in the characters that follow. -/
def Apart (rest : List Char) : Prop := ∀ c ∈ rest.head?, ¬ c.isDigit ∧ ¬ c.isAlpha

/-- The text is scanned as the tokens wherever nothing carries it on. -/
def Scans (text : String) (ts : List Token) : Prop :=
  ∀ ⦃rest : List Char⦄, Apart rest → ∀ p, ∃ q,
    Scanner.tokens ⟨text.toList ++ rest, p⟩ = ts.map .ok ++ Scanner.tokens ⟨rest, q⟩

theorem Expr.ofText_of_tokens {text : String} {ts : List Token}
    (h : (Scanner.ofText text).tokens = ts.map .ok) :
    ofText text = (Phrase.whole.feed ts).map Prod.fst := by
  rw [ofText_eq, h]
  exact ofTokens_map_ok ts

theorem Scans.ofText_eq {text : String} {ts : List Token} (h : Scans text ts) :
    Expr.ofText text = (Phrase.whole.feed ts).map Prod.fst := by
  have hapart : Apart [] := by simp [Apart]
  obtain ⟨q, htokens⟩ := h hapart 0
  rw [Scanner.tokens_nil, List.append_nil, List.append_nil] at htokens
  exact Expr.ofText_of_tokens htokens

theorem Token.Spells.head_ne_star {t : Token} {us rest : List Char} (h : t.Spells us rest)
    (ht : t ≠ .prodOp '*') (more : List Char) : (us ++ more).head? ≠ some '*' := by
  obtain ⟨c, us, rfl⟩ := List.exists_cons_of_ne_nil h.ne_nil
  rintro ⟨⟩
  have hscan := h.scan
  rw [Token.scan_star] at hscan
  change (if _ then _ else _) = _ at hscan
  split at hscan
  · contradiction
  · exact ht (Prod.mk.inj (Except.ok.inj hscan)).1.symm

/-- The text is scanned as the token wherever no star follows. -/
def ScansSign (sign : String) (t : Token) : Prop :=
  ∀ ⦃rest : List Char⦄, rest.head? ≠ some '*' → ∀ p, ∃ q,
    Scanner.tokens ⟨sign.toList ++ rest, p⟩ = .ok t :: Scanner.tokens ⟨rest, q⟩

/-- The text between two operands is the token of the operator among blanks. -/
theorem Operator.between_spells (op : Operator) {rest : List Char}
    (hstar : rest.head? ≠ some '*') :
    ∃ before us after, op.between.toList = before ++ (us ++ after) ∧
      (∀ b ∈ before, isBlank b) ∧ (∀ b ∈ after, isBlank b) ∧
      op.token.Spells us (after ++ rest) := by
  cases op with
  | sum => exact ⟨[' '], ['+'], [' '], rfl, by simp [isBlank], by simp [isBlank], rfl, .inl rfl⟩
  | difference =>
      exact ⟨[' '], ['-'], [' '], rfl, by simp [isBlank], by simp [isBlank], rfl, .inr rfl⟩
  | product => exact ⟨[], ['*'], [], rfl, by simp, by simp, rfl, .inl ⟨rfl, hstar⟩⟩
  | quotient => exact ⟨[], ['/'], [], rfl, by simp, by simp, rfl, .inr rfl⟩
  | power => exact ⟨[], ['^'], [], rfl, by simp, by simp, rfl⟩

theorem Operator.scansSign_between (op : Operator) : ScansSign op.between op.token := by
  intro rest hstar p
  obtain ⟨before, us, after, hbetween, hbefore, hafter, hop⟩ := op.between_spells hstar
  refine ⟨p + width before + width us + width after, ?_⟩
  rw [hbetween, List.append_assoc, List.append_assoc, Scanner.tokens_spells hbefore hop,
    Scanner.tokens_blanks hafter]

theorem Operator.apart_between (op : Operator) (rest : List Char) :
    Apart (op.between.toList ++ rest) := by
  cases op <;> simp [Apart, between, Char.isDigit]

namespace Scans
variable {text text' sign : String} {ts us : List Token} {t : Token}

theorem parens (h : Scans text ts) :
    Scans ("(" ++ text ++ ")") (.openParen :: (ts ++ [.closeParen])) := by
  intro rest hrest p
  have hopen (more : List Char) : Token.openParen.Spells ['('] more := rfl
  have hclose (more : List Char) : Token.closeParen.Spells [')'] more := rfl
  have hapart : Apart (')' :: rest) := by simp [Apart, Char.isDigit]
  have hfirst := Scanner.tokens_spells_first (hopen (text.toList ++ (')' :: rest))) p
  obtain ⟨q, hinner⟩ := h hapart (p + width ['('])
  have hlast := Scanner.tokens_spells_first (hclose rest) q
  refine ⟨q + width [')'], ?_⟩
  rw [List.singleton_append] at hfirst hlast
  have htext : ("(" ++ text ++ ")").toList ++ rest =
      '(' :: (text.toList ++ (')' :: rest)) := by simp
  rw [htext, hfirst, hinner, hlast]
  simp

/-- Two texts are scanned one after the other with a sign between them. -/
theorem joined (h : Scans text ts) (hsign : ScansSign sign t) (h' : Scans text' us)
    (hapart : ∀ rest, Apart (sign.toList ++ rest))
    (hstar : ∀ rest, (text'.toList ++ rest).head? ≠ some '*') :
    Scans (text ++ sign ++ text') (ts ++ t :: us) := by
  intro rest hrest p
  obtain ⟨q, hleft⟩ := h (hapart (text'.toList ++ rest)) p
  obtain ⟨q', hmiddle⟩ := hsign (hstar rest) q
  obtain ⟨q'', hright⟩ := h' hrest q'
  have htext : (text ++ sign ++ text').toList ++ rest =
      text.toList ++ (sign.toList ++ (text'.toList ++ rest)) := by simp
  refine ⟨q'', ?_⟩
  rw [htext, hleft, hmiddle, hright]
  simp

end Scans

namespace Expr

theorem name_spells {name : String} (h : (var name).Writable) {rest : List Char}
    (hrest : Apart rest) : (Token.name (var name)).Spells name.toList rest :=
  ⟨by rw [String.ofList_toList], by simpa using h.1, h.2, fun c hc => (hrest c hc).2⟩

theorem number_spells {x : Float} (h : (constant x).Writable) {rest : List Char}
    (hrest : Apart rest) : (Token.number (constant x)).Spells (constant x).text.toList rest :=
  Number.pointedText_spells h.1 h.2 fun c hc => (hrest c hc).1

theorem text_head_ne_star {e : Expr} (h : e.Writable) (rest : List Char) :
    (e.text.toList ++ rest).head? ≠ some '*' := by
  have hnil : Apart [] := by simp [Apart]
  cases e with
  | constant x => exact (number_spells h hnil).head_ne_star (by simp) rest
  | var name => exact (name_spells h hnil).head_ne_star (by simp) rest
  | binary op l r => simp [text]

/-- An operation in parentheses is scanned as its operands are, with its sign between them. -/
theorem scans_binary {op : Operator} {l r : Expr} {ts us : List Token} (hl : Scans l.text ts)
    (hr : Scans r.text us) (hstar : ∀ rest, (r.text.toList ++ rest).head? ≠ some '*') :
    Scans (binary op l r).text (.openParen :: (ts ++ op.token :: us ++ [.closeParen])) := by
  have hinner := (hl.joined op.scansSign_between hr op.apart_between hstar).parens
  rwa [← String.append_assoc, ← String.append_assoc] at hinner

theorem scans_text {e : Expr} (h : e.Writable) : Scans e.text e.tokens := by
  induction e with
  | constant x =>
      intro rest hrest p
      exact ⟨_, Scanner.tokens_spells_first (number_spells h hrest) p⟩
  | var name =>
      intro rest hrest p
      exact ⟨_, Scanner.tokens_spells_first (name_spells h hrest) p⟩
  | binary op l r ihl ihr => exact scans_binary (ihl h.1) (ihr h.2) (text_head_ne_star h.2)

/-- Two power phrases are joined by any operation but a power. -/
theorem derives_joined {op : Operator} (hop : op ≠ .power) {ts us : List Token} {a b : Expr}
    {d d' k k' : Nat} (h : Derives .power ts a d k) (h' : Derives .power us b d' k') :
    Derives .sum (ts ++ op.token :: us) (binary op a b) (max d d') (k + k' + 1) := by
  cases op with
  | sum => exact .sum_pair (.inl rfl) h h'
  | difference => exact .sum_pair (.inr rfl) h h'
  | product => exact .product_pair (.inl rfl) h h'
  | quotient => exact .product_pair (.inr rfl) h h'
  | power => contradiction

theorem nesting_joined {op : Operator} (hop : op ≠ .power) (l r : Expr) :
    (binary op l r).nesting = 1 + max l.nesting r.nesting := by
  cases op with
  | power => contradiction
  | _ => rfl

theorem derives_tokens (e : Expr) :
    ∃ d, d + 1 = e.nesting ∧ Derives .value e.tokens e d e.operations := by
  induction e with
  | constant x => exact ⟨0, rfl, .number⟩
  | var name => exact ⟨0, rfl, .name⟩
  | binary op l r ihl ihr =>
      obtain ⟨d, hd, hl⟩ := ihl
      obtain ⟨d', hd', hr⟩ := ihr
      by_cases hop : op = .power
      · subst hop
        have hpower : Derives .power _ _ _ _ := .plain (.raised hl hr.power_of_value)
        exact ⟨_, by simp only [nesting]; omega, .group hpower.sum_of_power⟩
      · refine ⟨max l.nesting r.nesting, ?_, ?_⟩
        · rw [nesting_joined hop, Nat.add_comm]
        · have hjoined := derives_joined hop hl.power_of_value hr.power_of_value
          rw [hd, hd'] at hjoined
          exact .group hjoined

theorem ofText_text_eq {e : Expr} (h : e.Writable) :
    ofText e.text = (Phrase.whole.feed e.tokens).map Prod.fst :=
  (scans_text h).ofText_eq

/-- The text of a formula is read back as the formula if it keeps the limits, and otherwise fails
at one of them. -/
theorem ofText_text (e : Expr) (h : e.Writable) :
    (e.nesting ≤ maxNesting ∧ e.operations ≤ maxOperations → ofText e.text = .ok e) ∧
    (maxNesting < e.nesting ∨ maxOperations < e.operations →
      ofText e.text = .error (.tooDeeplyNested maxNesting) ∨
        ofText e.text = .error (.tooLong maxOperations)) := by
  obtain ⟨d, hd, hvalue⟩ := derives_tokens e
  have hsum : Derives .sum e.tokens e e.nesting e.operations := hd ▸ hvalue.sum_of_value
  rw [ofText_text_eq h]
  refine ⟨fun room => ?_, hsum.feed_whole_error⟩
  rw [hsum.feed_whole.1 room]
  rfl

/-- The constant 2.5 under `n` powers, each in the exponent of the one before. -/
def tower : Nat → Expr
  | 0 => constant (Float.ofBits 0x4004000000000000)
  | n + 1 => binary .power (var "x") (tower n)

theorem writable_tower (n : Nat) : (tower n).Writable := by
  induction n with
  | zero => exact ⟨by decide, by decide⟩
  | succ n ih => exact ⟨⟨by decide, List.all_eq_true.mp rfl⟩, ih⟩

theorem nesting_tower (n : Nat) : (tower n).nesting = 2 * n + 1 := by
  induction n with
  | zero => rfl
  | succ n ih =>
      rw [tower, nesting, ih, nesting]
      omega

theorem operations_tower (n : Nat) : (tower n).operations = n := by
  induction n with
  | zero => rfl
  | succ n ih =>
      rw [tower, operations, ih, operations]
      omega

/-- Of 31 powers the text is read back; 32 powers are nested too deeply. -/
theorem ofText_text_tower :
    (tower 31).Writable ∧ ofText (tower 31).text = .ok (tower 31) ∧
      (tower 32).Writable ∧ (ofText (tower 32).text = .error (.tooDeeplyNested maxNesting) ∨
        ofText (tower 32).text = .error (.tooLong maxOperations)) := by
  refine ⟨writable_tower 31, (ofText_text _ (writable_tower 31)).1 ?_, writable_tower 32,
    (ofText_text _ (writable_tower 32)).2 (.inl ?_)⟩
  · rw [nesting_tower, operations_tower]
    decide
  · rw [nesting_tower]
    decide

end Expr
end Formula
