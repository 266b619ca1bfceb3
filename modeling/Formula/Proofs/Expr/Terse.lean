import Formula.Proofs.Expr.RoundTrip

/-!
Formulas with as few parentheses as their meaning allows. Operators have three levels; an operand
stands in parentheses only where it binds less closely than its place asks for. Sums and products
lean to the left, powers to the right. A text written so is read back as the formula that it was
written for, which is what the levels of the grammar are there for.
-/

namespace Formula

namespace Operator

/-- How closely an operator binds its operands. -/
def level : Operator → Nat
  | sum | difference => 1
  | product | quotient => 2
  | power => 3

/-- How closely the left operand has to bind to stand without parentheses. -/
def leftLevel : Operator → Nat
  | sum | difference => 1
  | product | quotient => 2
  | power => 4

def rightLevel : Operator → Nat
  | sum | difference => 2
  | product | quotient => 3
  | power => 3

end Operator

namespace Expr

def level : Expr → Nat
  | constant _ | var _ => 4
  | binary op _ _ => op.level

def height : Expr → Nat
  | constant _ | var _ => 0
  | binary _ l r => max l.height r.height + 1

/-- The text of an operand in a place of a level. -/
def placed (bound : Nat) (e : Expr) (text : String) : String :=
  if e.level < bound then "(" ++ text ++ ")" else text

/-- The formula with the fewest parentheses and without blanks: `5.0+x`. -/
def terse : Expr → String
  | constant value => Number.pointedText value
  | var name => name
  | binary op l r =>
    l.placed op.leftLevel l.terse ++ String.singleton op.symbol ++ r.placed op.rightLevel r.terse

def placedTokens (bound : Nat) (e : Expr) (ts : List Token) : List Token :=
  if e.level < bound then .openParen :: (ts ++ [.closeParen]) else ts

/-- The tokens of a formula with the fewest parentheses. -/
def terseTokens : Expr → List Token
  | constant value => [.number (constant value)]
  | var name => [.name (var name)]
  | binary op l r =>
    l.placedTokens op.leftLevel l.terseTokens ++
      op.token :: r.placedTokens op.rightLevel r.terseTokens

end Expr

namespace Category

/-- The phrases whose operations all have at least the level. -/
def ofLevel : Nat → Category
  | 0 | 1 => sum
  | 2 => product
  | 3 => power
  | _ => value

/-- A value lies in one power phrase less than the phrases around it. -/
def slack : Category → Nat
  | value => 1
  | _ => 0

end Category

open Category

namespace Derives
variable {ts : List Token} {e : Expr} {d k : Nat}

theorem relax_succ {m : Nat} (h : Derives (ofLevel (m + 1)) ts e d k) :
    ∃ d', Derives (ofLevel m) ts e d' k ∧ d' + (ofLevel m).slack = d + (ofLevel (m + 1)).slack := by
  match m, h with
  | 0, h => exact ⟨d, h, rfl⟩
  | 1, h => exact ⟨d, h.sum_of_product, rfl⟩
  | 2, h => exact ⟨d, h.product_of_power, rfl⟩
  | 3, h => exact ⟨d + 1, h.power_of_value, rfl⟩
  | _ + 4, h => exact ⟨d, h, rfl⟩

/-- What binds closely also stands where less is asked for. -/
theorem relax {m n : Nat} (h : Derives (ofLevel m) ts e d k) (hle : n ≤ m) :
    ∃ d', Derives (ofLevel n) ts e d' k ∧ d' + (ofLevel n).slack = d + (ofLevel m).slack := by
  induction hle generalizing d with
  | refl => exact ⟨d, h, rfl⟩
  | step _ ih =>
      obtain ⟨d', h', hd'⟩ := h.relax_succ
      obtain ⟨d'', h'', hd''⟩ := ih h'
      exact ⟨d'', h'', hd''.trans hd'⟩

theorem placed {bound : Nat} (hbound : bound ≤ 4) (h : Derives (ofLevel e.level) ts e d k) :
    ∃ d', Derives (ofLevel bound) (e.placedTokens bound ts) e d' k ∧
      d' + (ofLevel bound).slack ≤ d + (ofLevel e.level).slack + 1 := by
  rw [Expr.placedTokens]
  split
  -- in parentheses any formula is a value, one power phrase deeper
  · obtain ⟨d', hsum, hd'⟩ := h.relax (Nat.zero_le _)
    have hgroup : Derives (ofLevel 4) _ e d' k := .group hsum
    obtain ⟨d'', h'', hd''⟩ := hgroup.relax hbound
    have hinner : d' = d + (ofLevel e.level).slack := hd'
    have houter : d'' + (ofLevel bound).slack = d' + 1 := hd''
    exact ⟨d'', h'', by omega⟩
  · next hle =>
      obtain ⟨d', h', hd'⟩ := h.relax (Nat.le_of_not_lt hle)
      exact ⟨d', h', by omega⟩

theorem operation (op : Operator) {us : List Token} {b : Expr} {d' k' : Nat}
    (h : Derives (ofLevel op.leftLevel) ts e d k)
    (h' : Derives (ofLevel op.rightLevel) us b d' k') :
    ∃ n, Derives (ofLevel op.level) (ts ++ op.token :: us) (.binary op e b) n (k + k' + 1) ∧
      n ≤ max (d + (ofLevel op.leftLevel).slack) (d' + (ofLevel op.rightLevel).slack) + 1 := by
  cases op with
  | sum => exact ⟨_, h.sum_snoc (.inl rfl) h', Nat.le_succ _⟩
  | difference => exact ⟨_, h.sum_snoc (.inr rfl) h', Nat.le_succ _⟩
  | product => exact ⟨_, h.product_snoc (.inl rfl) h', Nat.le_succ _⟩
  | quotient => exact ⟨_, h.product_snoc (.inr rfl) h', Nat.le_succ _⟩
  | power =>
      have hle : max d d' + 1 ≤ max (d + 1) d' + 1 := by omega
      exact ⟨_, .plain (.raised h h'), hle⟩

end Derives

namespace Expr

/-- The tokens mean the formula. A level of the tree takes at most two power phrases: one for its
power, and one for the parentheses in its exponent. -/
theorem derives_terseTokens (e : Expr) :
    ∃ d, Derives (ofLevel e.level) e.terseTokens e d e.operations ∧
      d + (ofLevel e.level).slack ≤ 2 * e.height + 1 := by
  induction e with
  | constant x => exact ⟨0, .number, Nat.le_refl 1⟩
  | var name => exact ⟨0, .name, Nat.le_refl 1⟩
  | binary op l r ihl ihr =>
      obtain ⟨d, hl, hd⟩ := ihl
      obtain ⟨d', hr, hd'⟩ := ihr
      have hleft : op.leftLevel ≤ 4 := by cases op <;> decide
      have hright : op.rightLevel ≤ 4 := by cases op <;> decide
      have hslack : (ofLevel op.level).slack = 0 := by cases op <;> rfl
      obtain ⟨m, hl, hm⟩ := hl.placed hleft
      obtain ⟨m', hr, hm'⟩ := hr.placed hright
      obtain ⟨n, h, hn⟩ := hl.operation op hr
      refine ⟨n, h, ?_⟩
      simp only [level, height]
      omega

theorem scansSign_symbol (op : Operator) : ScansSign (String.singleton op.symbol) op.token := by
  intro rest hstar p
  have hspells : op.token.Spells [op.symbol] rest := by
    cases op with
    | sum => exact ⟨rfl, .inl rfl⟩
    | difference => exact ⟨rfl, .inr rfl⟩
    | product => exact ⟨rfl, .inl ⟨rfl, hstar⟩⟩
    | quotient => exact ⟨rfl, .inr rfl⟩
    | power => rfl
  rw [String.toList_singleton]
  exact ⟨_, Scanner.tokens_spells_first hspells p⟩

theorem apart_symbol (op : Operator) (rest : List Char) :
    Apart ((String.singleton op.symbol).toList ++ rest) := by
  cases op <;> simp [Apart, Operator.symbol, Char.isDigit]

theorem placed_head_ne_star {text : String} (bound : Nat) (e : Expr) (rest : List Char)
    (h : (text.toList ++ rest).head? ≠ some '*') :
    ((e.placed bound text).toList ++ rest).head? ≠ some '*' := by
  rw [placed]
  split
  · simp
  · exact h

theorem terse_head_ne_star {e : Expr} (h : e.Writable) (rest : List Char) :
    (e.terse.toList ++ rest).head? ≠ some '*' := by
  induction e generalizing rest with
  | constant x | var name => exact text_head_ne_star h rest
  | binary op l r ihl ihr =>
      rw [terse, String.toList_append, String.toList_append, List.append_assoc, List.append_assoc]
      exact placed_head_ne_star _ l _ (ihl h.1 _)

theorem scans_placed {text : String} {ts : List Token} (bound : Nat) (e : Expr)
    (h : Scans text ts) : Scans (e.placed bound text) (e.placedTokens bound ts) := by
  rw [placed, placedTokens]
  split
  · exact h.parens
  · exact h

theorem scans_terse {e : Expr} (h : e.Writable) : Scans e.terse e.terseTokens := by
  induction e with
  | constant x => exact scans_text (e := constant x) h
  | var name => exact scans_text (e := var name) h
  | binary op l r ihl ihr =>
      have hleft := scans_placed op.leftLevel l (ihl h.1)
      have hright := scans_placed op.rightLevel r (ihr h.2)
      refine hleft.joined (scansSign_symbol op) hright (apart_symbol op) fun rest => ?_
      exact placed_head_ne_star op.rightLevel r rest (terse_head_ne_star h.2 rest)

theorem ofText_terse (e : Expr) (h : e.Writable) :
    (ofText e.terse = .ok e ∨ ofText e.terse = .error (.tooDeeplyNested maxNesting) ∨
      ofText e.terse = .error (.tooLong maxOperations)) ∧
    (e.operations ≤ 1000 → e.height ≤ 31 → ofText e.terse = .ok e) := by
  obtain ⟨d, hterse, hd⟩ := derives_terseTokens e
  obtain ⟨d', hsum, hd'⟩ := hterse.relax (Nat.zero_le _)
  have hdepth : d' = d + (ofLevel e.level).slack := hd'
  have hsum : Derives .sum e.terseTokens e d' e.operations := hsum
  rw [(scans_terse h).ofText_eq]
  have hok (room : d' ≤ maxNesting ∧ e.operations ≤ maxOperations) :
      (Phrase.whole.feed e.terseTokens).map Prod.fst = .ok e := by
    rw [hsum.feed_whole.1 room]
    rfl
  refine ⟨?_, fun hoperations hheight => hok ⟨?_, hoperations⟩⟩
  · by_cases room : d' ≤ maxNesting ∧ e.operations ≤ maxOperations
    · exact .inl (hok room)
    · exact .inr (hsum.feed_whole_error (by omega))
  · rw [maxNesting]
    omega

/-- A power of a difference, where both sides have parentheses, as a factor that needs none. -/
def mixed : Expr :=
  binary .quotient
    (binary .power (binary .difference (var "a") (binary .sum (var "b") (var "c")))
      (binary .power (var "x") (constant (Float.ofBits 0x4004000000000000))))
    (binary .product (var "y") (var "z"))

theorem terse_mixed : mixed.terse = "(a-(b+c))^x^2.5/(y*z)" := by
  decide +kernel

theorem writable_mixed : mixed.Writable := by
  have hname (c : Char) (h : c.isAlpha) : (var (String.singleton c)).Writable :=
    ⟨by simp, by simpa⟩
  have hconstant : (constant (Float.ofBits 0x4004000000000000)).Writable := ⟨by decide, by decide⟩
  exact ⟨⟨⟨hname 'a' rfl, hname 'b' rfl, hname 'c' rfl⟩, hname 'x' rfl, hconstant⟩, hname 'y' rfl,
    hname 'z' rfl⟩

theorem ofText_terse_mixed :
    mixed.Writable ∧ mixed.operations ≤ 1000 ∧ mixed.height ≤ 31 ∧
      ofText "(a-(b+c))^x^2.5/(y*z)" = .ok mixed :=
  ⟨writable_mixed, by decide, by decide,
    terse_mixed ▸ (ofText_terse mixed writable_mixed).2 (by decide) (by decide)⟩

end Expr
end Formula
