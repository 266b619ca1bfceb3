import Formula.Phrase.Grammar

/-!
The grammar of formulas as a relation between tokens and trees, said without the phrases that
read it. Two numbers go with a derivation: how deep its tokens lie in power phrases and how many
operations it joins. The limits of a formula are bounds on these.
-/

namespace Formula

/-- The syntactic categories. `sums left` is the repeated part of a sum, whose operands are joined
one after the other to the formula `left`; `products left` is that of a product. -/
inductive Category where
  | sum
  | sums (left : Expr)
  | product
  | products (left : Expr)
  | power
  | exponent
  | value

/-- `Derives c ts e d k`: the tokens `ts` are a phrase of category `c` and mean `e`; the token of
them that lies deepest is inside `d` nested power phrases, and `k` operations are joined. -/
inductive Derives : Category → List Token → Expr → Nat → Nat → Prop
  | sum {ts us a e d d' k k'} (first : Derives .product ts a d k)
      (more : Derives (.sums a) us e d' k') :
      Derives .sum (ts ++ us) e (max d d') (k + k')
  | sumsDone {e} : Derives (.sums e) [] e 0 0
  | sumsNext {op ts us a b e d d' k k'} (sign : op = .sum ∨ op = .difference)
      (next : Derives .product ts b d k) (more : Derives (.sums (.binary op a b)) us e d' k') :
      Derives (.sums a) (.sumOp op.symbol :: (ts ++ us)) e (max d d') (k + 1 + k')
  | product {ts us a e d d' k k'} (first : Derives .power ts a d k)
      (more : Derives (.products a) us e d' k') :
      Derives .product (ts ++ us) e (max d d') (k + k')
  | productsDone {e} : Derives (.products e) [] e 0 0
  | productsNext {op ts us a b e d d' k k'} (sign : op = .product ∨ op = .quotient)
      (next : Derives .power ts b d k) (more : Derives (.products (.binary op a b)) us e d' k') :
      Derives (.products a) (.prodOp op.symbol :: (ts ++ us)) e (max d d') (k + 1 + k')
  | plain {ts e d k} (operand : Derives .exponent ts e d k) : Derives .power ts e (d + 1) k
  | plus {ts e d k} (operand : Derives .exponent ts e d k) :
      Derives .power (.sumOp '+' :: ts) e (d + 1) k
  | minus {ts e d k} (operand : Derives .exponent ts e d k) :
      Derives .power (.sumOp '-' :: ts) (.binary .difference (.constant 0.0) e) (d + 1) (k + 1)
  | base {ts e d k} (base : Derives .value ts e d k) : Derives .exponent ts e d k
  | raised {ts us a b d d' k k'} (base : Derives .value ts a d k)
      (power : Derives .power us b d' k') :
      Derives .exponent (ts ++ .powOp :: us) (.binary .power a b) (max d d') (k + k' + 1)
  | group {ts e d k} (inner : Derives .sum ts e d k) :
      Derives .value (.openParen :: (ts ++ [.closeParen])) e d k
  | name {e} : Derives .value [.name e] e 0 0
  | number {e} : Derives .value [.number e] e 0 0

/-- The tokens that a value begins with. -/
def Token.BeginsValue : Token → Prop
  | .openParen | .name _ | .number _ => True
  | _ => False

/-- A sign has a character that is written in formulas. -/
def Token.Ordinary : Token → Prop
  | .sumOp symbol => symbol = '+' ∨ symbol = '-'
  | .prodOp symbol => symbol = '*' ∨ symbol = '/'
  | _ => True

namespace Derives

theorem head_value {ts : List Token} {e : Expr} {d k : Nat} (h : Derives .value ts e d k) :
    ∃ t us, ts = t :: us ∧ t.BeginsValue := by
  cases h <;> exact ⟨_, _, rfl, trivial⟩

theorem head_exponent {ts : List Token} {e : Expr} {d k : Nat} (h : Derives .exponent ts e d k) :
    ∃ t us, ts = t :: us ∧ t.BeginsValue := by
  cases h with
  | base hv => exact hv.head_value
  | raised hv hp =>
      obtain ⟨t, us, rfl, ht⟩ := hv.head_value
      exact ⟨t, _, rfl, ht⟩

theorem head_power {ts : List Token} {e : Expr} {d k : Nat} (h : Derives .power ts e d k) :
    ∃ t us, ts = t :: us ∧ (t.BeginsValue ∨ ∃ symbol, t = .sumOp symbol) := by
  cases h with
  | plain he =>
      obtain ⟨t, us, rfl, ht⟩ := he.head_exponent
      exact ⟨t, us, rfl, .inl ht⟩
  | plus _ | minus _ => exact ⟨_, _, rfl, .inr ⟨_, rfl⟩⟩

theorem head_ne_prodOp {ts : List Token} {e : Expr} {d k : Nat} (h : Derives .power ts e d k)
    (rest : List Token) (symbol : Char) : (ts ++ rest).head? ≠ some (.prodOp symbol) := by
  obtain ⟨t, us, rfl, ht⟩ := h.head_power
  rintro ⟨⟩
  simp [Token.BeginsValue] at ht

theorem head_ne_sumOp {ts : List Token} {e : Expr} {d k : Nat} (h : Derives .exponent ts e d k)
    (rest : List Token) (symbol : Char) : (ts ++ rest).head? ≠ some (.sumOp symbol) := by
  obtain ⟨t, us, rfl, ht⟩ := h.head_exponent
  rintro ⟨⟩
  exact ht

theorem ne_nil {ts : List Token} {e : Expr} {d k : Nat} (h : Derives .sum ts e d k) :
    ts ≠ [] := by
  cases h with
  | sum first more =>
      cases first with
      | product first more =>
          obtain ⟨t, us, rfl, -⟩ := first.head_power
          simp

theorem power_of_value {ts : List Token} {e : Expr} {d k : Nat} (h : Derives .value ts e d k) :
    Derives .power ts e (d + 1) k :=
  .plain (.base h)

theorem product_of_power {ts : List Token} {e : Expr} {d k : Nat} (h : Derives .power ts e d k) :
    Derives .product ts e d k := by
  simpa using Derives.product h .productsDone

theorem sum_of_product {ts : List Token} {e : Expr} {d k : Nat} (h : Derives .product ts e d k) :
    Derives .sum ts e d k := by
  simpa using Derives.sum h .sumsDone

theorem sum_of_power {ts : List Token} {e : Expr} {d k : Nat} (h : Derives .power ts e d k) :
    Derives .sum ts e d k :=
  h.product_of_power.sum_of_product

theorem sum_of_value {ts : List Token} {e : Expr} {d k : Nat} (h : Derives .value ts e d k) :
    Derives .sum ts e (d + 1) k :=
  h.power_of_value.sum_of_power

section Pair
variable {ts us : List Token} {a b : Expr} {op : Operator} {d d' k k' : Nat}

/-- A sum takes one more operand at its end. -/
theorem sums_snoc {left : Expr} (sign : op = .sum ∨ op = .difference)
    (h : Derives (.sums left) ts a d k) (h' : Derives .product us b d' k') :
    Derives (.sums left) (ts ++ .sumOp op.symbol :: us) (.binary op a b) (max d d')
      (k + k' + 1) := by
  generalize hc : Category.sums left = c at h
  induction h generalizing left with
  | sumsDone =>
      cases hc
      simpa using Derives.sumsNext sign h' .sumsDone
  | sumsNext sign' next more _ ih =>
      cases hc
      have hmore := Derives.sumsNext sign' next (ih rfl)
      simpa [Nat.max_assoc, Nat.add_assoc] using hmore
  | _ => cases hc

theorem sum_snoc (sign : op = .sum ∨ op = .difference) (h : Derives .sum ts a d k)
    (h' : Derives .product us b d' k') :
    Derives .sum (ts ++ .sumOp op.symbol :: us) (.binary op a b) (max d d') (k + k' + 1) := by
  cases h with
  | sum first more =>
      simpa [Nat.max_assoc, Nat.add_assoc] using Derives.sum first (sums_snoc sign more h')

theorem products_snoc {left : Expr} (sign : op = .product ∨ op = .quotient)
    (h : Derives (.products left) ts a d k) (h' : Derives .power us b d' k') :
    Derives (.products left) (ts ++ .prodOp op.symbol :: us) (.binary op a b) (max d d')
      (k + k' + 1) := by
  generalize hc : Category.products left = c at h
  induction h generalizing left with
  | productsDone =>
      cases hc
      simpa using Derives.productsNext sign h' .productsDone
  | productsNext sign' next more _ ih =>
      cases hc
      have hmore := Derives.productsNext sign' next (ih rfl)
      simpa [Nat.max_assoc, Nat.add_assoc] using hmore
  | _ => cases hc

theorem product_snoc (sign : op = .product ∨ op = .quotient) (h : Derives .product ts a d k)
    (h' : Derives .power us b d' k') :
    Derives .product (ts ++ .prodOp op.symbol :: us) (.binary op a b) (max d d')
      (k + k' + 1) := by
  cases h with
  | product first more =>
      simpa [Nat.max_assoc, Nat.add_assoc] using Derives.product first (products_snoc sign more h')

theorem sum_pair (sign : op = .sum ∨ op = .difference) (h : Derives .power ts a d k)
    (h' : Derives .power us b d' k') :
    Derives .sum (ts ++ .sumOp op.symbol :: us) (.binary op a b) (max d d') (k + k' + 1) :=
  h.sum_of_power.sum_snoc sign h'.product_of_power

theorem product_pair (sign : op = .product ∨ op = .quotient) (h : Derives .power ts a d k)
    (h' : Derives .power us b d' k') :
    Derives .sum (ts ++ .prodOp op.symbol :: us) (.binary op a b) (max d d') (k + k' + 1) :=
  (h.product_of_power.product_snoc sign h').sum_of_product

end Pair

end Derives
end Formula
