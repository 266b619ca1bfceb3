import Formula.Proofs.Phrase.Derivation
import Formula.Proofs.Phrase.Standing

/-!
What a phrase reads is derived by the grammar. A phrase that answers has taken a first part of its
tokens, which is a phrase of its category; the part lies no deeper than the levels allow and the
operations that were joined stay within their limit. No message is given on the way.
-/

namespace Formula
namespace Phrase
open Standing

/-- Whatever `p` answers, it has read off tokens that the relation `D` admits for that answer. -/
def Finds (p : Phrase Expr) (levels : Nat) (D : List Token → Expr → Nat → Nat → Prop) : Prop :=
  ∀ ⦃ts n e s⦄, (∀ t ∈ ts, t.Ordinary) → p.read (before ts n) = .ok (e, s) →
    ∃ us rest d k, ts = us ++ rest ∧ s = before rest (n + k) ∧ D us e d k ∧ d ≤ levels ∧
      (n ≤ maxOperations → n + k ≤ maxOperations)

/-- Two phrases in a row, where the tokens of both together are admitted by `S`. -/
theorem Finds.bind {p : Phrase Expr} {q : Expr → Phrase Expr} {levels : Nat}
    {D S : List Token → Expr → Nat → Nat → Prop} {R : Expr → List Token → Expr → Nat → Nat → Prop}
    (h : Finds p levels D) (h' : ∀ a, Finds (q a) levels (R a))
    (join : ∀ ⦃us vs a e d d' k k'⦄, D us a d k → R a vs e d' k' →
      S (us ++ vs) e (max d d') (k + k')) : Finds (p >>= q) levels S := by
  intro ts n e s hts hread
  obtain ⟨a, u, ha, hread⟩ := read_bind_ok hread
  obtain ⟨us, vs, d, k, rfl, rfl, hD, hd, hk⟩ := h hts ha
  obtain ⟨vs, rest, d', k', rfl, rfl, hR, hd', hk'⟩ := h' a (fun t ht => hts t (by simp [ht])) hread
  exact ⟨us ++ vs, rest, max d d', k + k', by simp, by congr 1; omega, join hD hR, by omega,
    by omega⟩

theorem read_count_ok {ts : List Token} {n : Nat} {s : Standing}
    (h : count.read (before ts n) = .ok ((), s)) : n < maxOperations ∧ s = before ts (n + 1) := by
  rw [read_count] at h
  split at h
  · next hn => exact ⟨hn, by simpa using h.symm⟩
  · contradiction

theorem read_join_ok {op : Operator} {l r e : Expr} {ts : List Token} {n : Nat} {s : Standing}
    (h : (join op l r).read (before ts n) = .ok (e, s)) :
    n < maxOperations ∧ e = .binary op l r ∧ s = before ts (n + 1) := by
  rw [read_join] at h
  split at h
  · next hn =>
      obtain ⟨rfl, rfl⟩ : .binary op l r = e ∧ before ts (n + 1) = s := by simpa using h
      exact ⟨hn, rfl, rfl⟩
  · contradiction

theorem read_operator_ok {symbol : Char} {op : Operator} {s t : Standing}
    (h : (operator symbol).read s = .ok (op, t)) : Operator.ofSymbol symbol = .ok op ∧ t = s := by
  rw [operator] at h
  split at h
  · next op' ho =>
      obtain ⟨rfl, rfl⟩ : op' = op ∧ s = t := by simpa using h
      exact ⟨ho, rfl⟩
  · contradiction

section Chain
variable {sign : Token → Option Char} {operand : Char → Phrase Expr} {levels : Nat}
variable {D : List Token → Expr → Nat → Nat → Prop}
variable {R : Expr → List Token → Expr → Nat → Nat → Prop}

/-- A chain reads what `R` admits if `R` may end at once and each round extends it at the front. -/
theorem finds_chain (done : ∀ e, R e [] e 0 0)
    (next : ∀ ⦃t symbol op a b e us vs d d' k k'⦄, sign t = some symbol → t.Ordinary →
      Operator.ofSymbol symbol = .ok op → D us b d k → R (.binary op a b) vs e d' k' →
      R a (t :: (us ++ vs)) e (max d d') (k + 1 + k'))
    (found : ∀ symbol, Finds (operand symbol) levels D) (rounds : Nat) (left : Expr) :
    Finds (chain sign operand rounds left) levels (R left) := by
  intro ts n e s hts h
  induction rounds generalizing left ts n with
  | zero => contradiction
  | succ rounds ih =>
      rw [chain, read_current_bind] at h
      cases ht : ts.head?.bind sign with
      | none =>
          simp only [ht, read_pure, Except.ok.injEq, Prod.mk.injEq] at h
          obtain ⟨rfl, rfl⟩ := h
          exact ⟨[], ts, 0, 0, rfl, rfl, done _, Nat.zero_le _, id⟩
      | some symbol =>
          obtain ⟨t, hhead, hsign⟩ := Option.bind_eq_some_iff.mp ht
          obtain ⟨ts, rfl⟩ := List.head?_eq_some_iff.mp hhead
          simp only [ht, read_discard_bind, List.tail_cons] at h
          obtain ⟨b, u, hb, h⟩ := read_bind_ok h
          obtain ⟨us, vs, d, k, rfl, rfl, hD, hd, hk⟩ :=
            found symbol (fun t ht => hts t (List.mem_cons_of_mem _ ht)) hb
          obtain ⟨op, u, ho, h⟩ := read_bind_ok h
          obtain ⟨hop, rfl⟩ := read_operator_ok ho
          obtain ⟨ab, u, hj, h⟩ := read_bind_ok h
          obtain ⟨hlt, rfl, rfl⟩ := read_join_ok hj
          obtain ⟨vs, rest, d', k', rfl, rfl, hR, hd', hk'⟩ :=
            ih _ (fun t ht => hts t (by simp [ht])) h
          refine ⟨t :: (us ++ vs), rest, max d d', k + 1 + k', by simp, by congr 1; omega,
            next hsign (hts t (by simp)) hop hD hR, by omega, fun hn => ?_⟩
          have := hk' (by omega)
          omega

end Chain

theorem prodSign_ordinary {t : Token} {symbol : Char} {op : Operator}
    (hsign : prodSign t = some symbol) (ht : t.Ordinary) (hop : Operator.ofSymbol symbol = .ok op) :
    t = .prodOp op.symbol ∧ (op = .product ∨ op = .quotient) := by
  cases t with
  | prodOp c =>
      obtain rfl : c = symbol := by simpa [prodSign] using hsign
      obtain rfl | rfl := ht
      all_goals
        obtain rfl := Except.ok.inj hop
        exact ⟨rfl, by simp⟩
  | _ => contradiction

theorem sumSign_ordinary {t : Token} {symbol : Char} {op : Operator}
    (hsign : sumSign t = some symbol) (ht : t.Ordinary) (hop : Operator.ofSymbol symbol = .ok op) :
    t = .sumOp op.symbol ∧ (op = .sum ∨ op = .difference) := by
  cases t with
  | sumOp c =>
      obtain rfl : c = symbol := by simpa [sumSign] using hsign
      obtain rfl | rfl := ht
      all_goals
        obtain rfl := Except.ok.inj hop
        exact ⟨rfl, by simp⟩
  | _ => contradiction

section Within
variable {p : Phrase Expr} {levels : Nat} (found : Finds p levels (Derives .power))
include found

theorem finds_factor (symbol : Char) : Finds (factor p symbol) levels (Derives .power) := by
  intro ts n e s hts h
  rw [factor, read_current_bind] at h
  split at h
  · contradiction
  · exact found hts h

theorem finds_product : Finds (product p) levels (Derives .product) := by
  have tail (a : Expr) : Finds (chain prodSign (factor p) (maxOperations + 1) a) levels
      (Derives (.products a)) := by
    refine finds_chain (R := fun a => Derives (.products a)) (fun _ => .productsDone) ?_
      (finds_factor found) _ _
    intro t symbol op a b e us vs d d' k k' hsign ht hop hD hR
    obtain ⟨rfl, hop⟩ := prodSign_ordinary hsign ht hop
    exact .productsNext hop hD hR
  exact found.bind tail fun _ _ _ _ _ _ _ _ hD hR => .product hD hR

theorem finds_sum : Finds (sum p) levels (Derives .sum) := by
  have tail (a : Expr) : Finds (chain sumSign (fun _ => product p) (maxOperations + 1) a) levels
      (Derives (.sums a)) := by
    refine finds_chain (R := fun a => Derives (.sums a)) (fun _ => .sumsDone) ?_
      (fun _ => finds_product found) _ _
    intro t symbol op a b e us vs d d' k k' hsign ht hop hD hR
    obtain ⟨rfl, hop⟩ := sumSign_ordinary hsign ht hop
    exact .sumsNext hop hD hR
  exact (finds_product found).bind tail fun _ _ _ _ _ _ _ _ hD hR => .sum hD hR

/-- A group that is read ends in view of its closing parenthesis. -/
theorem finds_group {ts : List Token} {n : Nat} {e : Expr} {s : Standing}
    (hts : ∀ t ∈ ts, t.Ordinary) (h : (group p).read (before ts n) = .ok (e, s)) :
    ∃ us rest d k, ts = us ++ .closeParen :: rest ∧ s = before (.closeParen :: rest) (n + k) ∧
      Derives .sum us e d k ∧ d ≤ levels ∧ (n ≤ maxOperations → n + k ≤ maxOperations) := by
  obtain ⟨a, u, ha, h⟩ := read_bind_ok h
  obtain ⟨us, vs, d, k, rfl, rfl, hD, hd, hk⟩ := finds_sum found hts ha
  rw [read_current_bind] at h
  split at h
  · next hc =>
      obtain ⟨rest, rfl⟩ := List.head?_eq_some_iff.mp hc
      obtain ⟨rfl, rfl⟩ : a = e ∧ _ = s := by simpa using h
      exact ⟨us, rest, d, k, rfl, rfl, hD, hd, hk⟩
  · contradiction
  · contradiction

omit found in
theorem read_lone_ok {node e : Expr} {message : Expr → ParseError} {ts : List Token} {n : Nat}
    {s : Standing}
    (h : (do match ← adjacent p with
          | some right => refuse (message right)
          | none => return node : Phrase Expr).read (before ts n) = .ok (e, s)) :
    e = node ∧ s = before ts n := by
  obtain ⟨right, u, hr, h⟩ := read_bind_ok h
  cases right with
  | some right => contradiction
  | none =>
      obtain ⟨rfl, rfl⟩ : node = e ∧ u = s := by simpa using h
      rw [adjacent, read_current_bind] at hr
      split at hr
      · obtain ⟨a, v, -, hr⟩ := read_bind_ok (p := discard advance) hr
        obtain ⟨b, w, -, hr⟩ := read_bind_ok hr
        simp at hr
      · exact ⟨rfl, by simpa using hr.symm⟩

theorem finds_value : Finds (value p) levels (Derives .value) := by
  intro ts n e s hts h
  rw [value, read_advance_bind] at h
  split at h
  · contradiction
  · next hc =>
      obtain ⟨ts, rfl⟩ := List.head?_eq_some_iff.mp hc
      obtain ⟨a, u, ha, h⟩ := read_bind_ok h
      obtain ⟨us, rest, d, k, hsplit, rfl, hD, hd, hk⟩ :=
        finds_group found (fun t ht => hts t (List.mem_cons_of_mem _ ht)) ha
      rw [read_discard_bind] at h
      obtain ⟨rfl, rfl⟩ := read_lone_ok h
      exact ⟨.openParen :: (us ++ [.closeParen]), rest, d, k, by simp [hsplit], rfl,
        .group hD, hd, hk⟩
  · next node hc =>
      obtain ⟨ts, rfl⟩ := List.head?_eq_some_iff.mp hc
      obtain ⟨rfl, rfl⟩ := read_lone_ok h
      exact ⟨[.name e], ts, 0, 0, rfl, rfl, .name, Nat.zero_le _, id⟩
  · next node hc =>
      obtain ⟨ts, rfl⟩ := List.head?_eq_some_iff.mp hc
      obtain ⟨rfl, rfl⟩ := read_lone_ok h
      exact ⟨[.number e], ts, 0, 0, rfl, rfl, .number, Nat.zero_le _, id⟩
  · rw [read_current_bind] at h
    split at h <;> contradiction
  · contradiction

theorem finds_exponent : Finds (exponent p) levels (Derives .exponent) := by
  intro ts n e s hts h
  obtain ⟨a, u, ha, h⟩ := read_bind_ok h
  obtain ⟨us, rest, d, k, rfl, rfl, hD, hd, hk⟩ := finds_value found hts ha
  rw [read_current_bind] at h
  split at h
  · next hc =>
      obtain ⟨rest, rfl⟩ := List.head?_eq_some_iff.mp hc
      rw [read_discard_bind] at h
      obtain ⟨b, v, hb, h⟩ := read_bind_ok h
      obtain ⟨vs, rest, d', k', hsplit, rfl, hD', hd', hk'⟩ :=
        found (fun t ht => hts t (by simp_all)) hb
      obtain ⟨hlt, rfl, rfl⟩ := read_join_ok h
      exact ⟨us ++ .powOp :: vs, rest, max d d', k + k' + 1, by simpa using hsplit,
        by congr 1; omega, .raised hD hD', by omega, by omega⟩
  · obtain ⟨rfl, rfl⟩ : a = e ∧ _ = s := by simpa using h
    exact ⟨us, rest, d, k, rfl, rfl, .base hD, hd, hk⟩

theorem finds_signed : Finds (signed p) (levels + 1) (Derives .power) := by
  intro ts n e s hts h
  rw [signed, read_current_bind] at h
  split at h
  · next symbol hc =>
      obtain ⟨ts, rfl⟩ := List.head?_eq_some_iff.mp hc
      rw [read_discard_bind] at h
      obtain ⟨a, u, ha, hsign⟩ := read_bind_ok h
      obtain ⟨us, rest, d, k, rfl, rfl, hD, hd, hk⟩ :=
        finds_exponent found (fun t ht => hts t (List.mem_cons_of_mem _ ht)) ha
      split at hsign
      · next hsymbol =>
          subst hsymbol
          obtain ⟨⟨⟩, v, hcount, hsign⟩ := read_bind_ok hsign
          obtain ⟨hlt, rfl⟩ := read_count_ok hcount
          obtain ⟨rfl, rfl⟩ : a.negate = e ∧ _ = s := by simpa using hsign
          exact ⟨.sumOp '-' :: us, rest, d + 1, k + 1, rfl, rfl, .minus hD, by omega, by omega⟩
      · next hsymbol =>
          obtain rfl : symbol = '+' := (hts (.sumOp symbol) (by simp)).resolve_right hsymbol
          obtain ⟨rfl, rfl⟩ : a = e ∧ _ = s := by simpa using hsign
          exact ⟨.sumOp '+' :: us, rest, d + 1, k, rfl, rfl, .plus hD, by omega, hk⟩
  · obtain ⟨us, rest, d, k, rfl, rfl, hD, hd, hk⟩ := finds_exponent found hts h
    exact ⟨us, rest, d + 1, k, rfl, rfl, .plain hD, by omega, hk⟩

end Within

theorem finds_power (levels : Nat) : Finds (power levels) levels (Derives .power) := by
  induction levels with
  | zero => intro ts n e s _ h; contradiction
  | succ levels ih => exact finds_signed ih

end Phrase

/-- A list that is accepted is a sum, within both limits. -/
theorem derives_of_feed_whole {ts rest : List Token} {e : Expr} (hts : ∀ t ∈ ts, t.Ordinary)
    (h : Phrase.whole.feed ts = .ok (e, rest)) :
    ∃ d k, Derives .sum ts e d k ∧ d ≤ maxNesting ∧ k ≤ maxOperations := by
  by_cases hne : ts = []
  · subst hne
    contradiction
  · rw [Phrase.feed_whole ts hne] at h
    split at h
    · next a s hs =>
        obtain ⟨us, vs, d, k, rfl, rfl, hD, hd, hk⟩ :=
          Phrase.finds_sum (Phrase.finds_power maxNesting) hts hs
        cases vs with
        | nil =>
            obtain ⟨rfl, -⟩ : a = e ∧ _ := by simpa [Standing.before] using h
            exact ⟨d, k, by simpa using hD, hd, by simpa using hk (Nat.zero_le _)⟩
        | cons t vs => simp [Standing.before] at h
    · contradiction

end Formula
