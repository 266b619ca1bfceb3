import Formula.Proofs.Phrase.Derivation
import Formula.Proofs.Phrase.Standing

/-!
Whatever the grammar derives is read, as far as the limits go. A derived part is read in front of
any tokens that do not continue it, and the answer is its tree if there is room for its depth and
its operations. Where there is none, the reading fails at one of the two limits and nowhere else:
the messages about slips belong to tokens that no derivation has next to each other.
-/

namespace Formula

/-- The two errors of a formula that is sound but too large. -/
def ParseError.IsLimit (e : ParseError) : Prop :=
  e = .tooDeeplyNested maxNesting ∨ e = .tooLong maxOperations

/-- The answer is `x` where there is room for it, and the error of a limit where there is none. -/
def Bounded {β : Type} (room : Prop) (r : Except ParseError β) (x : β) : Prop :=
  (room → r = .ok x) ∧ (¬ room → ∃ e, e.IsLimit ∧ r = .error e)

/-- How large a phrase a token can carry on that stands behind it. -/
def Token.reach : Token → Nat
  | .openParen => 0
  | .powOp => 1
  | .prodOp _ => 2
  | .sumOp _ => 3
  | .closeParen | .name _ | .number _ => 4

namespace Category

def reach : Category → Nat
  | value => 0
  | exponent | power => 1
  | product | products _ => 2
  | sum | sums _ => 3

/-- The tokens that follow a phrase do not carry it on. -/
def Ends (c : Category) (rest : List Token) : Prop := ∀ t ∈ rest.head?, c.reach < t.reach

/-- The reader of a category; a repeated part is read in at most `rounds` rounds. -/
def phrase (levels rounds : Nat) : Category → Phrase Expr
  | sum => Phrase.sum (.power levels)
  | sums left => Phrase.chain Phrase.sumSign (fun _ => .product (.power levels)) rounds left
  | product => Phrase.product (.power levels)
  | products left => Phrase.chain Phrase.prodSign (Phrase.factor (.power levels)) rounds left
  | power => Phrase.power levels
  | exponent => Phrase.exponent (.power levels)
  | value => Phrase.value (.power levels)

theorem Ends.mono {c c' : Category} {rest : List Token} (h : c.Ends rest)
    (hle : c'.reach ≤ c.reach) : c'.Ends rest :=
  fun t ht => Nat.lt_of_le_of_lt hle (h t ht)

theorem ends_append_sums {a e : Expr} {us rest : List Token} {d k : Nat}
    (h : Derives (.sums a) us e d k) (hend : sum.Ends rest) : product.Ends (us ++ rest) := by
  cases h with
  | sumsDone => exact hend.mono (by decide)
  | sumsNext _ _ _ => simp [Ends, reach, Token.reach]

theorem ends_append_products {a e : Expr} {us rest : List Token} {d k : Nat}
    (h : Derives (.products a) us e d k) (hend : product.Ends rest) : power.Ends (us ++ rest) := by
  cases h with
  | productsDone => exact hend.mono (by decide)
  | productsNext _ _ _ => simp [Ends, reach, Token.reach]

theorem Ends.head_bind_sumSign {rest : List Token} (h : sum.Ends rest) :
    rest.head?.bind Phrase.sumSign = none := by
  cases hc : rest.head? with
  | none => rfl
  | some t =>
      have ht := h t hc
      cases t <;> simp_all [reach, Token.reach, Phrase.sumSign]

theorem Ends.head_bind_prodSign {rest : List Token} (h : product.Ends rest) :
    rest.head?.bind Phrase.prodSign = none := by
  cases hc : rest.head? with
  | none => rfl
  | some t =>
      have ht := h t hc
      cases t <;> simp_all [reach, Token.reach, Phrase.prodSign]

end Category

namespace Bounded

theorem congr {β : Type} {room room' : Prop} {r : Except ParseError β} {x : β}
    (h : Bounded room r x) (hiff : room ↔ room') : Bounded room' r x := by
  rwa [Bounded, ← hiff]

theorem of_ok {β : Type} {room : Prop} {r : Except ParseError β} {x : β} (h : r = .ok x)
    (hroom : room) : Bounded room r x :=
  ⟨fun _ => h, fun hn => absurd hroom hn⟩

theorem bind {α β : Type} {p : Phrase α} {f : α → Phrase β} {s t : Standing} {a : α}
    {x : β × Standing} {room room' : Prop} (h : Bounded room (p.read s) (a, t))
    (h' : room → Bounded room' ((f a).read t) x) : Bounded (room ∧ room') ((p >>= f).read s) x := by
  rw [Phrase.read_bind]
  by_cases hroom : room
  · rw [h.1 hroom]
    exact (h' hroom).congr (by simp [hroom])
  · obtain ⟨e, he, hr⟩ := h.2 hroom
    rw [hr]
    exact ⟨fun hn => absurd hn.1 hroom, fun _ => ⟨e, he, rfl⟩⟩

theorem bind_ok {α β : Type} {p : Phrase α} {f : α → Phrase β} {s t : Standing} {a : α}
    {x : β × Standing} {room : Prop} (h : Bounded room (p.read s) (a, t))
    (h' : (f a).read t = .ok x) : Bounded room ((p >>= f).read s) x :=
  (h.bind fun _ => of_ok h' trivial).congr (Iff.of_eq (and_true room))

open Standing in
theorem parts {p : Phrase Expr} {q : Expr → Phrase Expr} {us vs rest : List Token} {a e : Expr}
    {levels n d d' k k' : Nat}
    (h : Bounded (d ≤ levels ∧ n + k ≤ maxOperations) (p.read (before (us ++ (vs ++ rest)) n))
      (a, before (vs ++ rest) (n + k)))
    (h' : n + k ≤ maxOperations → Bounded (d' ≤ levels ∧ n + k + k' ≤ maxOperations)
      ((q a).read (before (vs ++ rest) (n + k))) (e, before rest (n + k + k'))) :
    Bounded (max d d' ≤ levels ∧ n + (k + k') ≤ maxOperations)
      ((p >>= q).read (before (us ++ vs ++ rest) n)) (e, before rest (n + (k + k'))) := by
  rw [List.append_assoc, ← Nat.add_assoc]
  refine (h.bind fun room => h' room.2).congr ?_
  omega

end Bounded

namespace Phrase
open Standing

theorem bounded_count (ts : List Token) (n : Nat) :
    Bounded (n < maxOperations) (count.read (before ts n)) ((), before ts (n + 1)) := by
  rw [read_count]
  exact ⟨fun h => if_pos h, fun h => ⟨_, .inr rfl, if_neg h⟩⟩

theorem bounded_join (op : Operator) (l r : Expr) (ts : List Token) (n : Nat) :
    Bounded (n < maxOperations) ((join op l r).read (before ts n))
      (.binary op l r, before ts (n + 1)) := by
  rw [read_join]
  exact ⟨fun h => if_pos h, fun h => ⟨_, .inr rfl, if_neg h⟩⟩

theorem bounded_power_zero {room : Prop} {s : Standing} {x : Expr × Standing} (h : ¬ room) :
    Bounded room ((power 0).read s) x :=
  ⟨fun hroom => absurd hroom h, fun _ => ⟨_, .inl rfl, rfl⟩⟩

section Chain
variable {sign : Token → Option Char} {operand : Char → Phrase Expr} {left : Expr} {rounds n : Nat}

theorem read_chain_done {ts : List Token} (h : ts.head?.bind sign = none) :
    (chain sign operand (rounds + 1) left).read (before ts n) = .ok (left, before ts n) := by
  rw [chain, read_current_bind, h, read_pure]

/-- One round of a chain and the rounds after it. -/
theorem bounded_chain_next {t : Token} {op : Operator} {us vs rest : List Token} {b e : Expr}
    {levels d d' k k' : Nat} (hsign : sign t = some op.symbol)
    (next : Bounded (d ≤ levels ∧ n + k ≤ maxOperations)
      ((operand op.symbol).read (before (us ++ (vs ++ rest)) n)) (b, before (vs ++ rest) (n + k)))
    (more : n + k + 1 ≤ maxOperations → Bounded (d' ≤ levels ∧ n + k + 1 + k' ≤ maxOperations)
      ((chain sign operand rounds (.binary op left b)).read (before (vs ++ rest) (n + k + 1)))
      (e, before rest (n + k + 1 + k'))) :
    Bounded (max d d' ≤ levels ∧ n + (k + 1 + k') ≤ maxOperations)
      ((chain sign operand (rounds + 1) left).read (before (t :: (us ++ vs) ++ rest) n))
      (e, before rest (n + (k + 1 + k'))) := by
  have hop : operator op.symbol = pure op := by simp [operator]
  have hround : (chain sign operand (rounds + 1) left).read (before (t :: (us ++ vs) ++ rest) n) =
      (operand op.symbol >>= fun right => join op left right >>= chain sign operand rounds).read
        (before (us ++ (vs ++ rest)) n) := by
    rw [chain, List.cons_append, List.append_assoc, read_current_bind]
    simp only [List.head?_cons, Option.bind_some, hsign, read_discard_bind, List.tail_cons, hop,
      pure_bind]
  rw [hround, show n + (k + 1 + k') = n + k + 1 + k' by omega]
  refine (next.bind fun _ => (bounded_join op left b (vs ++ rest) (n + k)).bind fun room =>
    more (by omega)).congr ?_
  omega

end Chain

theorem read_factor {p : Phrase Expr} {symbol : Char} {ts : List Token} {n : Nat}
    (h : ∀ c, ts.head? ≠ some (.prodOp c)) :
    (factor p symbol).read (before ts n) = p.read (before ts n) := by
  rw [factor, read_current_bind]
  split
  · next hc => exact absurd hc (h '*')
  · rfl

theorem read_adjacent {p : Phrase Expr} {ts : List Token} {n : Nat}
    (h : Category.value.Ends ts) :
    (adjacent p).read (before ts n) = .ok (none, before ts n) := by
  rw [adjacent, read_current_bind]
  split
  · next hc => exact absurd (h _ hc) (by decide)
  · rfl

section Signed
variable {p : Phrase Expr} {ts : List Token} {n : Nat}

theorem read_signed_plain (h : ∀ symbol, ts.head? ≠ some (.sumOp symbol)) :
    (signed p).read (before ts n) = (exponent p).read (before ts n) := by
  rw [signed, read_current_bind]
  split
  · next symbol hc => exact absurd hc (h symbol)
  · rfl

theorem read_signed_plus :
    (signed p).read (before (.sumOp '+' :: ts) n) = (exponent p).read (before ts n) := by
  change (exponent p >>= pure).read (before ts n) = _
  rw [bind_pure]

theorem read_signed_minus :
    (signed p).read (before (.sumOp '-' :: ts) n) =
      (exponent p >>= fun e => count >>= fun _ => pure e.negate).read (before ts n) := rfl

end Signed

theorem read_value_leaf {p : Phrase Expr} {t : Token} {e : Expr} {rest : List Token} {n : Nat}
    (ht : t = .name e ∨ t = .number e) (h : Category.value.Ends rest) :
    (value p).read (before (t :: rest) n) = .ok (e, before rest n) := by
  obtain rfl | rfl := ht
  all_goals
    rw [value, read_advance_bind]
    simp only [List.head?_cons, List.tail_cons, read_bind, read_adjacent h, read_pure]

end Phrase

open Standing Phrase in
/-- A derived part is read in front of whatever does not carry it on. -/
theorem Derives.read {c : Category} {ts : List Token} {e : Expr} {d k : Nat}
    (h : Derives c ts e d k) (levels rounds : Nat) (rest : List Token) (n : Nat)
    (hend : c.Ends rest) (hn : n ≤ maxOperations) (hr : maxOperations < n + rounds) :
    Bounded (d ≤ levels ∧ n + k ≤ maxOperations)
      ((c.phrase levels rounds).read (before (ts ++ rest) n)) (e, before rest (n + k)) := by
  -- a round of a chain joins once: `hr` holds again with one round less and one operation more
  induction h generalizing levels rounds rest n with
  | @sum ts us a e d d' k k' first more ih ih' =>
      exact Bounded.parts (ih levels rounds _ n (Category.ends_append_sums more hend) hn hr)
        fun room => ih' levels (maxOperations + 1) rest (n + k) hend room (by omega)
  | sumsDone =>
      obtain ⟨rounds, rfl⟩ : ∃ r, rounds = r + 1 := ⟨rounds - 1, by omega⟩
      exact .of_ok (read_chain_done hend.head_bind_sumSign) ⟨by omega, hn⟩
  | @sumsNext op ts us a b e d d' k k' sign next more ih ih' =>
      obtain ⟨rounds, rfl⟩ : ∃ r, rounds = r + 1 := ⟨rounds - 1, by omega⟩
      exact bounded_chain_next rfl
        (ih levels (maxOperations + 1) _ n (Category.ends_append_sums more hend) hn (by omega))
        fun room => ih' levels rounds rest (n + k + 1) hend room (by omega)
  | @product ts us a e d d' k k' first more ih ih' =>
      exact Bounded.parts (ih levels rounds _ n (Category.ends_append_products more hend) hn hr)
        fun room => ih' levels (maxOperations + 1) rest (n + k) hend room (by omega)
  | productsDone =>
      obtain ⟨rounds, rfl⟩ : ∃ r, rounds = r + 1 := ⟨rounds - 1, by omega⟩
      exact .of_ok (read_chain_done (Category.Ends.head_bind_prodSign hend)) ⟨by omega, hn⟩
  | @productsNext op ts us a b e d d' k k' sign next more ih ih' =>
      obtain ⟨rounds, rfl⟩ : ∃ r, rounds = r + 1 := ⟨rounds - 1, by omega⟩
      have first : Bounded (d ≤ levels ∧ n + k ≤ maxOperations)
          ((factor (.power levels) op.symbol).read (before (ts ++ (us ++ rest)) n))
          (b, before (us ++ rest) (n + k)) := by
        rw [read_factor (next.head_ne_prodOp _)]
        exact ih levels (maxOperations + 1) _ n (Category.ends_append_products more hend) hn
          (by omega)
      exact bounded_chain_next rfl first
        fun room => ih' levels rounds rest (n + k + 1) hend room (by omega)
  | @plain ts e d k operand ih =>
      cases levels with
      | zero => exact bounded_power_zero (by omega)
      | succ levels =>
          rw [Category.phrase, power, read_signed_plain (operand.head_ne_sumOp _)]
          exact (ih levels rounds rest n hend hn hr).congr (by omega)
  | @plus ts e d k operand ih =>
      cases levels with
      | zero => exact bounded_power_zero (by omega)
      | succ levels =>
          rw [Category.phrase, power, List.cons_append, read_signed_plus]
          exact (ih levels rounds rest n hend hn hr).congr (by omega)
  | @minus ts e d k operand ih =>
      cases levels with
      | zero => exact bounded_power_zero (by omega)
      | succ levels =>
          rw [Category.phrase, power, List.cons_append, read_signed_minus]
          refine (Bounded.bind (ih levels rounds rest n hend hn hr) fun room =>
            Bounded.bind_ok (bounded_count rest (n + k)) rfl).congr ?_
          omega
  | @base ts e d k base ih =>
      refine Bounded.bind_ok (ih levels rounds rest n (hend.mono (by decide)) hn hr) ?_
      rw [read_current_bind]
      split
      · next hc => exact absurd (hend _ hc) (by decide)
      · rfl
  | @raised ts us a b d d' k k' base power ih ih' =>
      have raise (room : n + k ≤ maxOperations) :
          Bounded ((d' ≤ levels ∧ n + k + k' ≤ maxOperations) ∧ n + k + k' < maxOperations)
            ((Phrase.power levels >>= join .power a).read (before (us ++ rest) (n + k)))
            (.binary .power a b, before rest (n + k + k' + 1)) :=
        (ih' levels rounds rest (n + k) hend room (by omega)).bind fun _ =>
          bounded_join .power a b rest (n + k + k')
      have hpow : Category.value.Ends (.powOp :: us ++ rest) := by
        simp [Category.Ends, Category.reach, Token.reach]
      rw [List.append_assoc, show n + (k + k' + 1) = n + k + k' + 1 by omega]
      refine (Bounded.bind (ih levels rounds _ n hpow hn hr) fun room => raise room.2).congr ?_
      omega
  | @group ts e d k inner ih =>
      have hclose : Category.sum.Ends (.closeParen :: rest) := by
        simp [Category.Ends, Category.reach, Token.reach]
      have inside : Bounded (d ≤ levels ∧ n + k ≤ maxOperations)
          ((Phrase.group (power levels)).read (before (ts ++ .closeParen :: rest) n))
          (e, before (.closeParen :: rest) (n + k)) :=
        (ih levels rounds _ n hclose hn hr).bind_ok rfl
      rw [List.cons_append, List.append_assoc, Category.phrase, Phrase.value, read_advance_bind]
      refine inside.bind_ok ?_
      rw [read_discard_bind, List.tail_cons, read_bind, read_adjacent hend]
      rfl
  | name => exact .of_ok (read_value_leaf (.inl rfl) hend) ⟨Nat.zero_le _, hn⟩
  | number => exact .of_ok (read_value_leaf (.inr rfl) hend) ⟨Nat.zero_le _, hn⟩

/-- A list that the grammar derives is accepted where the limits allow it. -/
theorem Derives.feed_whole {ts : List Token} {e : Expr} {d k : Nat} (h : Derives .sum ts e d k) :
    Bounded (d ≤ maxNesting ∧ k ≤ maxOperations) (Phrase.whole.feed ts) (e, []) := by
  have hread := h.read maxNesting (maxOperations + 1) [] 0 (by simp [Category.Ends])
    (Nat.zero_le _) (by omega)
  rw [List.append_nil, Nat.zero_add, Category.phrase] at hread
  rw [Phrase.feed_whole ts h.ne_nil]
  by_cases room : d ≤ maxNesting ∧ k ≤ maxOperations
  · rw [hread.1 room]
    exact .of_ok rfl room
  · obtain ⟨x, hx, heq⟩ := hread.2 room
    rw [heq]
    exact ⟨fun h => absurd h room, fun _ => ⟨x, hx, rfl⟩⟩

end Formula
