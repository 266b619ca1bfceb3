import Formula.Proofs.Phrase.Viability

/-!
A group right behind a value is no product. Where the tokens of a value and of a group are derived,
they are answered with the message about both, whatever comes behind the group and even if nothing
there can be read. Conversely, such a message is always about a value and a group that stand next to
each other in the tokens.
-/

namespace Formula

/-- The tokens `ts` are the value, written in this way. -/
inductive Operand.Written : Operand → List Token → Nat → Nat → Prop
  | name {node} : Written (.name node) [.name node] 0 0
  | number {node} : Written (.number node) [.number node] 0 0
  | group {ts inner d k} (h : Derives .sum ts inner d k) :
      Written (.group inner) (.openParen :: (ts ++ [.closeParen])) d k

theorem Operand.Written.derives {v : Operand} {ts : List Token} {d k : Nat}
    (h : v.Written ts d k) : Derives .value ts v.expr d k := by
  cases h with
  | name => exact .name
  | number => exact .number
  | group h => exact .group h

namespace Reader

variable {α β : Type}

theorem run_bind {σ : Type} [TokenSource σ] (r : Reader α) (f : α → Reader β) (source : σ) :
    (r >>= f).run source =
      match r.run source with
      | (.ok a, rest) => (f a).run rest
      | (.error x, rest) => (.error x, rest) := by
  induction r generalizing source with
  | done a | fail x => rfl
  | ask next ih =>
      rw [ask_bind, run, run]
      split
      · exact ih _ _
      · rfl

theorem run_bind_of_error {σ : Type} [TokenSource σ] {r : Reader α} {source : σ} {x : ParseError}
    (h : (r.run source).1 = .error x) (f : α → Reader β) :
    ((r >>= f).run source).1 = .error x := by
  rw [run_bind]
  cases hrun : r.run source with
  | mk answer rest =>
      rw [hrun] at h
      cases answer with
      | ok a => contradiction
      | error y =>
          obtain rfl : y = x := Except.error.inj h
          rfl

theorem suffix_of_feed {r : Reader α} {ts rest : List Token} {a : α}
    (h : r.feed ts = .ok (a, rest)) : rest <:+ ts := by
  induction r generalizing ts with
  | done b =>
      obtain ⟨-, rfl⟩ : b = a ∧ ts = rest := by simpa [feed] using h
      exact List.suffix_refl ts
  | fail x => contradiction
  | ask next ih => exact (ih _ h).trans (List.tail_suffix ts)

/-- A reader that leaves tokens has not asked for them, so anything may stand in their place. -/
theorem run_of_feed {r : Reader α} {us rest : List Token} {a : α} (hrest : rest ≠ [])
    (h : r.feed (us ++ rest) = .ok (a, rest)) (items : List (Except ParseError Token)) :
    r.run (us.map .ok ++ items) = (.ok a, items) := by
  induction r generalizing us with
  | done b =>
      obtain ⟨rfl, rfl⟩ : b = a ∧ us = [] := by simpa [feed] using h
      rfl
  | fail x => contradiction
  | ask next ih =>
      cases us with
      | nil =>
          obtain ⟨t, rest, rfl⟩ := List.exists_cons_of_ne_nil hrest
          have hle : (t :: rest).length ≤ rest.length :=
            (suffix_of_feed (r := next (some t)) h).length_le
          exact absurd hle (Nat.not_succ_le_self rest.length)
      | cons u us => exact ih (some u) h

end Reader

namespace Phrase
open Standing

section Ahead
variable {α β : Type}

/-- The answer of a phrase before the tokens `ts`, the first of which is in view, with items of any
kind behind them. -/
def hear (p : Phrase α) (ts : List Token) (n : Nat) (items : List (Except ParseError Token)) :
    Except ParseError (α × Progress) :=
  ((p.run { current := ts.head?, operations := n }).run (ts.tail.map .ok ++ items)).1

variable {p : Phrase α} {f : α → Phrase β} {t : Token} {us ts : List Token} {n m : Nat}
  {items : List (Except ParseError Token)} {a : α} {x : ParseError}

/-- A phrase that leaves `u` unasked answers the same if there is anything else in its place. -/
theorem hear_bind_of_read (u : Token)
    (h : p.read (before (us ++ t :: (ts ++ [u])) n) = .ok (a, before (t :: (ts ++ [u])) m)) :
    (p >>= f).hear (us ++ t :: ts) n items = (f a).hear (t :: ts) m items := by
  -- the token in view belongs to what has been asked for
  have hhead (rest : List Token) : (us ++ t :: rest).head? = (us ++ [t]).head? := by
    cases us <;> rfl
  have htail (rest : List Token) : (us ++ t :: rest).tail = (us ++ [t]).tail ++ rest := by
    cases us <;> simp
  have hfeed : (p.run { current := (us ++ [t]).head?, operations := n }).feed
      ((us ++ [t]).tail ++ (ts ++ [u])) =
        .ok ((a, { current := some t, operations := m }), ts ++ [u]) := by
    simp only [read, before, hhead (ts ++ [u]), htail (ts ++ [u])] at h
    split at h
    · next hrun =>
        obtain ⟨rfl, rfl, rfl⟩ : _ = a ∧ _ = Progress.mk (some t) m ∧ _ = ts ++ [u] := by
          simpa using h
        exact hrun
    · contradiction
  have hrun := Reader.run_of_feed (by simp) hfeed (ts.map .ok ++ items)
  simp only [hear, StateT.run_bind, Reader.run_bind, hhead ts, htail ts, List.map_append,
    List.append_assoc, hrun]
  rfl

theorem hear_bind_of_error (h : p.hear ts n items = .error x) :
    (p >>= f).hear ts n items = .error x := by
  rw [hear, StateT.run_bind]
  exact Reader.run_bind_of_error h _

theorem hear_current_bind (f : Option Token → Phrase β) :
    (current >>= f).hear ts n items = (f ts.head?).hear ts n items := rfl

theorem hear_advance_bind (hts : ts ≠ []) (f : Option Token → Phrase β) :
    (advance >>= f).hear (t :: ts) n items = (f (some t)).hear ts n items := by
  obtain ⟨u, us, rfl⟩ := List.exists_cons_of_ne_nil hts
  rfl

theorem hear_discard_bind (hts : ts ≠ []) (f : Unit → Phrase β) :
    (discard advance >>= f).hear (t :: ts) n items = (f ()).hear ts n items := by
  obtain ⟨u, us, rfl⟩ := List.exists_cons_of_ne_nil hts
  rfl

theorem run_whole_of_hear {e : ParseError}
    (h : (sum (power maxNesting)).hear (t :: ts) 0 items = .error e) :
    (whole.run ((t :: ts).map Except.ok ++ items)).1 = .error e := by
  change (Reader.run ((sum (power maxNesting)).run { current := some t } >>= _)
    (ts.map Except.ok ++ items)).1 = _
  exact Reader.run_bind_of_error h _

end Ahead

section Message
variable {us vs : List Token} {e : Expr} {v : Operand} {d d' k k' levels n : Nat}
  {items : List (Except ParseError Token)}

theorem read_group (h : Derives .sum us e d k) (hd : d ≤ levels) (hk : n + k ≤ maxOperations)
    (rest : List Token) :
    (group (power levels)).read (before (us ++ .closeParen :: rest) n) =
      .ok (e, before (.closeParen :: rest) (n + k)) := by
  have hclose : Category.sum.Ends (.closeParen :: rest) := by
    simp [Category.Ends, Category.reach, Token.reach]
  have hread := (h.read levels (maxOperations + 1) (.closeParen :: rest) n hclose (by omega)
    (by omega)).1 ⟨hd, hk⟩
  rw [group, read_bind, show (sum (power levels)).read _ = _ from hread]
  rfl

/-- A group is read up to its parenthesis, whatever comes behind that. -/
theorem hear_group_bind {β : Type} (h : Derives .sum us e d k) (hd : d ≤ levels)
    (hk : n + k ≤ maxOperations) (f : Expr → Phrase β) (ts : List Token) :
    (group (power levels) >>= f).hear (us ++ .closeParen :: ts) n items =
      (f e).hear (.closeParen :: ts) (n + k) items :=
  hear_bind_of_read .closeParen (read_group h hd hk _)

theorem hear_adjacent_bind {β : Type} (h : Derives .sum us e d k) (hd : d ≤ levels)
    (hk : n + k ≤ maxOperations) (f : Option Expr → Phrase β) :
    (adjacent (power levels) >>= f).hear (.openParen :: (us ++ [.closeParen])) n items =
      (f (some e)).hear [.closeParen] (n + k) items := by
  rw [adjacent, bind_assoc, hear_current_bind, List.head?_cons]
  simp only [bind_assoc, pure_bind]
  rw [hear_discard_bind (by simp), hear_group_bind h hd hk]

/-- A value with a group behind it is answered with the message about both. -/
theorem hear_value (hv : v.Written vs d' k') (hd' : d' ≤ levels) (h : Derives .sum us e d k)
    (hd : d ≤ levels) (hk : n + k' + k ≤ maxOperations) :
    (value (power levels)).hear (vs ++ .openParen :: (us ++ [.closeParen])) n items =
      .error (v.slip e) := by
  cases hv with
  | name | number =>
      rw [value, List.singleton_append, hear_advance_bind (by simp)]
      exact hear_adjacent_bind h hd hk _
  | group hv =>
      rw [value, List.cons_append, List.append_assoc, hear_advance_bind (by simp)]
      simp only []
      rw [List.singleton_append, hear_group_bind hv hd' (by omega), hear_discard_bind (by simp)]
      exact hear_adjacent_bind h hd hk _

/-- The message reaches the whole formula, whose first value it is about. -/
theorem run_whole_slip (hv : v.Written vs d' k') (hd' : d' < maxNesting)
    (h : Derives .sum us e d k) (hd : d < maxNesting) (hk : k' + k ≤ maxOperations)
    (items : List (Except ParseError Token)) :
    (whole.run ((vs ++ Token.openParen :: (us ++ [.closeParen])).map Except.ok ++ items)).1 =
      .error (v.slip e) := by
  have hvalue : (value (power 63)).hear (vs ++ .openParen :: (us ++ [.closeParen])) 0 items =
      .error (v.slip e) :=
    hear_value hv (Nat.le_of_lt_succ hd') h (Nat.le_of_lt_succ hd) (by omega)
  have hpower : (power maxNesting).hear (vs ++ .openParen :: (us ++ [.closeParen])) 0 items =
      .error (v.slip e) := by
    rw [maxNesting, power, signed, hear_current_bind]
    split
    · next symbol hc => exact absurd hc (hv.derives.base.head_ne_sumOp _ symbol)
    · exact hear_bind_of_error hvalue
  obtain ⟨t, ts, hts⟩ : ∃ t ts, vs ++ .openParen :: (us ++ [.closeParen]) = t :: ts :=
    List.exists_cons_of_ne_nil (by simp)
  rw [hts] at hpower ⊢
  exact run_whole_of_hear (hear_bind_of_error (hear_bind_of_error hpower))

end Message

end Phrase

/-- Somewhere in the tokens a group that means `e` stands right behind the value `v`. -/
def Juxtaposed (ts : List Token) (v : Operand) (e : Expr) : Prop :=
  ∃ vs us d d' k k', v.Written vs d' k' ∧ Derives .sum us e d k ∧
    vs ++ .openParen :: (us ++ [.closeParen]) <:+: ts

/-- Whether a message is one about a group behind a value. -/
def ParseError.IsSlip : ParseError → Prop
  | functionCall _ _ | implicitProduct _ _ => True
  | _ => False

/-- An answer leaves the last of the tokens, and a message about a group behind a value is about
two that stand among the tokens. -/
def Traced {α : Type} (ts : List Token) : Except ParseError (α × Standing) → Prop
  | .ok (_, s) => ∃ rest n, rest <:+ ts ∧ s = .before rest n
  | .error x => x.IsSlip → ∃ v e, x = v.slip e ∧ Juxtaposed ts v e

theorem Traced.mono {α : Type} {us ts : List Token} {r : Except ParseError (α × Standing)}
    (h : Traced us r) (hus : us <:+ ts) : Traced ts r := by
  cases r with
  | ok x =>
      obtain ⟨rest, n, hrest, hs⟩ := h
      exact ⟨rest, n, hrest.trans hus, hs⟩
  | error x =>
      intro hx
      obtain ⟨v, e, hslip, vs, ws, d, d', k, k', hv, he, hinfix⟩ := h hx
      exact ⟨v, e, hslip, vs, ws, d, d', k, k', hv, he, hinfix.trans hus.isInfix⟩

namespace Phrase
open Standing

/-- A phrase whose messages about groups behind values can be traced to its tokens. -/
def Traces {α : Type} (p : Phrase α) : Prop :=
  ∀ ts n, (∀ t ∈ ts, t.Ordinary) → Traced ts (p.read (before ts n))

section Steps
variable {α β : Type}

theorem Traces.bind {p : Phrase α} {f : α → Phrase β} (h : Traces p) (h' : ∀ a, Traces (f a)) :
    Traces (p >>= f) := by
  intro ts n hts
  have hp := h ts n hts
  rw [read_bind]
  split
  · next hread =>
      rw [hread] at hp
      obtain ⟨rest, m, hrest, rfl⟩ := hp
      exact (h' _ rest m fun t ht => hts t (hrest.mem ht)).mono hrest
  · next hread =>
      rw [hread] at hp
      exact hp

theorem traces_pure (a : α) : Traces (pure a : Phrase α) :=
  fun ts n _ => ⟨ts, n, List.suffix_refl ts, rfl⟩

theorem traces_refuse {x : ParseError} (hx : ¬ x.IsSlip) : Traces (refuse x : Phrase α) :=
  fun _ _ _ hslip => absurd hslip hx

theorem traces_current : Traces current :=
  fun ts n _ => ⟨ts, n, List.suffix_refl ts, rfl⟩

theorem traces_advance : Traces (discard advance) :=
  fun ts n _ => ⟨ts.tail, n, List.tail_suffix ts, rfl⟩

theorem traces_count : Traces count := by
  intro ts n _
  rw [read_count]
  split
  · exact ⟨ts, n + 1, List.suffix_refl ts, rfl⟩
  · exact False.elim

theorem traces_join (op : Operator) (l r : Expr) : Traces (join op l r) :=
  traces_count.bind fun _ => traces_pure _

theorem traces_operator (symbol : Char) : Traces (operator symbol) := by
  rw [operator]
  split
  · exact traces_pure _
  · exact traces_refuse id

theorem traces_chain {sign : Token → Option Char} {operand : Char → Phrase Expr}
    (h : ∀ symbol, Traces (operand symbol)) (rounds : Nat) (left : Expr) :
    Traces (chain sign operand rounds left) := by
  induction rounds generalizing left with
  | zero => exact traces_refuse id
  | succ rounds ih =>
      refine traces_current.bind fun token => ?_
      split
      · exact traces_pure left
      · next symbol _ =>
          exact traces_advance.bind fun _ => (h symbol).bind fun right =>
            (traces_operator symbol).bind fun op => (traces_join op left right).bind ih

end Steps

section Within
variable {p : Phrase Expr} {levels : Nat} (traces : Traces p)
include traces

theorem traces_factor (symbol : Char) : Traces (factor p symbol) := by
  refine traces_current.bind fun token => ?_
  split
  · exact traces_refuse id
  · exact traces

theorem traces_product : Traces (product p) :=
  traces.bind fun left => traces_chain (traces_factor traces) _ left

theorem traces_sum : Traces (sum p) :=
  (traces_product traces).bind fun left => traces_chain (fun _ => traces_product traces) _ left

theorem traces_group : Traces (group p) := by
  refine (traces_sum traces).bind fun inner => traces_current.bind fun token => ?_
  split
  · exact traces_pure inner
  · exact traces_refuse id
  · exact traces_refuse id

variable (found : Finds p levels (Derives .power))
include found

/-- What comes behind a value is traced to the value and the tokens behind it. -/
theorem traced_lone {v : Operand} {vs ts : List Token} {d k n : Nat} (hv : v.Written vs d k)
    (hts : ∀ t ∈ ts, t.Ordinary) :
    Traced (vs ++ ts) ((do match ← adjacent p with
      | some right => refuse (v.slip right)
      | none => return v.expr : Phrase Expr).read (before ts n)) := by
  by_cases hopen : ∃ rest, ts = .openParen :: rest
  · obtain ⟨rest, rfl⟩ := hopen
    have hrest : ∀ t ∈ rest, t.Ordinary := (List.forall_mem_cons.mp hts).2
    have hadjacent : (adjacent p).read (before (.openParen :: rest) n) =
        (group p >>= fun right => pure (some right)).read (before rest n) := rfl
    rw [read_bind, hadjacent, read_bind]
    cases hgroup : (group p).read (before rest n) with
    | error x =>
        have htraced := traces_group traces rest n hrest
        rw [hgroup] at htraced
        exact htraced.mono ((List.suffix_cons _ rest).trans (List.suffix_append vs _))
    | ok r =>
        obtain ⟨right, s⟩ := r
        obtain ⟨us, back, d', k', rfl, rfl, hright, -, -⟩ := finds_group found hrest hgroup
        exact fun _ => ⟨v, right, rfl, vs, us, d', d, k', k, hv, hright, [], back, by simp⟩
  · have hends : Category.value.Ends ts := by
      intro t ht
      obtain ⟨rest, rfl⟩ := List.head?_eq_some_iff.mp ht
      cases t with
      | openParen => exact absurd ⟨rest, rfl⟩ hopen
      | _ => simp [Category.reach, Token.reach]
    rw [read_bind, read_adjacent hends]
    exact ⟨ts, n, List.suffix_append vs ts, rfl⟩

theorem traces_value : Traces (value p) := by
  intro ts n hts
  rw [value, read_advance_bind]
  split
  · exact traces_refuse id ts n hts
  · next hc =>
      obtain ⟨ts, rfl⟩ := List.head?_eq_some_iff.mp hc
      have hts := (List.forall_mem_cons.mp hts).2
      rw [List.tail_cons, read_bind]
      cases hgroup : (group p).read (before ts n) with
      | error x =>
          have htraced := traces_group traces ts n hts
          rw [hgroup] at htraced
          exact htraced.mono (List.suffix_cons _ ts)
      | ok r =>
          obtain ⟨inner, s⟩ := r
          obtain ⟨us, rest, d, k, rfl, rfl, hinner, -, -⟩ := finds_group found hts hgroup
          have hrest : ∀ t ∈ rest, t.Ordinary := fun t ht => hts t (by simp [ht])
          have hlone := traced_lone traces found (n := n + k) (.group hinner) hrest
          rw [List.cons_append, List.append_assoc] at hlone
          exact hlone
  · next node hc =>
      obtain ⟨ts, rfl⟩ := List.head?_eq_some_iff.mp hc
      exact traced_lone traces found .name (List.forall_mem_cons.mp hts).2
  · next node hc =>
      obtain ⟨ts, rfl⟩ := List.head?_eq_some_iff.mp hc
      exact traced_lone traces found .number (List.forall_mem_cons.mp hts).2
  · rw [read_current_bind]
    split <;> exact False.elim
  · exact False.elim

theorem traces_exponent : Traces (exponent p) := by
  refine (traces_value traces found).bind fun base => traces_current.bind fun token => ?_
  split
  · exact traces_advance.bind fun _ => traces.bind fun e => traces_join .power base e
  · exact traces_pure base

theorem traces_signed : Traces (signed p) := by
  refine traces_current.bind fun token => ?_
  split
  · refine traces_advance.bind fun _ => (traces_exponent traces found).bind fun operand => ?_
    split
    · exact traces_count.bind fun _ => traces_pure _
    · exact traces_pure operand
  · exact traces_exponent traces found

end Within

theorem traces_power (levels : Nat) : Traces (power levels) := by
  induction levels with
  | zero => exact traces_refuse id
  | succ levels ih => exact traces_signed ih (finds_power levels)

end Phrase

/-- The message about a group behind a value is given only where one stands. -/
theorem traced_reading {ts : List Token} {x : ParseError} (hts : ∀ t ∈ ts, t.Ordinary)
    (h : reading ts = .error x) (hx : x.IsSlip) : ∃ v e, x = v.slip e ∧ Juxtaposed ts v e := by
  rw [reading, ofTokens_map_ok] at h
  by_cases hne : ts = []
  · subst hne
    obtain rfl : ParseError.emptyInput = x := Except.error.inj h
    exact hx.elim
  · rw [Phrase.feed_whole ts hne] at h
    have htraced := Phrase.traces_sum (Phrase.traces_power maxNesting) ts 0 hts
    split at h
    · split at h
      · contradiction
      · obtain rfl := Except.error.inj h
        exact hx.elim
    · next hread =>
        obtain rfl := Except.error.inj h
        rw [hread] at htraced
        exact htraced hx

end Formula
