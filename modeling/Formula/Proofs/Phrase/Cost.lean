import Mathlib.Tactic.Ring
import Formula.Proofs.Phrase.Acceptance
import Formula.Proofs.Token.Pulls

/-!
How much a reading takes. Requests are set against the operations that are joined: an operation
pays for its sign and its right operand, so only the groups, powers and signs that are nested in
each other are left to be counted, and the limits bound both. The rounds of a chain are not used, so
it does not matter for how many of them it is made.
-/

namespace Formula

variable {α β : Type}

namespace Reader

/-- With `n` requests made before, `Q` holds of each value and the requests made until it is given,
and `E` of the requests made until the reading fails, by itself or by its source. -/
def Spends (Q : α → Nat → Prop) (E : Nat → Prop) : Reader α → Nat → Prop
  | done a, n => Q a n
  | fail _, n => E n
  | ask next, n => E (n + 1) ∧ ∀ token, (next token).Spends Q E (n + 1)

variable {Q : α → Nat → Prop} {E : Nat → Prop}

theorem Spends.mono {Q' : α → Nat → Prop} {E' : Nat → Prop} {r : Reader α} {n : Nat}
    (h : r.Spends Q E n) (hQ : ∀ a m, Q a m → Q' a m) (hE : ∀ m, E m → E' m) :
    r.Spends Q' E' n := by
  induction r generalizing n with
  | done a => exact hQ a n h
  | fail x => exact hE n h
  | ask next ih => exact ⟨hE _ h.1, fun token => ih token (h.2 token)⟩

theorem Spends.bind {R : β → Nat → Prop} {r : Reader α} {f : α → Reader β} {n : Nat}
    (h : r.Spends (fun a m => (f a).Spends R E m) E n) : (r >>= f).Spends R E n := by
  induction r generalizing n with
  | done a => exact h
  | fail x => exact h
  | ask next ih => exact ⟨h.1, fun token => ih token (h.2 token)⟩

/-- Requests that are made stay made. -/
theorem spends_le (r : Reader α) (n : Nat) : r.Spends (fun _ m => n ≤ m) (fun m => n ≤ m) n := by
  induction r generalizing n with
  | done a => exact Nat.le_refl n
  | fail x => exact Nat.le_refl n
  | ask next ih =>
      refine ⟨Nat.le_succ n, fun token => ?_⟩
      exact (ih token (n + 1)).mono (fun _ _ => Nat.le_of_succ_le) (fun _ => Nat.le_of_succ_le)

/-- What is said of all answers holds on any source. -/
theorem Spends.run {σ : Type} [TokenSource σ] {r : Reader α} {n : Nat} (h : r.Spends Q E n)
    (source : σ) :
    (∀ a rest, r.run source = (.ok a, rest) → Q a (n + r.pulls source)) ∧
      ∀ x rest, r.run source = (.error x, rest) → E (n + r.pulls source) := by
  induction r generalizing n source with
  | done a =>
      refine ⟨fun b rest hrun => ?_, fun x rest hrun => ?_⟩
      · obtain ⟨rfl, -⟩ : a = b ∧ source = rest := by simpa [Reader.run] using hrun
        exact h
      · simp [Reader.run] at hrun
  | fail x =>
      refine ⟨fun b rest hrun => ?_, fun y rest hrun => h⟩
      simp [Reader.run] at hrun
  | ask next ih =>
      obtain ⟨answer, more, hs⟩ : ∃ answer rest, TokenSource.next source = (answer, rest) :=
        ⟨_, _, rfl⟩
      cases answer with
      | ok token =>
          rw [run_ok hs, pulls_ok hs, Nat.add_comm _ 1, ← Nat.add_assoc]
          exact ih token (h.2 token) more
      | error x =>
          rw [run_error hs, pulls_error hs]
          exact ⟨fun b rest hrun => by simp at hrun, fun _ _ _ => h.1⟩

end Reader

/-- The requests that are left to be counted, out of `n`, when every operation pays for `rate`. -/
def unpaid (rate operations n : Nat) : Int := n - rate * operations

section Unpaid
variable (rate operations n : Nat)

theorem unpaid_request : unpaid rate operations (n + 1) = unpaid rate operations n + 1 := by
  simp only [unpaid]
  omega

theorem unpaid_operation : unpaid rate (operations + 1) n = unpaid rate operations n - rate := by
  simp only [unpaid, Int.natCast_add, Int.mul_add]
  omega

theorem unpaid_le {operations operations' : Nat} (h : operations ≤ operations') :
    unpaid rate operations' n ≤ unpaid rate operations n := by
  have := Int.ofNat_le.mpr (Nat.mul_le_mul_left rate h)
  simp only [unpaid, Int.natCast_mul] at this ⊢
  omega

end Unpaid

namespace Phrase
open Standing

/-- A phrase that succeeds leaves at most `success` more requests unpaid than it has found, and one
that fails at most `failure` more if all operations that there is room for are taken as joined. -/
def Costs (rate : Nat) (p : Phrase α) (success failure : Int) : Prop :=
  ∀ (progress : Progress) (n : Nat), progress.operations ≤ maxOperations →
    (p.run progress).Spends
      (fun r m => r.2.operations ≤ maxOperations ∧
        unpaid rate r.2.operations m ≤ unpaid rate progress.operations n + success)
      (fun m => unpaid rate maxOperations m ≤ unpaid rate progress.operations n + failure) n

section Steps
variable {rate : Nat} {c d t f g u : Int}

theorem Costs.mono {p : Phrase α} (h : Costs rate p c f) (hc : c ≤ d) (hf : f ≤ g) :
    Costs rate p d g := by
  intro progress n hprogress
  refine (h progress n hprogress).mono (fun r m hr => ⟨hr.1, ?_⟩) fun m hm => ?_
  · have := hr.2
    omega
  · omega

/-- What the second phrase costs comes on top of the success of the first. -/
theorem Costs.bind {p : Phrase α} {q : α → Phrase β} (hp : Costs rate p c f)
    (hq : ∀ a, Costs rate (q a) d g) (hc : c + d ≤ t) (hf : f ≤ u) (hg : c + g ≤ u) :
    Costs rate (p >>= q) t u := by
  intro progress n hprogress
  rw [StateT.run_bind]
  refine Reader.Spends.bind ((hp progress n hprogress).mono (fun r m hr => ?_) fun m hm => ?_)
  · obtain ⟨hr, hm⟩ := hr
    refine (hq r.1 r.2 m hr).mono (fun r' k hr' => ⟨hr'.1, ?_⟩) fun k hk => ?_
    · have := hr'.2
      omega
    · omega
  · omega

theorem costs_pure (a : α) : Costs rate (pure a : Phrase α) 0 0 :=
  fun _ _ hprogress => ⟨hprogress, Int.le_of_eq (Int.add_zero _).symm⟩

/-- A refusal never succeeds, so its success may cost anything. -/
theorem costs_refuse (x : ParseError) (c : Int) : Costs rate (refuse x : Phrase α) c 0 := by
  intro progress n hprogress
  have := unpaid_le rate n hprogress
  change unpaid rate maxOperations n ≤ _
  omega

theorem costs_current : Costs rate current 0 0 :=
  fun _ _ hprogress => ⟨hprogress, Int.le_of_eq (Int.add_zero _).symm⟩

theorem costs_advance : Costs rate advance 1 1 := by
  intro progress n hprogress
  have := unpaid_le rate n hprogress
  refine ⟨?_, fun token => ⟨hprogress, Int.le_of_eq (unpaid_request _ _ n)⟩⟩
  change unpaid rate maxOperations (n + 1) ≤ _
  rw [unpaid_request]
  omega

theorem costs_discard : Costs rate (discard advance) 1 1 :=
  costs_advance.bind (fun _ => costs_pure _) (by omega) (by omega) (by omega)

theorem costs_count : Costs rate count (-rate) 0 := by
  intro progress n hprogress
  change (ite (maxOperations < progress.operations + 1) (refuse (.tooLong maxOperations))
    (pure () : Phrase Unit)).run { progress with operations := progress.operations + 1 }
    |>.Spends _ _ n
  split
  · have := unpaid_le rate n hprogress
    change unpaid rate maxOperations n ≤ _
    omega
  · next hroom =>
      have := unpaid_operation rate progress.operations n
      refine ⟨Nat.le_of_not_lt hroom, ?_⟩
      change unpaid rate (progress.operations + 1) n ≤ _
      omega

theorem costs_join (op : Operator) (l r : Expr) : Costs rate (join op l r) (-rate) 0 :=
  costs_count.bind (fun _ => costs_pure _) (by omega) (by omega) (by omega)

theorem costs_operator (symbol : Char) : Costs rate (operator symbol) 0 0 := by
  rw [operator]
  split
  · exact costs_pure _
  · exact costs_refuse _ 0

/-- Every round of a chain is paid for by the operation at its end. -/
theorem costs_chain {sign : Token → Option Char} {operand : Char → Phrase Expr}
    (h : ∀ symbol, Costs rate (operand symbol) c f) (hrate : 1 + c ≤ rate) (hc : 0 ≤ c)
    (hf : c ≤ f) (rounds : Nat) (left : Expr) :
    Costs rate (chain sign operand rounds left) 0 (1 + f) := by
  induction rounds generalizing left with
  | zero => exact (costs_refuse _ 0).mono (Int.le_refl 0) (by omega)
  | succ rounds ih =>
      rw [chain]
      refine costs_current.bind (d := 0) (g := 1 + f) (fun token => ?_) (by omega) (by omega)
        (by omega)
      split
      · exact (costs_pure left).mono (Int.le_refl 0) (by omega)
      · next symbol _ =>
          have hjoin (op : Operator) (right : Expr) :
              Costs rate (join op left right >>= chain sign operand rounds) (-rate) (f - c) :=
            (costs_join op left right).bind ih (by omega) (by omega) (by omega)
          have hround (right : Expr) : Costs rate (operator symbol >>= fun op =>
              join op left right >>= chain sign operand rounds) (-rate) (f - c) :=
            (costs_operator symbol).bind (fun op => hjoin op right) (by omega) (by omega) (by omega)
          have hoperand := (h symbol).bind hround (t := c - rate) (u := f) (by omega)
            (by omega) (by omega)
          exact costs_discard.bind (fun _ => hoperand) (by omega) (by omega)
            (by omega)

end Steps

section Within
variable {p : Phrase Expr} {rate : Nat} {c f : Int} (costs : Costs rate p c f) (hc : 0 ≤ c)
  (hf : c ≤ f) (hrate : 1 + c ≤ rate)
include costs hc hf

theorem costs_factor (symbol : Char) : Costs rate (factor p symbol) c f := by
  refine costs_current.bind (d := c) (g := f) (fun token => ?_) (by omega) (by omega) (by omega)
  split
  · exact (costs_refuse _ c).mono (Int.le_refl c) (by omega)
  · exact costs

include hrate

theorem costs_product : Costs rate (product p) c (c + 1 + f) :=
  costs.bind (costs_chain (costs_factor costs hc hf) hrate hc hf _) (by omega) (by omega) (by omega)

theorem costs_sum : Costs rate (sum p) c (2 * (c + 1) + f) := by
  have hproduct := costs_product costs hc hf hrate
  refine hproduct.bind (costs_chain (fun _ => hproduct) hrate hc (by omega) _) (by omega) (by omega)
    (by omega)

theorem costs_group : Costs rate (group p) c (2 * (c + 1) + f) := by
  refine (costs_sum costs hc hf hrate).bind (d := 0) (g := 0) (fun inner => ?_) (by omega)
    (by omega) (by omega)
  refine costs_current.bind (d := 0) (g := 0) (fun token => ?_) (by omega) (by omega) (by omega)
  split
  · exact costs_pure inner
  · exact costs_refuse _ 0
  · exact costs_refuse _ 0

/-- A group behind a value is only read to be refused. -/
theorem costs_lone (slip : Expr → ParseError) (e : Expr) :
    Costs rate (do match ← adjacent p with
      | some right => refuse (slip right)
      | none => return e : Phrase Expr) 0 (2 * (c + 1) + f + 1) := by
  rw [adjacent, bind_assoc]
  refine costs_current.bind (d := 0) (g := 2 * (c + 1) + f + 1) (fun token => ?_) (by omega)
    (by omega) (by omega)
  split
  · simp only [bind_assoc, pure_bind]
    refine costs_discard.bind (d := -1) (g := 2 * (c + 1) + f) (fun _ => ?_) (by omega) (by omega)
      (by omega)
    exact (costs_group costs hc hf hrate).bind (fun right => costs_refuse _ (-1 - c)) (by omega)
      (by omega) (by omega)
  · exact (costs_pure e).mono (Int.le_refl 0) (by omega)

theorem costs_value : Costs rate (value p) (c + 2) (3 * c + 5 + f) := by
  have hlone (slip : Expr → ParseError) (e : Expr) :=
    costs_lone costs hc hf hrate slip e
  refine costs_advance.bind (d := c + 1) (g := 3 * c + 4 + f) (fun token => ?_) (by omega)
    (by omega) (by omega)
  split
  · exact (costs_refuse _ (c + 1)).mono (by omega) (by omega)
  · refine (costs_group costs hc hf hrate).bind (d := 1) (g := 2 * c + 4 + f)
      (fun inner => ?_) (by omega) (by omega) (by omega)
    exact costs_discard.bind (fun _ => hlone _ inner) (by omega) (by omega) (by omega)
  · next node => exact (hlone _ node).mono (by omega) (by omega)
  · next node => exact (hlone _ node).mono (by omega) (by omega)
  · refine costs_current.bind (d := c + 1) (g := 0) (fun token => ?_) (by omega) (by omega)
      (by omega)
    split
    · exact costs_refuse _ (c + 1)
    · exact costs_refuse _ (c + 1)
  · exact (costs_refuse _ (c + 1)).mono (by omega) (by omega)

theorem costs_exponent : Costs rate (exponent p) (c + 2) (3 * c + 5 + f) := by
  refine (costs_value costs hc hf hrate).bind (d := 0) (g := 1 + f) (fun base => ?_) (by omega)
    (by omega) (by omega)
  refine costs_current.bind (d := 0) (g := 1 + f) (fun token => ?_) (by omega) (by omega)
    (by omega)
  split
  · -- the operation pays for its sign and for the power on the right
    have hpower := costs.bind (costs_join .power base) (t := c - rate) (u := f) (by omega)
      (by omega) (by omega)
    exact costs_discard.bind (fun _ => hpower) (by omega) (by omega) (by omega)
  · exact (costs_pure base).mono (by omega) (by omega)

theorem costs_signed : Costs rate (signed p) (c + 3) (3 * c + 6 + f) := by
  have hexponent := costs_exponent costs hc hf hrate
  refine costs_current.bind (d := c + 3) (g := 3 * c + 6 + f) (fun token => ?_) (by omega)
    (by omega) (by omega)
  split
  · next symbol =>
      have hsign (operand : Expr) : Costs rate (if symbol = '-' then do count; return operand.negate
          else return operand : Phrase Expr) 0 0 := by
        split
        · exact costs_count.bind (fun _ => costs_pure _) (by omega) (by omega) (by omega)
        · exact costs_pure operand
      have hoperand := hexponent.bind hsign (t := c + 2) (u := 3 * c + 5 + f) (by omega)
        (by omega) (by omega)
      exact costs_discard.bind (fun _ => hoperand) (by omega) (by omega) (by omega)
  · exact hexponent.mono (by omega) (by omega)

end Within

/-- Each level of nesting adds a sign and two parentheses to what succeeds; what fails may have
gone through everything that is nested, once for each level. -/
theorem costs_power {rate levels : Nat} (h : 3 * levels ≤ rate) :
    Costs rate (power levels) (3 * levels) (6 * (levels * levels)) := by
  induction levels with
  | zero => exact costs_refuse _ 0
  | succ levels ih =>
      have hsquare : ((levels + 1 : Nat) : Int) * (levels + 1 : Nat) =
          levels * levels + 2 * levels + 1 := by
        push_cast
        ring
      have hle : (levels : Int) ≤ levels * levels := mod_cast Nat.le_mul_self levels
      exact (costs_signed (ih (by omega)) (by omega) (by omega) (by omega)).mono (by omega)
        (by omega)

/-- How many requests a reading within these limits can make. -/
def pullBound (nesting operations : Nat) : Nat :=
  6 * (nesting * nesting) + 6 * nesting + 3 + (3 * nesting + 1) * operations

theorem spends_whole :
    whole.Spends (fun _ m => m ≤ pullBound maxNesting maxOperations)
      (fun m => m ≤ pullBound maxNesting maxOperations) 0 := by
  have hpower : Costs (3 * maxNesting + 1) (power maxNesting) _ _ := costs_power (Nat.le_succ _)
  have hsum := costs_sum hpower (by omega) (by decide) (by omega)
  have hbound (m : Nat) (h : unpaid (3 * maxNesting + 1) maxOperations m ≤
      unpaid (3 * maxNesting + 1) 0 1 +
        (2 * (3 * (maxNesting : Int) + 1) + 6 * (maxNesting * maxNesting))) :
      m ≤ pullBound maxNesting maxOperations := by
    simp only [unpaid, pullBound, maxNesting, maxOperations] at h ⊢
    omega
  have hone : 1 ≤ pullBound maxNesting maxOperations := by decide
  refine ⟨hone, fun token => ?_⟩
  cases token with
  | none => exact hone
  | some t =>
      change Reader.Spends _ _ ((sum (power maxNesting)).run { current := some t } >>= _) 1
      refine Reader.Spends.bind ((hsum { current := some t } 1 (Nat.zero_le _)).mono ?_ hbound)
      rintro ⟨e, rest⟩ m ⟨hoperations, hm⟩
      dsimp only at hoperations hm ⊢
      have hle : m ≤ pullBound maxNesting maxOperations := by
        have hall := unpaid_le (3 * maxNesting + 1) m hoperations
        have hsquare : (0 : Int) ≤ maxNesting * maxNesting := by decide
        exact hbound m (by omega)
      split
      · exact hle
      · exact hle

/-- A phrase that has read something has left behind the token that was in view. -/
def Takes (p : Phrase α) : Prop :=
  ∀ (progress : Progress) (n : Nat), (p.run progress).Spends
    (fun _ m => progress.current ≠ none ∧ n < m) (fun _ => True) n

theorem Takes.bind {p : Phrase α} (h : Takes p) (f : α → Phrase β) : Takes (p >>= f) := by
  intro progress n
  rw [StateT.run_bind]
  refine Reader.Spends.bind ((h progress n).mono (fun r m hr => ?_) fun _ => id)
  refine (Reader.spends_le ((f r.1).run r.2) m).mono (fun r' k hk => ?_) fun _ _ => trivial
  exact ⟨hr.1, Nat.lt_of_lt_of_le hr.2 hk⟩

section Takes
variable {p : Phrase Expr}

theorem takes_value (p : Phrase Expr) : Takes (value p) := by
  intro progress n
  obtain ⟨current, operations⟩ := progress
  refine ⟨trivial, fun token => ?_⟩
  cases current with
  | none => trivial
  | some t =>
      refine (Reader.spends_le _ (n + 1)).mono (fun r m hm => ?_) fun _ _ => trivial
      exact ⟨Option.some_ne_none t, hm⟩

theorem takes_exponent (p : Phrase Expr) : Takes (exponent p) := (takes_value p).bind _

theorem takes_signed (p : Phrase Expr) : Takes (signed p) := by
  intro progress n
  have hexponent := takes_exponent p progress n
  obtain ⟨current, operations⟩ := progress
  cases current with
  | none => exact hexponent
  | some t =>
      cases t with
      | sumOp symbol =>
          refine ⟨trivial, fun token => ?_⟩
          refine (Reader.spends_le _ (n + 1)).mono (fun r m hm => ?_) fun _ _ => trivial
          exact ⟨Option.some_ne_none _, hm⟩
      | openParen | closeParen | prodOp _ | powOp | name _ | number _ => exact hexponent

theorem takes_power (levels : Nat) : Takes (power levels) := by
  cases levels with
  | zero => exact fun _ _ => trivial
  | succ levels => exact takes_signed _

theorem takes_product (h : Takes p) : Takes (product p) := h.bind _

theorem takes_sum (h : Takes p) : Takes (sum p) := (takes_product h).bind _

theorem takes_group (h : Takes p) : Takes (group p) := (takes_sum h).bind _

end Takes

/-- The power phrase with two observers, who are told how many power phrases have begun and not
ended, that one included: `enter` as soon as one begins, `pass` once it has found a level left.
Either may stop the reading, ask for tokens or do all else that a phrase can. -/
def watched (enter pass : Nat → Phrase Unit) : Nat → Nat → Phrase Expr
  | 0, opened => do
    enter (opened + 1)
    refuse (.tooDeeplyNested maxNesting)
  | levels + 1, opened => do
    enter (opened + 1)
    pass (opened + 1)
    signed (watched enter pass levels (opened + 1))

/-- The reading of a formula in which `power` reads the power phrases. -/
def wholeWith (power : Phrase Expr) : Reader Expr := do
  match ← Reader.token with
  | none => .fail .emptyInput
  | first =>
    let (e, rest) ← (sum power).run { current := first }
    match rest.current with
    | none => return e
    | some token => .fail (.unexpectedToken token.text)

section Watched
variable {enter pass : Nat → Phrase Unit} {levels opened n : Nat} {ts : List Token}

/-- As many phrases as there are levels pass, and one more begins at most: what the observers would
do beyond that is never done. -/
theorem watched_eq_power (henter : ∀ k ≤ opened + levels + 1, enter k = pure ())
    (hpass : ∀ k ≤ opened + levels, pass k = pure ()) :
    watched enter pass levels opened = power levels := by
  induction levels generalizing opened with
  | zero => rw [watched, power, henter (opened + 1) (by omega)]; rfl
  | succ levels ih =>
      rw [watched, power, henter (opened + 1) (by omega), hpass (opened + 1) (by omega),
        ih (fun k hk => henter k (by omega)) fun k hk => hpass k (by omega)]
      rfl

theorem read_bind_of_error {p : Phrase α} {s : Standing} {x : ParseError}
    (h : p.read s = .error x) (f : α → Phrase β) : (p >>= f).read s = .error x := by
  rw [read_bind, h]

theorem read_sum_of_error {p : Phrase Expr} {s : Standing} {x : ParseError}
    (h : p.read s = .error x) : (sum p).read s = .error x :=
  read_bind_of_error (read_bind_of_error h _) _

/-- Whatever stops a power phrase stops the ones around it, up to the first parenthesis. -/
theorem read_signed_of_error {p : Phrase Expr} {x : ParseError}
    (h : p.read (before ts n) = .error x) :
    (signed p).read (before (.openParen :: ts) n) = .error x := by
  have hgroup : (group p).read (before ts n) = .error x :=
    read_bind_of_error (read_sum_of_error h) _
  have hvalue : (value p).read (before (.openParen :: ts) n) = .error x := by
    rw [value, read_advance_bind]
    exact read_bind_of_error hgroup _
  rw [signed, read_current_bind]
  exact read_bind_of_error hvalue _

/-- Each parenthesis begins one power phrase more, so both observers are heard for as long as there
are levels, and `enter` is heard once more. -/
theorem read_watched_groups {x : ParseError} (henter : ∀ k ≤ opened + levels, enter k = pure ())
    (hpass : ∀ k ≤ opened + levels, pass k = pure ())
    (hlast : (watched enter pass 0 (opened + levels)).read (before ts n) = .error x) :
    (watched enter pass levels opened).read (before (List.replicate levels .openParen ++ ts) n) =
      .error x := by
  induction levels generalizing opened with
  | zero => exact hlast
  | succ levels ih =>
      rw [watched, henter (opened + 1) (by omega), hpass (opened + 1) (by omega)]
      refine read_signed_of_error (ih (fun k hk => henter k (by omega))
        (fun k hk => hpass k (by omega)) ?_)
      rwa [Nat.add_right_comm]

theorem run_wholeWith_of_error {p : Phrase Expr} {x : ParseError} (hts : ts ≠ [])
    (h : p.read (before ts 0) = .error x) :
    ((wholeWith p).run (ts.map Except.ok : List (Except ParseError Token))).1 = .error x := by
  have hsum := read_sum_of_error h
  obtain ⟨t, ts, rfl⟩ := List.exists_cons_of_ne_nil hts
  rw [Reader.run_map_ok]
  change (Reader.feed ((sum p).run { current := some t } >>= _) ts).map Prod.fst = _
  rw [Reader.feed_bind]
  simp only [read, before, List.head?_cons, List.tail_cons] at hsum
  split at hsum
  · contradiction
  · next y hfeed =>
      obtain rfl : y = x := Except.error.inj hsum
      rw [hfeed]
      rfl

end Watched

/-- No source is asked more often than the limits allow, no more power phrases are ever under way
than may be nested, with one more that is refused as it begins, and a phrase that has succeeded has
passed the token that was in view. -/
theorem whole_bounded :
    (∀ (σ : Type) [TokenSource σ] (source : σ),
      whole.pulls source ≤ pullBound maxNesting maxOperations) ∧
    (∀ enter pass : Nat → Phrase Unit, (∀ k ≤ maxNesting + 1, enter k = pure ()) →
      (∀ k ≤ maxNesting, pass k = pure ()) →
        wholeWith (watched enter pass maxNesting 0) = whole) ∧
    ∀ (levels : Nat), ∀ p ∈ [sum (power levels), product (power levels), power levels,
        signed (power levels), exponent (power levels), value (power levels),
        group (power levels)],
      ∀ (σ : Type) [TokenSource σ] (source rest : σ) (before after : Progress) (e : Expr),
        (p.run before).run source = (.ok (e, after), rest) →
          before.current ≠ none ∧ 0 < (p.run before).pulls source := by
  refine ⟨fun σ _ source => ?_, fun enter pass henter hpass => ?_,
    fun levels p hp σ _ source rest before after e hrun => ?_⟩
  · obtain ⟨hok, herror⟩ := spends_whole.run source
    obtain ⟨answer, rest, hrun⟩ : ∃ answer rest, whole.run source = (answer, rest) := ⟨_, _, rfl⟩
    rw [Nat.zero_add] at hok herror
    cases answer with
    | ok e => exact hok e rest hrun
    | error x => exact herror x rest hrun
  · rw [watched_eq_power (fun k hk => henter k (by omega)) fun k hk => hpass k (by omega)]
    rfl
  · have htakes : Takes p := by
      have hpower := takes_power levels
      simp only [List.mem_cons, List.not_mem_nil, or_false] at hp
      obtain rfl | rfl | rfl | rfl | rfl | rfl | rfl := hp
      · exact takes_sum hpower
      · exact takes_product hpower
      · exact hpower
      · exact takes_signed _
      · exact takes_exponent _
      · exact takes_value _
      · exact takes_group hpower
    simpa using ((htakes before 0).run source).1 (e, after) rest hrun

/-- An observer who stops the reading when more than `limit` power phrases are open. -/
def alarm (limit opened : Nat) : Phrase Unit :=
  if opened ≤ limit then pure () else refuse .emptyInput

theorem alarm_of_le {limit k : Nat} (h : k ≤ limit) : alarm limit k = pure () := if_pos h

/-- The power in front of `)` is read with three requests; the failure behind it is not heard. -/
theorem whole_bounded_power :
    whole.pulls ([.ok (.name (.var "x")), .error .decimalComma] :
        List (Except ParseError Token)) ≤ pullBound maxNesting maxOperations ∧
      wholeWith (watched (alarm (maxNesting + 1)) (alarm maxNesting) maxNesting 0) = whole ∧
      ((exponent (power 1)).run { current := some (.name (.var "x")) }).run
          ([.ok .powOp, .ok (.name (.var "y")), .ok .closeParen, .error .decimalComma] :
            List (Except ParseError Token)) =
        (.ok (.binary .power (.var "x") (.var "y"), ⟨some .closeParen, 1⟩),
          [.error .decimalComma]) ∧
      0 < ((exponent (power 1)).run { current := some (.name (.var "x")) }).pulls
          ([.ok .powOp, .ok (.name (.var "y")), .ok .closeParen, .error .decimalComma] :
            List (Except ParseError Token)) :=
  ⟨whole_bounded.1 _ _, whole_bounded.2.1 _ _ (fun _ => alarm_of_le) (fun _ => alarm_of_le), rfl,
    (whole_bounded.2.2 1 (exponent (power 1)) (by simp) _ _ [.error .decimalComma]
      { current := some (.name (.var "x")) } ⟨some .closeParen, 1⟩ _ rfl).2⟩

/-- As many groups as phrases may be nested begin one phrase more, which is then refused. -/
theorem whole_enters_beyond :
    (∀ k ≤ maxNesting, alarm maxNesting k = pure ()) ∧
      (whole.run ((nestedName maxNesting (.var "x")).map Except.ok :
        List (Except ParseError Token))).1 = .error (.tooDeeplyNested maxNesting) ∧
      ((wholeWith (watched (alarm maxNesting) (alarm maxNesting) maxNesting 0)).run
        ((nestedName maxNesting (.var "x")).map Except.ok :
          List (Except ParseError Token))).1 = .error .emptyInput := by
  have hne : nestedName maxNesting (.var "x") ≠ [] := by simp [nestedName]
  have hpass : ∀ k ≤ 0 + maxNesting, alarm maxNesting k = pure () :=
    fun k hk => alarm_of_le (by omega)
  have henter : ∀ k ≤ 0 + maxNesting + 1, alarm (maxNesting + 1) k = pure () :=
    fun k hk => alarm_of_le (by omega)
  have hunheard :
      wholeWith (watched (alarm (maxNesting + 1)) (alarm maxNesting) maxNesting 0) = whole :=
    congrArg wholeWith (watched_eq_power henter hpass)
  refine ⟨fun _ => alarm_of_le, ?_, ?_⟩
  · rw [← hunheard]
    exact run_wholeWith_of_error hne
      (read_watched_groups (fun k hk => henter k (by omega)) hpass rfl)
  · exact run_wholeWith_of_error hne (read_watched_groups hpass hpass rfl)

end Phrase
end Formula
