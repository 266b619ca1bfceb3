import Mathlib.Algebra.Ring.Nat
import Formula.Decimal.Shortest

/-!
The double nearest to a decimal depends on the number alone and not on how many zeros end its
fraction. The exact decimal of a double is nearest to that double, so the shortest one is as well:
it is found among decimals that read back, or else is the exact one.
-/

namespace Formula

theorem roundHalfEven_mul {k : Nat} (hk : 0 < k) (a b : Nat) :
    roundHalfEven (k * a) (k * b) = roundHalfEven a b := by
  have hleft : 2 * (k * (a % b)) < k * b ↔ 2 * (a % b) < b := by
    rw [Nat.mul_left_comm]
    exact Nat.mul_lt_mul_left hk
  have hright : k * b < 2 * (k * (a % b)) ↔ b < 2 * (a % b) := by
    rw [Nat.mul_left_comm]
    exact Nat.mul_lt_mul_left hk
  simp only [roundHalfEven, Nat.mul_div_mul_left a b hk, Nat.mul_mod_mul_left, hleft, hright]

theorem roundHalfEven_mul_self {b : Nat} (hb : 0 < b) (a : Nat) : roundHalfEven (a * b) b = a := by
  simp only [roundHalfEven, Nat.mul_mod_left, Nat.mul_div_cancel a hb]
  exact if_pos (by omega)

namespace Decimal

theorem unit_pos (d : Decimal) : 0 < d.unit := Nat.pow_pos (by decide)

theorem unit_succ (n places : Nat) : (⟨n, places + 1⟩ : Decimal).unit = 10 * 10 ^ places :=
  Nat.pow_succ'

theorem nearest_trailing_zero (n places : Nat) :
    (⟨10 * n, places + 1⟩ : Decimal).nearest = (⟨n, places⟩ : Decimal).nearest := by
  simp only [nearest, unit_succ, Nat.shiftLeft_eq, Nat.mul_assoc,
    Nat.mul_div_mul_left _ _ (by decide : 0 < 10), roundHalfEven_mul (by decide : 0 < 10)]
  rfl

theorem nearest_reduce (d : Decimal) : d.reduce.nearest = d.nearest := by
  obtain ⟨n, places⟩ := d
  change (reduce.go n places).nearest = _
  induction places generalizing n with
  | zero => rfl
  | succ places ih =>
      rw [reduce.go]
      split
      · next hzero =>
          have hn : 10 * (n / 10) = n := by omega
          rw [ih, ← nearest_trailing_zero, hn]
      · rfl

/-- A decimal that is a whole mantissa times a power of two in units of the least double. The
mantissa is full unless the power is the least one. -/
theorem nearest_of_units {d : Decimal} {m s : Nat} (hm : m < 2 ^ 53) (hs : s = 0 ∨ 2 ^ 52 ≤ m)
    (h : d.numerator <<< 1074 = m * 2 ^ s * d.unit) :
    d.nearest = min (m + s * 2 ^ 52) infinityCode := by
  -- the quotient is `m * 2 ^ s`, and what is rounded off again is the power of two
  have hshift : (m * 2 ^ s).log2 - 52 = s := by
    obtain rfl | hfull := hs
    · obtain rfl | hne := Nat.eq_zero_or_pos m
      · simp
      · have hlog : m.log2 < 53 := (Nat.log2_lt (by omega)).mpr hm
        rw [Nat.pow_zero, Nat.mul_one]
        omega
    · have hlog : (m * 2 ^ s).log2 = 52 + s := by
        have hpos := Nat.two_pow_pos s
        refine (Nat.log2_eq_iff (Nat.mul_ne_zero (by omega) (by omega))).mpr ⟨?_, ?_⟩
        · rw [Nat.pow_add]
          exact Nat.mul_le_mul_right _ hfull
        · rw [Nat.add_right_comm, Nat.pow_add]
          exact Nat.mul_lt_mul_of_pos_right hm hpos
      omega
  have hround : roundHalfEven (m * 2 ^ s * d.unit) (d.unit * 2 ^ s) = m := by
    rw [Nat.mul_assoc, Nat.mul_comm (2 ^ s)]
    exact roundHalfEven_mul_self (Nat.mul_pos d.unit_pos (Nat.two_pow_pos s)) m
  rw [nearest, h, Nat.mul_div_cancel _ d.unit_pos, hshift]
  simp only [Nat.shiftLeft_eq, hround]

theorem shiftLeft_mul_five_pow {s t : Nat} (h : s ≤ t) (m : Nat) :
    (m * 5 ^ (t - s)) <<< t = m * 2 ^ s * 10 ^ (t - s) := by
  obtain ⟨k, rfl⟩ := Nat.exists_eq_add_of_le h
  have hten : 10 ^ k = 2 ^ k * 5 ^ k := by rw [← Nat.mul_pow]
  have hmul (a b c : Nat) : m * c * (a * b) = m * a * (b * c) := by ac_rfl
  rw [Nat.add_sub_cancel_left, Nat.shiftLeft_eq, hten, Nat.pow_add]
  exact hmul (2 ^ s) (2 ^ k) (5 ^ k)

theorem exact_units (code : Nat) :
    ∃ m s, (exact code).numerator <<< 1074 = m * 2 ^ s * (exact code).unit ∧ m < 2 ^ 53 ∧
      (s = 0 ∨ 2 ^ 52 ≤ m) ∧ m + s * 2 ^ 52 = code := by
  have hexponent : code >>> 52 = code / 2 ^ 52 := Nat.shiftRight_eq_div_pow code 52
  have hmod : code % 2 ^ 52 < 2 ^ 52 := Nat.mod_lt _ (by decide)
  refine ⟨if code >>> 52 = 0 then code % 2 ^ 52 else 2 ^ 52 + code % 2 ^ 52, code >>> 52 - 1, ?_,
    ?_, ?_, ?_⟩
  · simp only [exact]
    split
    · next hle =>
        change (_ <<< (code >>> 52 - 1 - 1074)) <<< 1074 = _ * 1
        rw [← Nat.shiftLeft_add, Nat.sub_add_cancel hle, Nat.shiftLeft_eq, Nat.mul_one]
        rfl
    · next hlt => exact shiftLeft_mul_five_pow (by omega) _
  all_goals split <;> omega

theorem nearest_exact {code : Nat} (h : code < infinityCode) : (exact code).nearest = code := by
  obtain ⟨m, s, hunits, hm, hs, hcode⟩ := exact_units code
  rw [nearest_of_units hm hs hunits, hcode]
  exact Nat.min_eq_left (by omega)

/-- The shortest decimal of a finite double is nearest to it. -/
theorem nearest_shortest {code : Nat} (h : code < infinityCode) :
    (shortest code).nearest = code := by
  rw [shortest, nearest_reduce]
  -- a candidate is taken only if it reads back, and without one the exact decimal is kept
  cases hfound : (List.range (exact code).digitCount).findSome? fun n =>
      ((exact code).neighbours (n + 1)).find? fun candidate => candidate.nearest == code with
  | none => exact nearest_exact h
  | some d =>
      obtain ⟨n, -, hn⟩ := List.exists_of_findSome?_eq_some hfound
      simpa using List.find?_some hn

end Decimal
end Formula
