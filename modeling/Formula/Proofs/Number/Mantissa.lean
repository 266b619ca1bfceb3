import Mathlib
import Formula.Proofs.Number.Rounding

/-!
The rounding of a mantissa. What was cut off below it is kept in two marks, which tell the half of a
unit and whether there is more; shifting the mantissa to the place of the double keeps them right,
and they decide which way it is rounded. Only a mantissa that becomes too long by this is shifted
once more, and then nothing is lost.
-/

namespace Formula
open Float.Model Float.Model.UnpackedFloat
namespace Number

/-- A mantissa with its guard bits stands for `x`: the one says whether at least half a unit is
missing, the other whether anything else is. -/
def Marks (em : ExtendedMantissa) (x : ℚ) : Prop :=
  match em.roundBit, em.stickyBit with
  | false, false => x = em.mantissa
  | false, true => em.mantissa < x ∧ x < em.mantissa + 1 / 2
  | true, false => x = em.mantissa + 1 / 2
  | true, true => em.mantissa + 1 / 2 < x ∧ x < em.mantissa + 1

theorem HalfEven.of_lt {x : ℚ} {n : ℤ} (h : |n - x| < 1 / 2) : HalfEven x n :=
  ⟨h.le, fun heq => absurd heq h.ne⟩

namespace Marks
variable {em : ExtendedMantissa} {x : ℚ}

theorem shiftRightOne (h : Marks em x) : Marks em.shiftRightOne (x / 2) := by
  obtain ⟨m, r, s⟩ := em
  have hm : ((m % 2 : ℕ) : ℚ) + 2 * ((m / 2 : ℕ) : ℚ) = m := by exact_mod_cast Nat.mod_add_div m 2
  rcases Nat.mod_two_eq_zero_or_one m with hmod | hmod <;> rw [hmod] at hm <;>
    cases r <;> cases s <;> simp [Marks, ExtendedMantissa.shiftRightOne, hmod] at h ⊢ <;>
    (try constructor) <;> push_cast at hm <;> linarith

theorem shiftRight (h : Marks em x) (n : ℕ) : Marks (em >>> n) (x / 2 ^ n) := by
  change Marks (n.repeat ExtendedMantissa.shiftRightOne em) _
  induction n with
  | zero =>
      rw [pow_zero, div_one]
      exact h
  | succ n ih =>
      rw [pow_succ, ← div_div]
      exact ih.shiftRightOne

theorem halfEven (h : Marks em x) : HalfEven x em.roundedMantissa := by
  obtain ⟨m, r, s⟩ := em
  cases r <;> cases s <;> simp only [Marks] at h
  · have hround : ExtendedMantissa.roundedMantissa ⟨m, false, false⟩ = m := rfl
    rw [hround]
    apply HalfEven.of_lt
    rw [h]
    norm_num
  · have hround : ExtendedMantissa.roundedMantissa ⟨m, false, true⟩ = m := rfl
    rw [hround]
    apply HalfEven.of_lt
    rw [abs_lt]
    push_cast
    constructor <;> linarith
  · have hround : ExtendedMantissa.roundedMantissa ⟨m, true, false⟩ = m + m % 2 := rfl
    rw [hround, h]
    constructor
    · rcases Nat.mod_two_eq_zero_or_one m with hm | hm <;> rw [hm] <;> push_cast <;>
        ring_nf <;> norm_num [abs_le]
    · intro _
      rw [Int.even_coe_nat]
      rcases Nat.mod_two_eq_zero_or_one m with hm | hm
      · rw [hm]
        exact Nat.even_iff.mpr hm
      · rw [hm]
        exact (Nat.odd_iff.mpr hm).add_one
  · have hround : ExtendedMantissa.roundedMantissa ⟨m, true, true⟩ = m + 1 := rfl
    rw [hround]
    apply HalfEven.of_lt
    rw [abs_lt]
    push_cast
    constructor <;> linarith

theorem mantissa_le (h : Marks em x) : em.mantissa ≤ x ∧ x < em.mantissa + 1 := by
  obtain ⟨m, r, s⟩ := em
  cases r <;> cases s <;> simp only [Marks] at h ⊢ <;> constructor <;> linarith

end Marks

/-- The place of a mantissa: it is left with 53 digits, or goes down to the least double. -/
theorem targetExponent_eq (m : ℕ) (e : ℤ) :
    Format.binary64.targetExponent (totalExponent m e) = max (m.log2 + e - 52) (-1074) := by
  change max ((m.log2 : ℤ) + 1 + e - 53) (-1074) = _
  congr 1
  omega

section Routine
variable {m : ℕ} {e t : ℤ} {x : ℚ}

theorem place_of_mantissa (ht : t = max (m.log2 + e - 52) (-1074)) (hm : 52 ≤ m.log2 ∨ e ≤ -1074)
    (hle : m ≤ x) (hlt : x < m + 1) : Place (x * 2 ^ e) t := by
  have hunit := Place.unit_pos e
  have hx : 0 ≤ x := le_trans (Nat.cast_nonneg m) hle
  have habs : |x * 2 ^ e| = x * 2 ^ e := abs_of_nonneg (by positivity)
  refine ⟨by omega, ?_, ?_⟩
  · have hlog : x < 2 ^ (m.log2 + 1) := by
      have : m + 1 ≤ 2 ^ (m.log2 + 1) := Nat.lt_log2_self
      have : (m : ℚ) + 1 ≤ 2 ^ (m.log2 + 1) := by exact_mod_cast this
      linarith
    rw [habs]
    calc x * 2 ^ e < 2 ^ (m.log2 + 1) * 2 ^ e := by gcongr
      _ = 2 ^ ((m.log2 + 1 : ℕ) + e) := Place.pow_mul_unit _ e
      _ ≤ 2 ^ ((53 : ℕ) + t) := zpow_le_zpow_right₀ one_le_two (by push_cast; omega)
      _ = 2 ^ 53 * 2 ^ t := (Place.pow_mul_unit 53 t).symm
  · rcases eq_or_ne t (-1074) with h | h
    · exact .inl h
    · right
      have hlog : (2 : ℚ) ^ m.log2 ≤ m := by
        have hne : m ≠ 0 := by
          rintro rfl
          rw [Nat.log2_zero] at hm ht
          omega
        exact_mod_cast Nat.log2_self_le hne
      rw [habs]
      calc (2 : ℚ) ^ 52 * 2 ^ t = 2 ^ ((52 : ℕ) + t) := Place.pow_mul_unit 52 t
        _ = 2 ^ ((m.log2 : ℤ) + e) := by congr 1; push_cast; omega
        _ = 2 ^ m.log2 * 2 ^ e := (Place.pow_mul_unit _ e).symm
        _ ≤ x * 2 ^ e := by gcongr; linarith

/-- A rounded mantissa and its place as a double: a full mantissa is carried over. -/
def carried (s : Sign) (n : ℕ) (t : ℤ) : UnpackedFloat :=
  if h : n = 0 then .zero s
  else if n < 2 ^ 53 then .finite s n t (Nat.pos_of_ne_zero h)
  else .finite s (2 ^ 52) (t + 1) (by decide)

theorem shift_small {n : ℕ} (hn : n < 2 ^ 53) (ht : -1074 ≤ t) :
    shiftToTargetExponent Format.binary64 n t .exact = (⟨n, false, false⟩, t) := by
  have hlog : n.log2 ≤ 52 := by
    rcases Nat.eq_zero_or_pos n with rfl | hpos
    · decide
    · have := (Nat.log2_lt hpos.ne').mpr hn
      omega
  have hshift : (max ((n.log2 : ℤ) + t - 52) (-1074) - t).toNat = 0 := by omega
  rw [shiftToTargetExponent, targetExponent_eq, shiftToExponent, hshift]
  exact congrArg _ (add_zero t)

theorem shift_carry (ht : -1074 ≤ t) :
    shiftToTargetExponent Format.binary64 (2 ^ 53) t .exact = (⟨2 ^ 52, false, false⟩, t + 1) := by
  have hlog : (2 ^ 53).log2 = 53 := Nat.log2_two_pow
  have hshift : (max (((2 ^ 53).log2 : ℤ) + t - 52) (-1074) - t).toNat = 1 := by
    rw [hlog]
    omega
  rw [shiftToTargetExponent, targetExponent_eq, shiftToExponent, hshift]
  rfl

theorem roundWithAccuracy_eq (s : Sign) (acc : Accuracy)
    (ht : t = max (m.log2 + e - 52) (-1074)) (hm : 52 ≤ m.log2 ∨ e ≤ -1074)
    (hn : (ExtendedMantissa.ofMantissaAndAccuracy m acc >>> (t - e).toNat).roundedMantissa ≤
      2 ^ 53) :
    roundWithAccuracy Format.binary64 s m e acc = carried s
      (ExtendedMantissa.ofMantissaAndAccuracy m acc >>> (t - e).toNat).roundedMantissa t := by
  have hexp : e + (t - e).toNat = t := by omega
  have hfirst : shiftToTargetExponent Format.binary64 m e acc =
      (ExtendedMantissa.ofMantissaAndAccuracy m acc >>> (t - e).toNat, t) := by
    rw [shiftToTargetExponent, targetExponent_eq, shiftToExponent, ← ht, hexp]
  rw [roundWithAccuracy, hfirst]
  dsimp only
  generalize (ExtendedMantissa.ofMantissaAndAccuracy m acc >>> (t - e).toNat).roundedMantissa = n
    at hn ⊢
  rcases hn.lt_or_eq with hlt | rfl
  · rw [shift_small hlt (by omega)]
    simp only [carried, if_pos hlt]
  · rw [shift_carry (by omega)]
    rfl

section Carried
variable {n : ℕ} {s : Sign} {r : ℚ}

theorem carried_ne (s : Sign) (n : ℕ) (t : ℤ) : carried s n t ≠ .notANumber := by
  rw [carried]
  split
  · exact nofun
  · split <;> exact nofun

theorem regular_carried (ht : -1074 ≤ t) (hfull : 2 ^ 52 ≤ n ∨ t = -1074) :
    Regular (carried s n t) := by
  rw [carried]
  split
  · trivial
  · split
    · next hlt => exact ⟨hlt, ht, hfull⟩
    · exact ⟨by decide, by omega, .inl le_rfl⟩

theorem carry_unit (t : ℤ) : ((2 ^ 53 : ℕ) : ℚ) * 2 ^ t = (2 ^ 52 : ℕ) * 2 ^ (t + 1) := by
  rw [zpow_add_one₀ two_ne_zero]
  push_cast
  ring

theorem worth_carried (hn : n ≤ 2 ^ 53) : worth (carried s n t) = (s.apply n : ℤ) * 2 ^ t := by
  rw [← signed_mul, carried]
  split
  · next h =>
      rw [h]
      cases s <;> simp [worth, signed]
  · split
    · rfl
    · next hlt =>
        have hn : n = 2 ^ 53 := by omega
        rw [worth, hn, carry_unit]

theorem Place.signed (s : Sign) (h : Place r t) : Place (signed s r) t := by
  cases s with
  | negative => exact h.neg
  | positive => exact h

theorem HalfEven.signed (s : Sign) {u : ℚ} (h : HalfEven (r / u) n) :
    HalfEven (signed s r / u) (s.apply n) := by
  cases s with
  | negative =>
      change HalfEven (-r / u) (-n)
      rw [neg_div]
      exact h.neg
  | positive => exact h

/-- A mantissa has at most 53 digits after rounding as well, or is the next power of two. -/
theorem mantissa_bounds (hplace : Place r t) (hr : 0 ≤ r) (h : HalfEven (r / 2 ^ t) n) :
    n ≤ 2 ^ 53 ∧ (2 ^ 52 ≤ n ∨ t = -1074) := by
  have hunit := Place.unit_pos t
  obtain ⟨hlow, hhigh⟩ := abs_le.mp h.near
  rw [Int.cast_natCast] at hlow hhigh
  obtain ⟨-, hshort, hfull⟩ := hplace
  rw [abs_of_nonneg hr] at hshort hfull
  constructor
  · have hlt := (div_lt_iff₀ hunit).mpr hshort
    have hn : (n : ℚ) < (2 ^ 53 + 1 : ℕ) := by
      push_cast
      linarith
    have := Nat.cast_lt.mp hn
    omega
  · rcases hfull with hleast | hfull
    · exact .inr hleast
    · left
      have hle := (le_div_iff₀ hunit).mpr hfull
      have hn : ((2 ^ 52 : ℕ) : ℚ) < (n + 1 : ℕ) := by
        push_cast
        linarith
      have := Nat.cast_lt.mp hn
      omega

theorem rounds_carried (s : Sign) (hplace : Place r t) (hr : 0 ≤ r) (h : HalfEven (r / 2 ^ t) n) :
    Rounds (signed s r) ⟨Float.Model.pack (carried s n t)⟩ := by
  obtain ⟨hn, hfull⟩ := mantissa_bounds hplace hr h
  have hregular : Regular (carried s n t) := regular_carried hplace.least hfull
  refine ⟨isNaN_pack hregular (carried_ne s n t), t, s.apply n, hplace.signed s, h.signed s, ?_⟩
  rw [value_pack hregular, worth_carried hn]

end Carried

theorem mantissa_ofMantissaAndAccuracy (m : ℕ) (acc : Accuracy) :
    (ExtendedMantissa.ofMantissaAndAccuracy m acc).mantissa = m := by
  rcases acc with _ | _ | _ | _ <;> rfl

/-- The rounding of a mantissa with guard bits. -/
theorem rounds_roundWithAccuracy (s : Sign) {acc : Accuracy} (hm : 52 ≤ m.log2 ∨ e ≤ -1074)
    (hx : Marks (.ofMantissaAndAccuracy m acc) x) :
    Rounds (signed s (x * 2 ^ e)) ⟨Float.Model.pack
      (roundWithAccuracy Format.binary64 s m e acc)⟩ := by
  obtain ⟨t, ht⟩ : ∃ t, t = max ((m.log2 : ℤ) + e - 52) (-1074) := ⟨_, rfl⟩
  obtain ⟨hle, hlt⟩ := hx.mantissa_le
  rw [mantissa_ofMantissaAndAccuracy] at hle hlt
  have hnonneg : 0 ≤ x * 2 ^ e := mul_nonneg ((Nat.cast_nonneg m).trans hle) (Place.unit_pos e).le
  have hplace := place_of_mantissa ht hm hle hlt
  have hscale : x * 2 ^ e / 2 ^ t = x / 2 ^ (t - e).toNat := by
    obtain ⟨d, rfl⟩ : ∃ d : ℕ, t = d + e := ⟨(t - e).toNat, by omega⟩
    have hd : ((d + e : ℤ) - e).toNat = d := by omega
    rw [hd, ← Place.pow_mul_unit, mul_div_mul_right _ _ (Place.unit_pos e).ne']
  have heven := (hx.shiftRight (t - e).toNat).halfEven
  rw [← hscale] at heven
  rw [roundWithAccuracy_eq s acc ht hm (mantissa_bounds hplace hnonneg heven).1]
  exact rounds_carried s hplace hnonneg heven

end Routine

theorem marks_exact (m : ℕ) : Marks (.ofMantissaAndAccuracy m .exact) m := rfl

theorem marks_fraction (m : ℕ) {a b : ℕ} (h : a < b) :
    Marks (.ofMantissaAndAccuracy m (accuracyOfFraction a b)) (m + a / b) := by
  have hb : (0 : ℚ) < b := by exact_mod_cast (Nat.zero_le a).trans_lt h
  rw [accuracyOfFraction]
  split
  · next hzero =>
      rw [hzero, Nat.cast_zero, zero_div, add_zero]
      exact marks_exact m
  · next hpos =>
      have ha : (0 : ℚ) < a := by exact_mod_cast Nat.pos_of_ne_zero hpos
      rcases lt_trichotomy (2 * a) b with hlt | heq | hgt
      · have hhalf : (2 : ℚ) * a < b := by exact_mod_cast hlt
        rw [compare_lt_iff_lt.mpr hlt]
        have : (a : ℚ) / b < 1 / 2 := by rw [div_lt_div_iff₀ hb two_pos]; linarith
        have : 0 < (a : ℚ) / b := by positivity
        constructor <;> dsimp only [ExtendedMantissa.ofMantissaAndAccuracy] <;> linarith
      · have hhalf : (2 : ℚ) * a = b := by exact_mod_cast heq
        rw [compare_eq_iff_eq.mpr heq]
        have : (a : ℚ) / b = 1 / 2 := by rw [div_eq_div_iff hb.ne' two_ne_zero]; linarith
        change (m : ℚ) + a / b = m + 1 / 2
        rw [this]
      · have hhalf : (b : ℚ) < 2 * a := by exact_mod_cast hgt
        have hone : (a : ℚ) < b := by exact_mod_cast h
        rw [compare_gt_iff_gt.mpr hgt]
        have : 1 / 2 < (a : ℚ) / b := by rw [div_lt_div_iff₀ two_pos hb]; linarith
        have : (a : ℚ) / b < 1 := by rwa [div_lt_one hb]
        constructor <;> dsimp only [ExtendedMantissa.ofMantissaAndAccuracy] <;> linarith

end Number
end Formula
