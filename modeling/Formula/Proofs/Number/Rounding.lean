import Mathlib
import Formula.Proofs.Number.Value

/-!
Rounding to the nearest double, of two to the even one. A number has one place down to which its
double is written, at most one double rounds it, and rounding keeps the order. No double is closer
than the rounded one, and the error is half a unit of the place.
-/

namespace Formula
namespace Number

/-- A whole number nearest to `x`, of two the even one. -/
structure HalfEven (x : ℚ) (n : ℤ) : Prop where
  near : |n - x| ≤ 1 / 2
  even : |n - x| = 1 / 2 → Even n

/-- The place of the last digit of a double near `r`: it leaves 53 digits unless it is the least. -/
structure Place (r : ℚ) (t : ℤ) : Prop where
  least : -1074 ≤ t
  short : |r| < 2 ^ 53 * 2 ^ t
  full : t = -1074 ∨ 2 ^ 52 * 2 ^ t ≤ |r|

/-- The double is the number rounded at its place, or infinite if that is too large. -/
structure Rounds (r : ℚ) (x : Float) : Prop where
  isNaN : x.isNaN = false
  rounded : ∃ t n, Place r t ∧ HalfEven (r / 2 ^ t) n ∧ value x = capped (n * 2 ^ t)

namespace HalfEven
variable {x : ℚ} {m n : ℤ}

theorem neg (h : HalfEven x n) : HalfEven (-x) (-n) := by
  have habs : |((-n : ℤ) : ℚ) - -x| = |n - x| := by
    rw [Int.cast_neg, neg_sub_neg, abs_sub_comm]
  exact ⟨habs ▸ h.near, fun htie => (h.even (habs ▸ htie)).neg⟩

/-- No whole number is closer. -/
theorem closest (h : HalfEven x n) (k : ℤ) : |n - x| ≤ |k - x| := by
  rcases eq_or_ne n k with rfl | hne
  · exact le_rfl
  · have hapart : (1 : ℚ) ≤ |(n : ℚ) - k| := by
      exact_mod_cast Int.one_le_abs (sub_ne_zero.mpr hne)
    have htriangle := abs_sub_le (n : ℚ) x k
    rw [abs_sub_comm x] at htriangle
    linarith [h.near]

theorem le (hm : HalfEven x m) (hn : HalfEven x n) : m ≤ n := by
  by_contra hlt
  have hstep : (n : ℚ) + 1 ≤ m := by exact_mod_cast Int.lt_of_not_ge hlt
  have hbelow := abs_le.mp hm.near
  have habove := abs_le.mp hn.near
  -- they are half a unit off on either side, so they are neighbours, and not both even
  have hmx : (m : ℚ) - x = 1 / 2 := by linarith
  have hnx : (n : ℚ) - x = -(1 / 2) := by linarith
  have hsucc : m = n + 1 := by
    have : (m : ℚ) = n + 1 := by linarith
    exact_mod_cast this
  have heven := hm.even (by rw [hmx]; norm_num)
  have heven' := hn.even (by rw [hnx]; norm_num)
  rw [hsucc] at heven
  exact Int.even_add_one.mp heven heven'

theorem unique (hm : HalfEven x m) (hn : HalfEven x n) : m = n :=
  le_antisymm (hm.le hn) (hn.le hm)

theorem eq_of_int {k : ℤ} (h : HalfEven k n) : n = k := by
  apply h.unique
  exact ⟨by norm_num, fun htie => by norm_num at htie⟩

variable {r u : ℚ}

theorem abs_sub_scaled (hu : 0 < u) (k : ℤ) : |k * u - r| = |k - r / u| * u := by
  rw [← abs_of_pos hu, ← abs_mul, abs_of_pos hu, sub_mul, div_mul_cancel₀ r hu.ne']

theorem scaled_near (h : HalfEven (r / u) n) (hu : 0 < u) : |n * u - r| ≤ u / 2 := by
  rw [abs_sub_scaled hu]
  linarith [mul_le_mul_of_nonneg_right h.near hu.le]

theorem scaled_closest (h : HalfEven (r / u) n) (hu : 0 < u) (k : ℤ) :
    |n * u - r| ≤ |k * u - r| := by
  rw [abs_sub_scaled hu, abs_sub_scaled hu]
  exact mul_le_mul_of_nonneg_right (h.closest k) hu.le

/-- Whole units up to the number are no closer than the rounded ones. -/
theorem scaled_le (h : HalfEven (r / u) n) (hu : 0 < u) {k : ℤ} (hk : k * u ≤ |r|) :
    |n * u - r| ≤ |r| - k * u := by
  rcases le_total 0 r with hr | hr
  · rw [abs_of_nonneg hr] at hk ⊢
    calc |n * u - r| ≤ |k * u - r| := h.scaled_closest hu k
      _ = -(k * u - r) := abs_of_nonpos (by linarith)
      _ = r - k * u := by ring
  · rw [abs_of_nonpos hr] at hk ⊢
    calc |n * u - r| ≤ |(-k : ℤ) * u - r| := h.scaled_closest hu (-k)
      _ = (-k : ℤ) * u - r := abs_of_nonneg (by push_cast; linarith)
      _ = -r - k * u := by push_cast; ring

end HalfEven

namespace Place
variable {r : ℚ} {s t : ℤ}

theorem unit_pos (t : ℤ) : (0 : ℚ) < 2 ^ t := by positivity

theorem pow_mul_unit (k : ℕ) (t : ℤ) : (2 : ℚ) ^ k * 2 ^ t = 2 ^ (k + t) := by
  rw [zpow_add₀ two_ne_zero, zpow_natCast]

theorem succ_unit_le (h : s < t) : 2 * (2 : ℚ) ^ s ≤ 2 ^ t := by
  rw [mul_comm, ← zpow_add_one₀ two_ne_zero]
  exact zpow_le_zpow_right₀ one_le_two h

theorem le (hs : Place r s) (ht : Place r t) : t ≤ s := by
  by_contra hlt
  have hlt : s < t := Int.lt_of_not_ge hlt
  have hfull := ht.full.resolve_left (by have := hs.least; omega)
  have hunit := succ_unit_le hlt
  linarith [hs.short]

theorem unique (hs : Place r s) (ht : Place r t) : s = t :=
  le_antisymm (ht.le hs) (hs.le ht)

theorem neg (h : Place r t) : Place (-r) t := by
  obtain ⟨hleast, hshort, hfull⟩ := h
  rw [← abs_neg] at hshort hfull
  exact ⟨hleast, hshort, hfull⟩

theorem least_full : (2 : ℚ) ^ 52 * 2 ^ (-1074 : ℤ) = 2 ^ (-1022 : ℤ) := by
  rw [pow_mul_unit]
  rfl

/-- A number of at least `2 ^ -1022` has all 53 digits. -/
theorem full_of_le (h : Place r t) (hr : 2 ^ (-1022 : ℤ) ≤ |r|) : 2 ^ 52 * 2 ^ t ≤ |r| := by
  rcases h.full with rfl | hfull
  · rwa [least_full]
  · exact hfull

/-- A whole number of large units is one of small units. -/
theorem exists_units (k : ℤ) (h : t ≤ s) : ∃ j : ℤ, (k : ℚ) * 2 ^ s = j * 2 ^ t := by
  obtain ⟨d, rfl⟩ : ∃ d : ℕ, s = d + t := ⟨(s - t).toNat, by omega⟩
  refine ⟨k * 2 ^ d, ?_⟩
  rw [← pow_mul_unit, Int.cast_mul, Int.cast_pow, Int.cast_ofNat, mul_assoc]

/-- A number of few digits is a whole number of units at its place. -/
theorem exists_int {k e : ℤ} (h : Place (k * 2 ^ e) t) (hk : |k| < 2 ^ 53) (he : -1074 ≤ e) :
    ∃ j : ℤ, (k : ℚ) * 2 ^ e = j * 2 ^ t := by
  rcases le_or_gt t e with hle | hlt
  · exact exists_units k hle
  · exfalso
    have hfull := h.full.resolve_left (by omega)
    have hk : |(k : ℚ)| < 2 ^ 53 := by exact_mod_cast hk
    have hunit := succ_unit_le hlt
    rw [abs_mul, abs_of_pos (unit_pos e)] at hfull
    have := mul_lt_mul_of_pos_right hk (unit_pos e)
    linarith

end Place

theorem abs_capped_sub_le {q r v : ℚ} (hv : |v| ≤ bound) (h : |q - r| ≤ |v - r|) :
    |capped q - r| ≤ |v - r| := by
  have hpos := bound_pos
  obtain ⟨hlow, hhigh⟩ := abs_le.mp hv
  rcases le_or_gt |q| bound with hle | hlt
  · rwa [capped_of_abs_le hle]
  · rcases lt_abs.mp hlt with hlt | hlt
    · have hcapped : capped q = bound := by
        rw [capped, min_eq_left hlt.le, max_eq_right (by linarith)]
      rw [hcapped]
      rcases le_total r bound with hr | hr
      · rw [abs_of_nonneg (by linarith)] at h ⊢
        linarith
      · rw [abs_of_nonpos (by linarith), abs_of_nonpos (by linarith)]
        linarith
    · have hcapped : capped q = -bound := by
        rw [capped, min_eq_right (by linarith), max_eq_left (by linarith)]
      rw [hcapped]
      rcases le_total (-bound) r with hr | hr
      · rw [abs_of_nonpos (by linarith)] at h ⊢
        linarith
      · rw [abs_of_nonneg (by linarith), abs_of_nonneg (by linarith)]
        linarith

theorem capped_le {q : ℚ} (h : 0 ≤ q) : capped q ≤ q :=
  max_le (by linarith [bound_pos]) (min_le_right _ _)

namespace Rounds
variable {r r' : ℚ} {x y : Float}

theorem closest (h : Rounds r x) (y : Float) : |value x - r| ≤ |value y - r| := by
  obtain ⟨t, n, hplace, heven, hvalue⟩ := h.rounded
  rw [hvalue]
  apply abs_capped_sub_le (abs_value_le y)
  obtain ⟨k, e, hy, hk, he⟩ := value_grid y
  have hunit := Place.unit_pos t
  rcases le_or_gt t e with hle | hlt
  · -- the other double is a whole number of units as well
    obtain ⟨j, hj⟩ := Place.exists_units k hle
    rw [hy, hj]
    exact heven.scaled_closest hunit j
  · -- the other double is not beyond the least number that has 53 digits at this place
    have hfull := hplace.full.resolve_left (by omega)
    have hsmall : |value y| ≤ 2 ^ 52 * 2 ^ t := by
      have hk : |(k : ℚ)| ≤ 2 ^ 53 := by exact_mod_cast hk
      have hdouble := Place.succ_unit_le hlt
      have hmul := mul_le_mul_of_nonneg_right hk (Place.unit_pos e).le
      rw [hy, abs_mul, abs_of_pos (Place.unit_pos e)]
      linarith
    have hgrid := heven.scaled_le hunit (k := 2 ^ 52) (by exact_mod_cast hfull)
    rw [Int.cast_pow, Int.cast_ofNat] at hgrid
    calc |n * 2 ^ t - r| ≤ |r| - 2 ^ 52 * 2 ^ t := hgrid
      _ ≤ |r| - |value y| := by linarith
      _ ≤ |r - value y| := abs_sub_abs_le_abs_sub r (value y)
      _ = |value y - r| := abs_sub_comm r (value y)

theorem value_unique (hx : Rounds r x) (hy : Rounds r y) : value x = value y := by
  obtain ⟨t, n, hplace, heven, hvalue⟩ := hx.rounded
  obtain ⟨t', n', hplace', heven', hvalue'⟩ := hy.rounded
  obtain rfl := hplace.unique hplace'
  obtain rfl := heven.unique heven'
  rw [hvalue, hvalue']

/-- Of two numbers the greater one is no closer only from the lower half. -/
theorem le_midpoint {a b c : ℚ} (h : |a - c| ≤ |b - c|) (hlt : b < a) : a + b ≤ 2 * c := by
  rcases le_total c b with hc | hc
  · rw [abs_of_nonneg (by linarith), abs_of_nonneg (by linarith)] at h
    linarith
  · rw [abs_of_nonpos (by linarith : b - c ≤ 0)] at h
    linarith [le_abs_self (a - c)]

theorem midpoint_le {a b c : ℚ} (h : |b - c| ≤ |a - c|) (hlt : b < a) : 2 * c ≤ a + b := by
  rcases le_total a c with hc | hc
  · rw [abs_of_nonpos (by linarith), abs_of_nonpos (by linarith)] at h
    linarith
  · rw [abs_of_nonneg (by linarith : 0 ≤ a - c)] at h
    linarith [neg_abs_le (b - c)]

theorem mono (hx : Rounds r x) (hy : Rounds r' y) (h : r ≤ r') : value x ≤ value y := by
  rcases h.eq_or_lt with rfl | hlt
  · exact (value_unique hx hy).le
  · by_contra hgt
    have hgt : value y < value x := lt_of_not_ge hgt
    have hlow := le_midpoint (hx.closest y) hgt
    have hhigh := midpoint_le (hy.closest x) hgt
    linarith

theorem le (hx : Rounds r x) (hy : Rounds r' y) (h : r ≤ r') : x ≤ y :=
  le_iff.mpr ⟨hx.isNaN, hy.isNaN, hx.mono hy h⟩

theorem value_le (h : Rounds r x) (hr : r ≤ value y) : value x ≤ value y := by
  by_contra hgt
  have hgt : value y < value x := lt_of_not_ge hgt
  linarith [le_midpoint (h.closest y) hgt]

theorem le_value (h : Rounds r x) (hr : value y ≤ r) : value y ≤ value x := by
  by_contra hgt
  have hgt : value x < value y := lt_of_not_ge hgt
  linarith [midpoint_le (h.closest y) hgt]

theorem le_of_le (h : Rounds r x) (hy : y.isFinite) (hr : r ≤ value y) : x ≤ y :=
  le_iff.mpr ⟨h.isNaN, isNaN_eq_false hy, h.value_le hr⟩

theorem ge_of_ge (h : Rounds r x) (hy : y.isFinite) (hr : value y ≤ r) : y ≤ x :=
  le_iff.mpr ⟨isNaN_eq_false hy, h.isNaN, h.le_value hr⟩

theorem zero_le (h : Rounds r x) (hr : 0 ≤ r) : 0.0 ≤ x := by
  apply h.ge_of_ge (y := 0.0) rfl
  rwa [value_zero]

/-- The number of a double rounds to itself. -/
theorem value_self (h : Rounds (value y) x) : value x = value y :=
  le_antisymm (h.value_le le_rfl) (h.le_value le_rfl)

/-- A number of few digits rounds to itself. -/
theorem value_eq {k e : ℤ} (h : Rounds (k * 2 ^ e) x) (hk : |k| < 2 ^ 53) (he : -1074 ≤ e)
    (he' : e ≤ 971) : value x = k * 2 ^ e := by
  obtain ⟨t, n, hplace, heven, hvalue⟩ := h.rounded
  obtain ⟨j, hj⟩ := hplace.exists_int hk he
  rw [Int.abs_eq_natAbs] at hk
  have hb : |(k * 2 ^ e : ℚ)| ≤ bound := by
    have hlt := magnitude_lt_bound (m := k.natAbs) (by exact_mod_cast hk) he'
    rw [Nat.cast_natAbs, Int.cast_abs] at hlt
    rw [abs_mul, abs_of_pos (Place.unit_pos e)]
    exact hlt.le
  rw [hj, mul_div_cancel_right₀ _ (Place.unit_pos t).ne'] at heven
  rw [hvalue, heven.eq_of_int, ← hj, capped_of_abs_le hb]

/-- Neither do the whole numbers that have at most 53 digits need rounding. -/
theorem value_natCast {n : ℕ} (h : Rounds n x) (hn : n < 2 ^ 53) : value x = n ∧ x.isFinite := by
  have hround : Rounds ((n : ℤ) * 2 ^ (0 : ℤ)) x := by
    rwa [zpow_zero, mul_one, Int.cast_natCast]
  have hvalue : value x = n * 2 ^ (0 : ℤ) :=
    hround.value_eq (by exact_mod_cast hn) (by decide) (by decide)
  have hlt : |value x| < bound := by
    rw [hvalue, abs_of_nonneg (by positivity)]
    exact magnitude_lt_bound hn (by decide)
  rw [zpow_zero, mul_one] at hvalue
  exact ⟨hvalue, (isFinite_iff h.isNaN).mpr hlt⟩

/-- Rounding makes a number that has 53 digits greater by one part in `2 ^ 53` at most. -/
theorem le_mul (h : Rounds r x) (hr : 2 ^ (-1022 : ℤ) ≤ r) : value x ≤ r * (1 + 1 / 2 ^ 53) := by
  obtain ⟨t, n, hplace, heven, hvalue⟩ := h.rounded
  have hpos : (0 : ℚ) < 2 ^ (-1022 : ℤ) := Place.unit_pos _
  have hfull := hplace.full_of_le (hr.trans (le_abs_self r))
  have hunit := Place.unit_pos t
  rw [abs_of_pos (by linarith)] at hfull
  obtain ⟨hlow, hhigh⟩ := abs_le.mp (heven.scaled_near hunit)
  rw [hvalue]
  calc capped (n * 2 ^ t) ≤ n * 2 ^ t := capped_le (by linarith)
    _ ≤ r + 2 ^ t / 2 := by linarith
    _ ≤ r * (1 + 1 / 2 ^ 53) := by linarith

end Rounds
end Number
end Formula
