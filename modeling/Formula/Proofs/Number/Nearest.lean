import Mathlib
import Formula.Proofs.Decimal.ReadBack
import Formula.Proofs.Number.Mantissa

/-!
The double of a decimal is the nearest one. Its code counts the units of the place to which the
decimal is rounded, a carry into the exponent included. The number that digits write is said apart
from the way they are read, and only one double without a sign is nearest to it.
-/

namespace Formula
open Float.Model Float.Model.UnpackedFloat
namespace Number

/-- What is rounded off decides as its marks do. -/
theorem roundedMantissa_eq {a b : ℕ} (hb : 0 < b) :
    (ExtendedMantissa.ofMantissaAndAccuracy (a / b)
      (accuracyOfFraction (a % b) b)).roundedMantissa = roundHalfEven a b := by
  rw [accuracyOfFraction, roundHalfEven]
  split
  · next hzero =>
      rw [hzero, if_pos (by omega)]
      rfl
  · rcases lt_trichotomy (2 * (a % b)) b with hlt | heq | hgt
    · rw [compare_lt_iff_lt.mpr hlt, if_pos hlt]
      rfl
    · rw [compare_eq_iff_eq.mpr heq, if_neg (by omega), if_neg (by omega)]
      rfl
    · rw [compare_gt_iff_gt.mpr hgt, if_neg (by omega), if_pos hgt]
      rfl

theorem marks_quotient (a : ℕ) {b : ℕ} (hb : 0 < b) :
    Marks (.ofMantissaAndAccuracy (a / b) (accuracyOfFraction (a % b) b)) (a / b) := by
  have hne : (b : ℚ) ≠ 0 := by exact_mod_cast hb.ne'
  have hsplit : (a / b : ℕ) + ((a % b : ℕ) : ℚ) / b = a / b := by
    rw [eq_div_iff hne, add_mul, div_mul_cancel₀ _ hne]
    exact_mod_cast Nat.div_add_mod' a b
  have hmarks := marks_fraction (a / b) (Nat.mod_lt a hb)
  rwa [hsplit] at hmarks

theorem halfEven_roundHalfEven (a : ℕ) {b : ℕ} (hb : 0 < b) :
    HalfEven (a / b) (roundHalfEven a b) := by
  have heven := (marks_quotient a hb).halfEven
  rwa [roundedMantissa_eq hb] at heven

section Code
variable {x : Float} {m s : ℕ}

/-- The double of a code below that of infinity. -/
theorem value_of_code (hs : isNegative x = false) (hlt : code x < infinityCode) :
    value x = if code x / 2 ^ 52 = 0 then ((code x % 2 ^ 52 : ℕ) : ℚ) * 2 ^ (-1074 : ℤ)
      else ((2 ^ 52 + code x % 2 ^ 52 : ℕ) : ℚ) * 2 ^ ((code x / 2 ^ 52 : ℕ) - 1075 : ℤ) := by
  have hbits := toNat_toBits_lt hs
  have hexponent := toNat_unpackExponent x.toBits.toBitVec
  have hmantissa := toNat_unpackMantissa x.toBits.toBitVec
  change _ = x.toBits.toNat / 2 ^ 52 % 2 ^ 11 at hexponent
  change _ = x.toBits.toNat % 2 ^ 52 at hmantissa
  rw [Nat.mod_eq_of_lt (by omega)] at hexponent
  have hunpack := unpack_packComponents
    (Sign.ofBitVec (@unpackSign Format.binary64 x.toBits.toBitVec)) _
    (@unpackMantissa Format.binary64 x.toBits.toBitVec)
    (exponent_ne_of_isFinite (isFinite_of_code_lt hs hlt))
  rw [packComponents_unpack, @sign_positive x.toBits.toBitVec hbits] at hunpack
  change worth (UnpackedFloat.unpack Format.binary64 x.toBits.toBitVec) = _
  rw [hunpack, code_eq hs, ← hexponent, ← hmantissa]
  by_cases hzero : @unpackExponent Format.binary64 x.toBits.toBitVec = 0#11
  · have hfield : (@unpackExponent Format.binary64 x.toBits.toBitVec).toNat = 0 :=
      congrArg BitVec.toNat hzero
    rw [if_pos hzero, if_pos hfield]
    split
    · next hm =>
        rw [hm]
        simp [worth]
    · rfl
  · have hfield : (@unpackExponent Format.binary64 x.toBits.toBitVec).toNat ≠ 0 := fun h =>
      hzero (BitVec.eq_of_toNat_eq h)
    rw [if_neg hzero, if_neg hfield]
    rfl

theorem value_of_infinity (hs : isNegative x = false) (h : code x = infinityCode) :
    value x = bound := by
  rw [← ofBits_code hs, h]
  rfl

/-- A mantissa with its exponent, one that is full carried over. -/
theorem value_of_units (hs : isNegative x = false) (hm : m ≤ 2 ^ 53) (hfull : 2 ^ 52 ≤ m ∨ s = 0)
    (hcode : code x = m + s * 2 ^ 52) (hlt : code x < infinityCode) :
    value x = m * 2 ^ (s - 1074 : ℤ) := by
  rw [value_of_code hs hlt, hcode]
  rcases lt_or_ge m (2 ^ 52) with hsmall | hlarge
  · obtain rfl := hfull.resolve_left (by omega)
    have hexponent : (m + 0 * 2 ^ 52) / 2 ^ 52 = 0 := by omega
    have hmantissa : (m + 0 * 2 ^ 52) % 2 ^ 52 = m := by omega
    rw [if_pos hexponent, hmantissa]
    rfl
  · rcases hm.lt_or_eq with hm | rfl
    · have hexponent : (m + s * 2 ^ 52) / 2 ^ 52 = s + 1 := by omega
      have hmantissa : 2 ^ 52 + (m + s * 2 ^ 52) % 2 ^ 52 = m := by omega
      rw [if_neg (by omega), hexponent, hmantissa]
      congr 2
      push_cast
      ring
    · have hexponent : (2 ^ 53 + s * 2 ^ 52) / 2 ^ 52 = s + 2 := by omega
      have hmantissa : (2 ^ 53 + s * 2 ^ 52) % 2 ^ 52 = 0 := by omega
      have hstep : ((s + 2 : ℕ) - 1075 : ℤ) = s - 1074 + 1 := by push_cast; ring
      rw [if_neg (by omega), hexponent, hmantissa, hstep, carry_unit, Nat.add_zero]

theorem bound_le_of_units (hm : m ≤ 2 ^ 53) (hfull : 2 ^ 52 ≤ m ∨ s = 0)
    (h : infinityCode ≤ m + s * 2 ^ 52) : bound ≤ m * 2 ^ (s - 1074 : ℤ) := by
  change 2047 * 2 ^ 52 ≤ _ at h
  have hlarge : 2 ^ 52 ≤ m := hfull.resolve_right (by omega)
  rcases hm.lt_or_eq with hm | rfl
  · exact bound_le_magnitude hlarge (by omega)
  · rw [carry_unit]
    exact bound_le_magnitude le_rfl (by omega)

theorem value_of_code_capped (hs : isNegative x = false) (hm : m ≤ 2 ^ 53)
    (hfull : 2 ^ 52 ≤ m ∨ s = 0) (hcode : code x = min (m + s * 2 ^ 52) infinityCode) :
    value x = capped (m * 2 ^ (s - 1074 : ℤ)) := by
  rcases lt_or_ge (m + s * 2 ^ 52) infinityCode with hlt | hge
  · rw [min_eq_left hlt.le] at hcode
    have hvalue := value_of_units hs hm hfull hcode (hcode ▸ hlt)
    rw [hvalue, capped_of_abs_le (hvalue ▸ abs_value_le x)]
  · rw [min_eq_right hge] at hcode
    rw [value_of_infinity hs hcode]
    exact (capped_signed (s := .positive) (bound_le_of_units hm hfull hge)).symm

/-- The rounding of a quotient that counts the least doubles. -/
theorem rounds_quotient {a b : ℕ} (hb : 0 < b) (hn : x.isNaN = false) (hs : isNegative x = false)
    (hshift : s = (a / b).log2 - 52)
    (hcode : code x = min (roundHalfEven a (b <<< s) + s <<< 52) infinityCode) :
    Rounds (a / b * 2 ^ (-1074 : ℤ)) x := by
  rw [Nat.shiftLeft_eq, Nat.shiftLeft_eq] at hcode
  obtain ⟨hle, hlt⟩ := (marks_quotient a hb).mantissa_le
  rw [mantissa_ofMantissaAndAccuracy] at hle hlt
  have hplace : Place (a / b * 2 ^ (-1074 : ℤ)) (s - 1074) :=
    place_of_mantissa (by omega) (.inr le_rfl) hle hlt
  have hscale : (a / b * 2 ^ (-1074 : ℤ) / 2 ^ (s - 1074 : ℤ) : ℚ) = a / (b * 2 ^ s : ℕ) := by
    rw [sub_eq_add_neg, ← Place.pow_mul_unit, mul_div_mul_right _ _ (Place.unit_pos _).ne', div_div]
    push_cast
    rfl
  have heven := halfEven_roundHalfEven a (Nat.mul_pos hb (Nat.two_pow_pos s))
  rw [← hscale] at heven
  obtain ⟨hm, hfull⟩ := mantissa_bounds hplace (by positivity) heven
  refine ⟨hn, _, _, hplace, heven, ?_⟩
  rw [value_of_code_capped hs hm (hfull.imp_right (by omega)) hcode]
  rfl

end Code
end Number

namespace Decimal
open Number

theorem units_div (n u k : ℕ) : ((n <<< k : ℕ) : ℚ) / u * 2 ^ (-k : ℤ) = n / u := by
  have hpow : (2 : ℚ) ^ k ≠ 0 := by positivity
  rw [Nat.shiftLeft_eq, Nat.cast_mul, Nat.cast_pow, zpow_neg, zpow_natCast, mul_div_right_comm]
  exact mul_inv_cancel_right₀ hpow _

/-- The double of a decimal is the nearest one. -/
theorem rounds_toFloat (d : Decimal) : Rounds (d.numerator / 10 ^ d.places) d.toFloat := by
  have hunits : ((d.numerator <<< 1074 : ℕ) : ℚ) / d.unit * 2 ^ (-1074 : ℤ) =
      d.numerator / 10 ^ d.places :=
    (units_div d.numerator d.unit 1074).trans (congrArg _ (Nat.cast_pow 10 d.places))
  rw [← hunits]
  apply rounds_quotient d.unit_pos d.isNaN_toFloat d.isNegative_toFloat rfl
  rw [code_eq d.isNegative_toFloat, toNat_toBits_toFloat]
  rfl

/-- The number that a run of digits writes. -/
def digitsValue (ds : List Char) : ℕ :=
  Nat.ofDigits 10 (ds.reverse.map fun c => c.toNat - '0'.toNat)

/-- The number that digits before and after a point write. -/
def written (whole fraction : List Char) : ℚ :=
  digitsValue whole + digitsValue fraction / 10 ^ fraction.length

theorem digitsValue_cons (c : Char) (ds : List Char) :
    digitsValue (c :: ds) = digitsValue ds + 10 ^ ds.length * (c.toNat - '0'.toNat) := by
  simp [digitsValue, Nat.ofDigits_append]

theorem ofDigitChars_eq (ds : List Char) (n : ℕ) :
    Nat.ofDigitChars 10 ds n = 10 ^ ds.length * n + digitsValue ds := by
  induction ds generalizing n with
  | nil => simp [digitsValue]
  | cons c ds ih =>
      rw [Nat.ofDigitChars_cons, ih, digitsValue_cons, List.length_cons]
      ring

/-- The digits read as one numerator write the same number. -/
theorem written_eq (whole fraction : List Char) :
    written whole fraction =
      (ofDigits whole fraction).numerator / 10 ^ (ofDigits whole fraction).places := by
  have hpow : (10 : ℚ) ^ fraction.length ≠ 0 := by positivity
  change _ = ((Nat.ofDigitChars 10 (whole ++ fraction) 0 : ℕ) : ℚ) / 10 ^ fraction.length
  rw [Nat.ofDigitChars_append, ofDigitChars_eq, ofDigitChars_eq, written]
  push_cast
  field_simp
  ring

example : written ['1', '2'] ['5'] = 25 / 2 := by decide +kernel

/-- The digits denote the double that is nearest to the number they write and has no sign. -/
structure Denotes (whole fraction : List Char) (x : Float) : Prop where
  rounds : Rounds (written whole fraction) x
  unsigned : isNegative x = false

section Denotes
variable {whole fraction : List Char} {x y : Float}

theorem denotes_toFloat (whole fraction : List Char) :
    Denotes whole fraction (ofDigits whole fraction).toFloat :=
  ⟨written_eq whole fraction ▸ rounds_toFloat _, isNegative_toFloat _⟩

theorem Denotes.ne_neg_zero (h : Denotes whole fraction x) : x ≠ -0.0 := by
  rintro rfl
  exact absurd h.unsigned (by decide)

/-- The digits denote one double only. -/
theorem Denotes.unique (hx : Denotes whole fraction x) (hy : Denotes whole fraction y) : x = y := by
  rw [← Number.beq_iff_eq hx.rounds.isNaN hx.ne_neg_zero hy.ne_neg_zero, beq_iff]
  exact ⟨hx.rounds.isNaN, hy.rounds.isNaN, hx.rounds.value_unique hy.rounds⟩

theorem denotes_iff : Denotes whole fraction x ↔ x = (ofDigits whole fraction).toFloat :=
  ⟨fun h => h.unique (denotes_toFloat whole fraction), fun h => h ▸ denotes_toFloat whole fraction⟩

end Denotes

end Decimal
end Formula
