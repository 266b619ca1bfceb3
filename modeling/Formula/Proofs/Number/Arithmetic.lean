import Mathlib
import Formula.Proofs.Number.Mantissa

/-!
The arithmetic of doubles. A sum, a difference, a product or a quotient of finite doubles is the
nearest double to that of their numbers, and a whole number is turned into the nearest double to it.
Where a sum or a product is finite its operands are, and where a quotient is the dividend is.
-/

namespace Formula
open Float.Model Float.Model.UnpackedFloat
namespace Number

section Operations
variable {x y : Float} {u v : UnpackedFloat}

theorem shift_units (m k : ℕ) (e : ℤ) :
    ((m <<< k : ℕ) : ℚ) * 2 ^ (e - k) = m * 2 ^ e := by
  rw [Nat.shiftLeft_eq, zpow_sub₀ two_ne_zero, zpow_natCast, Nat.cast_mul, Nat.cast_pow,
    Nat.cast_ofNat]
  field_simp

theorem log2_shiftLeft {m : ℕ} (hm : 0 < m) (k : ℕ) : (m <<< k).log2 = m.log2 + k := by
  have hlow := Nat.log2_self_le hm.ne'
  have hhigh := Nat.lt_log2_self (n := m)
  have hpos := Nat.two_pow_pos k
  rw [Nat.shiftLeft_eq, Nat.log2_eq_iff (by positivity), Nat.pow_add, Nat.add_right_comm,
    Nat.pow_add]
  exact ⟨Nat.mul_le_mul_right _ hlow, Nat.mul_lt_mul_of_pos_right hhigh hpos⟩

theorem rounds_round (s : Sign) {m : ℕ} (hm : 0 < m) (e : ℤ) :
    Rounds (signed s (m * 2 ^ e)) ⟨Float.Model.pack
      (UnpackedFloat.round Format.binary64 s m e)⟩ := by
  obtain ⟨k, hk⟩ : ∃ k, k = (e - max ((m.log2 : ℤ) + e - 52) (-1074)).toNat := ⟨_, rfl⟩
  have hlog := log2_shiftLeft hm k
  have h := rounds_roundWithAccuracy s (by omega : 52 ≤ (m <<< k).log2 ∨ e - k ≤ -1074)
    (marks_exact (m <<< k))
  rw [shift_units] at h
  rw [UnpackedFloat.round, targetExponent_eq, decreaseExponent, ← hk]
  exact h

/-- A double rounds itself. -/
theorem rounds_pack (hu : Regular u) (hf : u.isFinite) :
    Rounds (worth u) ⟨Float.Model.pack u⟩ := by
  cases u with
  | notANumber | infinity s => contradiction
  | zero s =>
      have hplace : Place 0 (-1074) := ⟨le_rfl, by norm_num, .inl rfl⟩
      have heven : HalfEven (0 / 2 ^ (-1074 : ℤ)) (0 : ℕ) := by
        apply HalfEven.of_lt
        norm_num
      have h := rounds_carried s hplace le_rfl heven
      have hzero : signed s 0 = 0 := by cases s <;> simp [signed]
      rwa [hzero] at h
  | finite s m e hm =>
      obtain ⟨hlt, he, hfull⟩ := hu
      have hpos := magnitude_pos hm e
      have hunit := Place.unit_pos e
      have hplace : Place (m * 2 ^ e) e := by
        refine ⟨he, ?_, ?_⟩
        · rw [abs_of_pos hpos]
          gcongr
          exact_mod_cast hlt
        · rw [abs_of_pos hpos]
          rcases hfull with hfull | hleast
          · right
            gcongr
            exact_mod_cast hfull
          · exact .inl hleast
      have heven : HalfEven (m * 2 ^ e / 2 ^ e) m := by
        apply HalfEven.of_lt
        rw [mul_div_cancel_right₀ _ hunit.ne']
        norm_num
      have h := rounds_carried s hplace hpos.le heven
      simpa only [carried, dif_neg hm.ne', if_pos hlt, worth] using h

theorem rounds_normalize (k e : ℤ) (s : Sign) :
    Rounds (k * 2 ^ e) ⟨Float.Model.pack (UnpackedFloat.normalize Format.binary64 k e s)⟩ := by
  rw [UnpackedFloat.normalize]
  rcases lt_trichotomy k 0 with hk | rfl | hk
  · have h := rounds_round .negative (by omega : 0 < (-k).toNat) e
    have hcast : (((-k).toNat : ℕ) : ℚ) = -k := by
      exact_mod_cast Int.toNat_of_nonneg (by omega : 0 ≤ -k)
    rw [compare_lt_iff_lt.mpr hk]
    rwa [signed, hcast, neg_mul, neg_neg] at h
  · rw [compare_eq_iff_eq.mpr rfl, Int.cast_zero, zero_mul]
    exact rounds_pack (u := .zero s) trivial rfl
  · have h := rounds_round .positive (by omega : 0 < k.toNat) e
    have hcast : ((k.toNat : ℕ) : ℚ) = k := by exact_mod_cast Int.toNat_of_nonneg hk.le
    rw [compare_gt_iff_gt.mpr hk]
    rwa [signed, hcast] at h

/-- A magnitude with a sign in units of a smaller place. -/
theorem aligned (s : Sign) (m : ℕ) {e t : ℤ} (h : t ≤ e) :
    ((s.apply (decreaseExponent m e t).1 : ℤ) : ℚ) * 2 ^ t = signed s (m * 2 ^ e) := by
  have hexp : e - (e - t).toNat = t := by omega
  have hunits := shift_units m (e - t).toNat e
  rw [hexp] at hunits
  rw [← signed_mul]
  exact congrArg _ hunits

theorem rounds_pack_add (hu : Regular u) (hv : Regular v) (hf : u.isFinite) (hf' : v.isFinite) :
    Rounds (worth u + worth v) ⟨Float.Model.pack (UnpackedFloat.add Format.binary64 u v)⟩ := by
  cases u with
  | notANumber | infinity s => contradiction
  | zero s =>
      cases v with
      | notANumber | infinity t => contradiction
      | zero t =>
          have h : Rounds (0 + 0) ⟨Float.Model.pack (.zero (if s == t then s else .positive))⟩ :=
            (add_zero (0 : ℚ)).symm ▸ rounds_pack (u := .zero _) trivial rfl
          rwa [apply_ite UnpackedFloat.zero] at h
      | finite t n f hn =>
          rw [worth, zero_add]
          exact rounds_pack hv hf'
  | finite s m e hm =>
      cases v with
      | notANumber | infinity t => contradiction
      | zero t =>
          rw [worth.eq_2, add_zero]
          exact rounds_pack hu hf
      | finite t n f hn =>
          have h := rounds_normalize (s.apply (decreaseExponent m e (min e f)).1 +
            t.apply (decreaseExponent n f (min e f)).1) (min e f) .positive
          rw [Int.cast_add, add_mul, aligned s m (min_le_left e f),
            aligned t n (min_le_right e f)] at h
          exact h

theorem sub_eq_add (f : Format) (u v : UnpackedFloat) :
    UnpackedFloat.sub f u v = UnpackedFloat.add f u v.neg := by
  have happly (s : Sign) (n : ℤ) : (-s).apply n = -s.apply n := by
    cases s
    · exact (neg_neg n).symm
    · rfl
  cases u <;> cases v <;> try rfl
  simp only [UnpackedFloat.sub, UnpackedFloat.add, UnpackedFloat.neg, happly, Int.sub_eq_add_neg]

theorem worth_neg (u : UnpackedFloat) : worth u.neg = -worth u := by
  have hneg (s : Sign) (q : ℚ) : signed (-s) q = -signed s q := by
    cases s
    · exact (neg_neg q).symm
    · rfl
  cases u with
  | notANumber | zero s => exact neg_zero.symm
  | infinity s | finite s m e hm => exact hneg s _

theorem regular_neg (hu : Regular u) : Regular u.neg := by
  cases u <;> exact hu

theorem isFinite_neg (hf : u.isFinite) : u.neg.isFinite := by
  cases u <;> exact hf

theorem signed_product (s t : Sign) (p q : ℚ) :
    signed (s * t) (p * q) = signed s p * signed t q := by
  cases s <;> cases t
  · exact (neg_mul_neg p q).symm
  · exact (neg_mul p q).symm
  · exact (mul_neg p q).symm
  · rfl

theorem signed_quotient (s t : Sign) (p q : ℚ) :
    signed (s / t) (p / q) = signed s p / signed t q := by
  cases s <;> cases t
  · exact (neg_div_neg_eq p q).symm
  · exact (neg_div q p).symm
  · exact (div_neg p).symm
  · rfl

theorem rounds_product (s t : Sign) {m n : ℕ} {e f : ℤ} (h : 52 ≤ (m * n).log2 ∨ e + f ≤ -1074) :
    Rounds (signed s (m * 2 ^ e) * signed t (n * 2 ^ f)) ⟨Float.Model.pack
      (roundWithAccuracy Format.binary64 (s * t) (m * n) (e + f) .exact)⟩ := by
  have h := rounds_roundWithAccuracy (s * t) h (marks_exact (m * n))
  rwa [zpow_add₀ two_ne_zero, Nat.cast_mul, mul_mul_mul_comm, signed_product] at h

theorem rounds_pack_mul (hu : Regular u) (hv : Regular v) (hf : u.isFinite) (hf' : v.isFinite) :
    Rounds (worth u * worth v) ⟨Float.Model.pack (UnpackedFloat.mul Format.binary64 u v)⟩ := by
  cases u with
  | notANumber | infinity s => contradiction
  | zero s =>
      cases v with
      | notANumber | infinity t => contradiction
      | zero t | finite t n f hn =>
          rw [worth, zero_mul]
          exact rounds_pack (u := .zero _) trivial rfl
  | finite s m e hm =>
      cases v with
      | notANumber | infinity t => contradiction
      | zero t =>
          rw [worth.eq_2, mul_zero]
          exact rounds_pack (u := .zero _) trivial rfl
      | finite t n f hn =>
          have hlog : 52 ≤ (m * n).log2 ∨ e + f ≤ -1074 := by
            rw [Nat.le_log2 (Nat.mul_pos hm hn).ne']
            rcases hu.2.2 with hfull | rfl
            · exact .inl (hfull.trans (Nat.le_mul_of_pos_right m hn))
            · rcases hv.2.2 with hfull | rfl
              · exact .inl (hfull.trans (Nat.le_mul_of_pos_left n hm))
              · exact .inr (by decide)
          exact rounds_product s t hlog

/-- The place of a quotient leaves it enough digits to be rounded. -/
theorem full_quotient {m n k : ℕ} (hm : 0 < m) (hn : 0 < n) {t : ℤ}
    (h : -1074 < t → 53 + n.log2 ≤ m.log2 + k) : 52 ≤ (m <<< k / n).log2 ∨ t ≤ -1074 := by
  rcases le_or_gt t (-1074) with hle | hlt
  · exact .inr hle
  · left
    have hpos : m <<< k ≠ 0 := by
      rw [Nat.shiftLeft_eq]
      positivity
    have hpow : 2 ^ (52 + (n.log2 + 1)) ≤ m <<< k := by
      rw [← Nat.le_log2 hpos, log2_shiftLeft hm]
      have := h hlt
      omega
    rw [Nat.pow_add] at hpow
    have hquotient : 2 ^ 52 ≤ m <<< k / n := by
      rw [Nat.le_div_iff_mul_le hn]
      exact (Nat.mul_le_mul_left _ Nat.lt_log2_self.le).trans hpow
    exact (Nat.le_log2 (by omega)).mpr hquotient

theorem quotient_units (m : ℕ) {n : ℕ} (hn : 0 < n) (k : ℕ) (e f : ℤ) :
    ((m <<< k / n : ℕ) + (m <<< k % n : ℕ) / n : ℚ) * 2 ^ (e - f - k) =
      m * 2 ^ e / (n * 2 ^ f) := by
  have hpos : (n : ℚ) ≠ 0 := by exact_mod_cast hn.ne'
  have hmod : ((m <<< k % n : ℕ) : ℚ) + n * (m <<< k / n : ℕ) = (m <<< k : ℕ) := by
    exact_mod_cast Nat.mod_add_div _ n
  have hsum : ((m <<< k / n : ℕ) + (m <<< k % n : ℕ) / n : ℚ) = (m <<< k : ℕ) / n := by
    rw [← hmod, add_div, mul_div_cancel_left₀ _ hpos, add_comm]
  rw [hsum, div_mul_eq_mul_div, shift_units, mul_div_mul_comm, ← zpow_sub₀ two_ne_zero,
    div_mul_eq_mul_div]

theorem divCore_eq (m n : ℕ) (e f : ℤ) :
    ∃ k : ℕ, divCore Format.binary64 m e n f =
        (m <<< k / n, e - f - k, accuracyOfFraction (m <<< k % n) n) ∧
      (-1074 < e - f - k → 53 + n.log2 ≤ m.log2 + k) := by
  obtain ⟨t, ht⟩ : ∃ t, t = min (e - f)
      (Format.binary64.targetExponent (totalExponent m e - totalExponent n f)) := ⟨_, rfl⟩
  have htarget : t = min (e - f) (max (m.log2 + 1 + e - (n.log2 + 1 + f) - 53) (-1074)) := ht
  have hexp : t = e - f - (e - f - t).toNat := by omega
  refine ⟨(e - f - t).toNat, ?_, by omega⟩
  rw [divCore, ← ht, ← hexp]

theorem rounds_pack_div (hu : Regular u) (hf : u.isFinite) (hf' : v.isFinite) (hv : worth v ≠ 0) :
    Rounds (worth u / worth v) ⟨Float.Model.pack (UnpackedFloat.div Format.binary64 u v)⟩ := by
  cases u with
  | notANumber | infinity s => contradiction
  | zero s =>
      cases v with
      | notANumber | infinity t | zero t => contradiction
      | finite t n f hn =>
          rw [worth, zero_div]
          exact rounds_pack (u := .zero _) trivial rfl
  | finite s m e hm =>
      cases v with
      | notANumber | infinity t | zero t => contradiction
      | finite t n f hn =>
          obtain ⟨k, hcore, hfull⟩ := divCore_eq m n e f
          have h := rounds_roundWithAccuracy (s / t) (full_quotient hm hn hfull)
            (marks_fraction (m <<< k / n) (Nat.mod_lt (m <<< k) hn))
          rw [quotient_units m hn, signed_quotient] at h
          rw [UnpackedFloat.div, hcore]
          exact h

theorem rounds_add (hx : x.isFinite) (hy : y.isFinite) : Rounds (value x + value y) (x + y) :=
  rounds_pack_add (regular x).1 (regular y).1 hx hy

theorem rounds_sub (hx : x.isFinite) (hy : y.isFinite) : Rounds (value x - value y) (x - y) := by
  have h := rounds_pack_add (regular x).1 (regular_neg (regular y).1) hx (isFinite_neg hy)
  rwa [worth_neg, ← sub_eq_add, ← sub_eq_add_neg] at h

theorem rounds_mul (hx : x.isFinite) (hy : y.isFinite) : Rounds (value x * value y) (x * y) :=
  rounds_pack_mul (regular x).1 (regular y).1 hx hy

theorem rounds_div (hx : x.isFinite) (hy : y.isFinite) (h : value y ≠ 0) :
    Rounds (value x / value y) (x / y) :=
  rounds_pack_div (regular x).1 hx hy h

theorem value_sub_grid (x y : Float) : ∃ k : ℤ, value x - value y = k * 2 ^ (-1074 : ℤ) := by
  obtain ⟨k, e, hx, -, he⟩ := value_grid x
  obtain ⟨l, f, hy, -, hf⟩ := value_grid y
  obtain ⟨i, hi⟩ := Place.exists_units k he
  obtain ⟨j, hj⟩ := Place.exists_units l hf
  refine ⟨i - j, ?_⟩
  rw [hx, hy, hi, hj, Int.cast_sub, sub_mul]

/-- No digit of a difference gets lost below the least place, only behind the last of its 53. -/
theorem value_sub_le (hx : x.isFinite) (hy : y.isFinite) (h : value y ≤ value x) :
    value (x - y) ≤ (value x - value y) * (1 + 1 / 2 ^ 53) := by
  have hround := rounds_sub hx hy
  have hnonneg : 0 ≤ value x - value y := sub_nonneg.mpr h
  rcases le_or_gt (2 ^ (-1022 : ℤ)) (value x - value y) with hle | hlt
  · exact hround.le_mul hle
  · obtain ⟨k, hk⟩ := value_sub_grid x y
    rw [hk] at hround hnonneg hlt ⊢
    rw [← Place.least_full] at hlt
    have hpos := Place.unit_pos (-1074)
    have hklow : (0 : ℚ) ≤ k := nonneg_of_mul_nonneg_left hnonneg hpos
    have hkhigh : (k : ℚ) < 2 ^ 52 := lt_of_mul_lt_mul_right hlt hpos.le
    have hklow : 0 ≤ k := by exact_mod_cast hklow
    have hkhigh : k < 2 ^ 52 := by exact_mod_cast hkhigh
    rw [hround.value_eq (by rw [abs_of_nonneg hklow]; omega) le_rfl (by decide)]
    exact le_mul_of_one_le_right hnonneg (by norm_num)

theorem value_one : value 1.0 = 1 := by
  change ((2 ^ 52 : ℕ) : ℚ) * 2 ^ (-52 : ℤ) = 1
  norm_num

theorem ofScientific_of_large {n : ℕ} (h : 2 ^ 53 ≤ n) :
    Float.ofScientific n false 0 = ⟨Float.Model.pack
      (roundWithAccuracy Format.binary64 (.positive * .positive) (n <<< 53 * 1) (-53 + 0)
        .exact)⟩ := by
  rw [Float.ofScientific, dif_neg (by omega)]
  change (⟨Float.Model.pack (UnpackedFloat.ofScientific Format.binary64 n 0)⟩ : Float) = _
  rw [UnpackedFloat.ofScientific, dif_neg (by omega), if_neg (by decide), if_neg, if_pos le_rfl]
  · rfl
  · rw [not_lt, neg_nonpos]
    positivity

theorem rounds_toFloat (n : UInt64) : Rounds n.toNat n.toFloat := by
  have h := rounds_normalize n.toNat 0 .positive
  rwa [zpow_zero, mul_one] at h

theorem rounds_ofNat (n : ℕ) : Rounds n (Float.ofNat n) := by
  change Rounds n (Float.ofScientific n false 0)
  rcases lt_or_ge n (2 ^ 53) with hlt | hle
  · have hcast : n.toUInt64.toNat = n := Nat.mod_eq_of_lt (by omega)
    obtain ⟨hvalue, hfinite⟩ := (rounds_toFloat n.toUInt64).value_natCast (by omega)
    have h := rounds_mul hfinite (y := 1.0) rfl
    rw [value_one, hvalue, hcast, mul_one] at h
    rw [Float.ofScientific, dif_pos ⟨hlt, Nat.zero_le 22⟩, if_neg Bool.false_ne_true]
    exact h
  · rw [ofScientific_of_large hle]
    have hlog : 52 ≤ (n <<< 53 * 1).log2 ∨ (-53 + 0 : ℤ) ≤ -1074 := by
      left
      rw [Nat.mul_one, log2_shiftLeft (by omega)]
      omega
    have h := rounds_product .positive .positive hlog
    have hunits := shift_units n 53 0
    rw [zero_sub, zpow_zero, mul_one] at hunits
    change Rounds ((n <<< 53 : ℕ) * 2 ^ (-(53 : ℕ) : ℤ) * ((1 : ℕ) * 2 ^ (0 : ℤ))) _ at h
    rwa [hunits, Nat.cast_one, zpow_zero, mul_one, mul_one] at h

theorem value_ofNat_nonneg (n : ℕ) : 0 ≤ value (Float.ofNat n) :=
  value_nonneg ((rounds_ofNat n).zero_le n.cast_nonneg)

theorem ofNat_le {m n : ℕ} (h : m ≤ n) : Float.ofNat m ≤ Float.ofNat n :=
  (rounds_ofNat m).le (rounds_ofNat n) (by exact_mod_cast h)

theorem rounds_mul_ofNat (hx : x.isFinite) {n : ℕ} (hn : n < 2 ^ 53) :
    Rounds (value x * n) (x * Float.ofNat n) := by
  obtain ⟨hvalue, hfinite⟩ := (rounds_ofNat n).value_natCast hn
  have h := rounds_mul hx hfinite
  rwa [hvalue] at h

/-- A multiple of a number that has all its digits has them as well, or is zero. -/
theorem value_mul_ofNat_le (hx : x.isFinite) (hleast : 2 ^ (-1022 : ℤ) ≤ value x) {n : ℕ}
    (hn : n < 2 ^ 53) : value (x * Float.ofNat n) ≤ value x * n * (1 + 1 / 2 ^ 53) := by
  have hround := rounds_mul_ofNat hx hn
  have hunit := Place.unit_pos (-1022)
  rcases Nat.eq_zero_or_pos n with rfl | hpos
  · rw [Nat.cast_zero, mul_zero, ← value_zero] at hround
    rw [hround.value_self, value_zero, Nat.cast_zero, mul_zero, zero_mul]
  · have hone : (1 : ℚ) ≤ n := by exact_mod_cast hpos
    apply hround.le_mul
    exact hleast.trans (le_mul_of_one_le_right (by linarith) hone)

theorem isFinite_of_pack (h : Float.isFinite ⟨Float.Model.pack u⟩) : u.isFinite := by
  have hunpack (hr : Regular u) (hf : Fits u) : Float.isFinite ⟨Float.Model.pack u⟩ = u.isFinite :=
    congrArg UnpackedFloat.isFinite (unpack_pack hr hf)
  cases u with
  | zero s | finite s m e hm => rfl
  | notANumber | infinity s => exact hunpack trivial trivial ▸ h

theorem isFinite_of_unpacked_add {f : Format} (h : (u.add f v).isFinite) :
    u.isFinite ∧ v.isFinite := by
  cases u with
  | notANumber => exact nomatch h
  | infinity s =>
      cases v with
      | infinity t =>
          rw [UnpackedFloat.add] at h
          split at h <;> exact nomatch h
      | notANumber | zero t | finite t n f hn => exact nomatch h
  | zero s | finite s m e hm =>
      cases v with
      | notANumber | infinity t => exact nomatch h
      | zero t | finite t n f hn => exact ⟨rfl, rfl⟩

theorem isFinite_of_unpacked_mul {f : Format} (h : (u.mul f v).isFinite) :
    u.isFinite ∧ v.isFinite := by
  cases u with
  | notANumber => exact nomatch h
  | infinity s => cases v <;> exact nomatch h
  | zero s | finite s m e hm =>
      cases v with
      | notANumber | infinity t => exact nomatch h
      | zero t | finite t n f hn => exact ⟨rfl, rfl⟩

theorem isFinite_of_unpacked_div {f : Format} (h : (u.div f v).isFinite) : u.isFinite := by
  cases u with
  | notANumber => exact nomatch h
  | infinity s => cases v <;> exact nomatch h
  | zero s | finite s m e hm => rfl

theorem isFinite_of_add (h : (x + y).isFinite) : x.isFinite ∧ y.isFinite :=
  isFinite_of_unpacked_add (isFinite_of_pack h)

theorem isFinite_of_mul (h : (x * y).isFinite) : x.isFinite ∧ y.isFinite :=
  isFinite_of_unpacked_mul (isFinite_of_pack h)

theorem isFinite_of_div (h : (x / y).isFinite) : x.isFinite :=
  isFinite_of_unpacked_div (isFinite_of_pack h)

/-- Nothing is left of a number that is divided by infinity. -/
theorem value_div_infinity {s : Sign} (hx : x.isFinite) (hy : y.toModel.unpack = .infinity s) :
    value (x / y) = 0 := by
  have hzero : ∃ t, x.toModel.unpack.div Format.binary64 y.toModel.unpack = .zero t := by
    change x.toModel.unpack.isFinite at hx
    rw [hy]
    cases hu : x.toModel.unpack with
    | notANumber | infinity s =>
        rw [hu] at hx
        exact nomatch hx
    | zero s | finite s m e hm => exact ⟨_, rfl⟩
  obtain ⟨t, ht⟩ := hzero
  change value ⟨Float.Model.pack (UnpackedFloat.div Format.binary64 _ _)⟩ = worth (.zero t)
  rw [ht]
  exact congrArg worth (unpack_pack trivial trivial)

theorem div_nonneg (hx : x.isFinite) (h : 0 ≤ value x) (hy : 0 < value y) : 0 ≤ value (x / y) := by
  cases hf : y.toModel.unpack with
  | notANumber | zero t =>
      rw [value, hf] at hy
      exact absurd rfl hy.ne
  | infinity t => exact (value_div_infinity hx hf).ge
  | finite t n f hn =>
      have hfinite : y.isFinite := by
        change y.toModel.unpack.isFinite
        rw [hf]
        rfl
      apply value_nonneg
      apply (rounds_div hx hfinite hy.ne').zero_le
      positivity

end Operations
end Number
end Formula
