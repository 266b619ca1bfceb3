import Mathlib
import Formula.Proofs.Number.Literal

/-!
The rational number that a double stands for. Infinity counts as `2 ^ 1024`, which would come next
after the greatest finite double: so the comparisons of doubles are those of their numbers, and a
number that is not a finite double's can still be told from all of them. But for the two zeros the
doubles of one number are the same.
-/

namespace Formula
open Float.Model Float.Model.UnpackedFloat
namespace Number

/-- A number with a sign in front. -/
def signed : Sign → ℚ → ℚ
  | .negative, q => -q
  | .positive, q => q

/-- The first power of two that is too large for a finite double. -/
@[irreducible] def bound : ℚ := 2 ^ (1024 : ℤ)

/-- The number of an unpacked double. -/
def worth : UnpackedFloat → ℚ
  | .notANumber | .zero _ => 0
  | .infinity s => signed s bound
  | .finite s m e _ => signed s (m * 2 ^ e)

/-- The number that a double stands for. -/
def value (x : Float) : ℚ := worth x.toModel.unpack

/-- The mantissa is full unless the exponent is the least one. -/
def Regular : UnpackedFloat → Prop
  | .finite _ m e _ => m < 2 ^ 53 ∧ -1074 ≤ e ∧ (2 ^ 52 ≤ m ∨ e = -1074)
  | _ => True

/-- The exponent is not beyond that of the greatest double. -/
def Fits : UnpackedFloat → Prop
  | .finite _ _ e _ => e ≤ 971
  | _ => True

theorem regular_unpack (b : BitVec Format.binary64.numBits) :
    Regular (UnpackedFloat.unpack Format.binary64 b) ∧
      Fits (UnpackedFloat.unpack Format.binary64 b) := by
  have hbias : Format.exponentBias Format.binary64 = 1023 := rfl
  have hlt := (unpackMantissa b).isLt
  change _ < 2 ^ 52 at hlt
  simp only [UnpackedFloat.unpack, hbias]
  split
  · split <;> exact ⟨trivial, trivial⟩
  · next hexp =>
      have he := toNat_lt_of_ne hexp
      split
      · next hzero =>
          split
          · exact ⟨trivial, trivial⟩
          · have hexponent : (unpackExponent b).toNat = 0 := by rw [hzero]; rfl
            simp only [Regular, Fits, hexponent]
            omega
      · next hzero =>
          have hpos : (unpackExponent b).toNat ≠ 0 := fun h => hzero (BitVec.eq_of_toNat_eq h)
          have hman := toNat_implicit (unpackMantissa b)
          simp only [Regular, Fits, hman]
          omega

theorem regular (x : Float) : Regular x.toModel.unpack ∧ Fits x.toModel.unpack :=
  regular_unpack x.toModel.toBits.toBitVec

theorem unpack_packComponents (s : Sign) (e : BitVec 11) (m : BitVec 52) (he : e ≠ -1#11) :
    UnpackedFloat.unpack Format.binary64 (packComponents Format.binary64 s e m) =
      if e = 0#11 then
        if h : m = 0#52 then .zero s
        else .finite s m.toNat (-1074) (Nat.pos_of_ne_zero fun h0 => h (BitVec.eq_of_toNat_eq h0))
      else .finite s (2 ^ 52 + m.toNat) (e.toNat - 1075) (by omega) := by
  have hbias : Format.exponentBias Format.binary64 = 1023 := rfl
  have hman := toNat_implicit m
  have hsign : Sign.ofBitVec s.toBitVec = s := by cases s <;> rfl
  simp only [UnpackedFloat.unpack, unpackExponent_packComponents, unpackMantissa_packComponents,
    unpackSign_packComponents, hsign, hbias, if_neg he, hman]
  split
  · next hzero => subst hzero; rfl
  · rfl

theorem unpack_pack {u : UnpackedFloat} (h : Regular u) (hfits : Fits u) :
    UnpackedFloat.unpack Format.binary64 (UnpackedFloat.pack Format.binary64 u) = u := by
  cases u with
  | notANumber => rfl
  | infinity s => cases s <;> rfl
  | zero s => cases s <;> rfl
  | finite s m e hm =>
      obtain ⟨hlt, he, hfull⟩ := h
      change e ≤ 971 at hfits
      by_cases hle : 2 ^ 52 ≤ m
      · obtain ⟨m, rfl⟩ := Nat.exists_eq_add_of_le hle
        obtain ⟨e, rfl⟩ : ∃ b : Nat, e = b - 1075 := ⟨(e + 1075).toNat, by omega⟩
        have hexponent : (BitVec.ofNat 11 e).toNat = e := by
          rw [BitVec.toNat_ofNat, Nat.mod_eq_of_lt (by omega)]
        have hmantissa : (BitVec.ofNat 52 m).toNat = m := by
          rw [BitVec.toNat_ofNat, Nat.mod_eq_of_lt (by omega)]
        have hfinite : BitVec.ofNat 11 e ≠ -1#11 := by bv_omega
        have hnormal : BitVec.ofNat 11 e ≠ 0#11 := by bv_omega
        rw [pack_normal (by omega) hm (by omega), unpack_packComponents _ _ _ hfinite,
          if_neg hnormal]
        simp only [hmantissa, hexponent]
      · obtain rfl := hfull.resolve_left hle
        have hmantissa : (BitVec.ofNat 52 m).toNat = m := by
          rw [BitVec.toNat_ofNat, Nat.mod_eq_of_lt (by omega)]
        have hpos : BitVec.ofNat 52 m ≠ 0#52 := by bv_omega
        rw [pack_subnormal hm (by omega), unpack_packComponents _ _ _ (by decide), if_pos rfl,
          dif_neg hpos]
        simp only [hmantissa]

theorem unpack_pack_large {s : Sign} {m : ℕ} {e : ℤ} {hm : 0 < m}
    (h : ¬ Fits (.finite s m e hm)) :
    UnpackedFloat.unpack Format.binary64 (UnpackedFloat.pack Format.binary64 (.finite s m e hm)) =
      .infinity s := by
  have hbias : 2 ^ Format.binary64.exponentBits ≤ (e + Format.binary64.exponentBias +
      Format.binary64.mantissaBitsWithoutImplicit : Int).toNat + 1 := by
    change 2 ^ 11 ≤ (e + (1023 : Nat) + (52 : Nat) : Int).toNat + 1
    change ¬ e ≤ 971 at h
    omega
  rw [UnpackedFloat.pack, if_pos hbias]
  cases s <;> rfl

theorem bound_pos : 0 < bound := by
  rw [bound]
  positivity

theorem magnitude_pos {m : ℕ} (hm : 0 < m) (e : ℤ) : (0 : ℚ) < m * 2 ^ e := by
  positivity

theorem magnitude_lt {m n : ℕ} {e f : ℤ} (hm : m < 2 ^ 53) (hn : 2 ^ 52 ≤ n) (h : e < f) :
    (m : ℚ) * 2 ^ e < n * 2 ^ f := by
  have hm : (m : ℚ) < 2 ^ 53 := by exact_mod_cast hm
  have hn : (2 : ℚ) ^ 52 ≤ n := by exact_mod_cast hn
  calc (m : ℚ) * 2 ^ e < 2 ^ 53 * 2 ^ e := by gcongr
    _ = 2 ^ 52 * 2 ^ (e + 1) := by rw [zpow_add_one₀ two_ne_zero]; ring
    _ ≤ n * 2 ^ f := by gcongr; norm_num; omega

theorem bound_eq : bound = (2 ^ 52 : ℕ) * 2 ^ (972 : ℤ) := by
  rw [bound, Nat.cast_pow, ← zpow_natCast, Nat.cast_ofNat, ← zpow_add₀ two_ne_zero]
  rfl

theorem magnitude_lt_bound {m : ℕ} {e : ℤ} (hm : m < 2 ^ 53) (he : e ≤ 971) :
    (m : ℚ) * 2 ^ e < bound := by
  rw [bound_eq]
  exact magnitude_lt hm le_rfl (by omega)

theorem bound_le_magnitude {m : ℕ} {e : ℤ} (hm : 2 ^ 52 ≤ m) (he : 972 ≤ e) :
    bound ≤ m * 2 ^ e := by
  rw [bound_eq]
  gcongr
  norm_num

theorem compare_magnitude {m n : ℕ} {e f : ℤ} (hm : m < 2 ^ 53) (hn : n < 2 ^ 53)
    (hm' : 2 ^ 52 ≤ m ∨ e = -1074) (hn' : 2 ^ 52 ≤ n ∨ f = -1074) (he : -1074 ≤ e)
    (hf : -1074 ≤ f) :
    compare ((m : ℚ) * 2 ^ e) (n * 2 ^ f) = (compare e f).then (compare m n) := by
  rcases lt_trichotomy e f with h | rfl | h
  · have hlt := magnitude_lt hm (hn'.resolve_right (by omega)) h
    rw [compare_lt_iff_lt.mpr h, compare_lt_iff_lt.mpr hlt]
    rfl
  · have hpos : (0 : ℚ) < 2 ^ e := by positivity
    rw [compare_eq_iff_eq.mpr rfl]
    rcases lt_trichotomy m n with h | rfl | h
    · rw [compare_lt_iff_lt.mpr h, compare_lt_iff_lt.mpr (by gcongr)]
      rfl
    · rw [compare_eq_iff_eq.mpr rfl, compare_eq_iff_eq.mpr rfl]
      rfl
    · rw [compare_gt_iff_gt.mpr h, compare_gt_iff_gt.mpr (by gcongr)]
      rfl
  · have hlt := magnitude_lt hn (hm'.resolve_right (by omega)) h
    rw [compare_gt_iff_gt.mpr h, compare_gt_iff_gt.mpr hlt]
    rfl

theorem compare_neg (a b : ℚ) : compare (-a) (-b) = (compare a b).swap := by
  rcases lt_trichotomy a b with h | rfl | h
  · rw [compare_lt_iff_lt.mpr h, compare_gt_iff_gt.mpr (neg_lt_neg h)]
    rfl
  · rw [compare_eq_iff_eq.mpr rfl, compare_eq_iff_eq.mpr rfl]
    rfl
  · rw [compare_gt_iff_gt.mpr h, compare_lt_iff_lt.mpr (neg_lt_neg h)]
    rfl

theorem compare_worth {u v : UnpackedFloat} (hu : Regular u) (hu' : Fits u) (hv : Regular v)
    (hv' : Fits v) (hn : u ≠ .notANumber) (hn' : v ≠ .notANumber) :
    u.compare v = some (compare (worth u) (worth v)) := by
  have hbound := bound_pos
  have lt {a b : ℚ} (h : a < b) : some Ordering.lt = some (compare a b) := by
    rw [compare_lt_iff_lt.mpr h]
  have gt {a b : ℚ} (h : b < a) : some Ordering.gt = some (compare a b) := by
    rw [compare_gt_iff_gt.mpr h]
  have eq (a : ℚ) : some Ordering.eq = some (compare a a) := by
    rw [compare_eq_iff_eq.mpr rfl]
  cases u with
  | notANumber => contradiction
  | infinity s =>
      cases v with
      | notANumber => contradiction
      | infinity t | zero t =>
          cases s <;> cases t <;> simp only [UnpackedFloat.compare, worth, signed] <;>
            first | exact eq _ | exact lt (by linarith) | exact gt (by linarith)
      | finite t n f hn =>
          have hpos := magnitude_pos hn f
          have hlt := magnitude_lt_bound hv.1 hv'
          cases s <;> cases t <;> simp only [UnpackedFloat.compare, worth, signed] <;>
            first | exact lt (by linarith) | exact gt (by linarith)
  | zero s =>
      cases v with
      | notANumber => contradiction
      | infinity t =>
          cases t <;> simp only [UnpackedFloat.compare, worth, signed]
          · exact gt (by linarith)
          · exact lt (by linarith)
      | zero t => exact eq _
      | finite t n f hn =>
          have hpos := magnitude_pos hn f
          cases t <;> simp only [UnpackedFloat.compare, worth, signed]
          · exact gt (by linarith)
          · exact lt (by linarith)
  | finite s m e hm =>
      have hpos := magnitude_pos hm e
      cases v with
      | notANumber => contradiction
      | infinity t =>
          have hlt := magnitude_lt_bound hu.1 hu'
          cases s <;> cases t <;> simp only [UnpackedFloat.compare, worth, signed] <;>
            first | exact lt (by linarith) | exact gt (by linarith)
      | zero t =>
          cases s <;> simp only [UnpackedFloat.compare, worth, signed]
          · exact lt (by linarith)
          · exact gt (by linarith)
      | finite t n f hn =>
          have hpos' := magnitude_pos hn f
          have hcmp := compare_magnitude hu.1 hv.1 hu.2.2 hv.2.2 hu.2.1 hv.2.1
          cases s <;> cases t <;> simp only [UnpackedFloat.compare, worth, signed]
          · rw [compare_neg, hcmp]
          · exact lt (by linarith)
          · exact gt (by linarith)
          · rw [hcmp]

theorem ne_notANumber {x : Float} : x.toModel.unpack ≠ .notANumber ↔ x.isNaN = false := by
  change _ ↔ x.toModel.unpack.isNaN = false
  cases x.toModel.unpack <;> simp [UnpackedFloat.isNaN]

theorem compare_value {x y : Float} (hx : x.isNaN = false) (hy : y.isNaN = false) :
    x.toModel.unpack.compare y.toModel.unpack = some (compare (value x) (value y)) := by
  obtain ⟨hregular, hfits⟩ := regular x
  obtain ⟨hregular', hfits'⟩ := regular y
  exact compare_worth hregular hfits hregular' hfits' (ne_notANumber.mpr hx) (ne_notANumber.mpr hy)

theorem compare_eq_none {x y : Float} (h : ¬ (x.isNaN = false ∧ y.isNaN = false)) :
    x.toModel.unpack.compare y.toModel.unpack = none := by
  rw [← ne_notANumber, ← ne_notANumber] at h
  cases hx : x.toModel.unpack <;> cases hy : y.toModel.unpack <;> simp_all [UnpackedFloat.compare]

theorem le_iff {x y : Float} :
    x ≤ y ↔ x.isNaN = false ∧ y.isNaN = false ∧ value x ≤ value y := by
  have hle : x ≤ y ↔ (x.toModel.unpack.compare y.toModel.unpack).any (·.isLE) = true :=
    decide_eq_true_iff
  rw [hle]
  by_cases h : x.isNaN = false ∧ y.isNaN = false
  · rw [compare_value h.1 h.2, Option.any_some, Ordering.isLE_iff_ne_gt, compare_gt_iff_gt, not_lt]
    exact ⟨fun hle => ⟨h.1, h.2, hle⟩, fun hle => hle.2.2⟩
  · rw [compare_eq_none h]
    exact iff_of_false Bool.false_ne_true fun hle => h ⟨hle.1, hle.2.1⟩

theorem lt_iff {x y : Float} :
    x < y ↔ x.isNaN = false ∧ y.isNaN = false ∧ value x < value y := by
  have hlt : x < y ↔ (x.toModel.unpack.compare y.toModel.unpack == some .lt) = true :=
    decide_eq_true_iff
  rw [hlt, beq_iff_eq]
  by_cases h : x.isNaN = false ∧ y.isNaN = false
  · rw [compare_value h.1 h.2, Option.some_inj, compare_lt_iff_lt]
    exact ⟨fun hlt => ⟨h.1, h.2, hlt⟩, fun hlt => hlt.2.2⟩
  · rw [compare_eq_none h]
    exact iff_of_false nofun fun hlt => h ⟨hlt.1, hlt.2.1⟩

theorem beq_iff {x y : Float} :
    x == y ↔ x.isNaN = false ∧ y.isNaN = false ∧ value x = value y := by
  have heq : x == y ↔ (x.toModel.unpack.compare y.toModel.unpack == some .eq) = true := Iff.rfl
  rw [heq, beq_iff_eq]
  by_cases h : x.isNaN = false ∧ y.isNaN = false
  · rw [compare_value h.1 h.2, Option.some_inj, compare_eq_iff_eq]
    exact ⟨fun heq => ⟨h.1, h.2, heq⟩, fun heq => heq.2.2⟩
  · rw [compare_eq_none h]
    exact iff_of_false nofun fun heq => h ⟨heq.1, heq.2.1⟩

/-- Only the zeros are equal as numbers without being the same. -/
theorem eq_or_zero_of_beq {a b : UnpackedFloat} (h : a.beq b = true) :
    a = b ∨ ∃ s t, a = .zero s ∧ b = .zero t := by
  cases a with
  | notANumber => simp [UnpackedFloat.beq, UnpackedFloat.compare] at h
  | infinity s =>
      cases b with
      | infinity t =>
          cases s <;> cases t <;>
            first | exact .inl rfl | contradiction
      | notANumber | zero _ | finite _ _ _ _ => cases s <;> contradiction
  | zero s =>
      cases b with
      | zero t => exact .inr ⟨s, t, rfl, rfl⟩
      | notANumber => contradiction
      | infinity t | finite t _ _ _ => cases t <;> contradiction
  | finite s m e hm =>
      cases b with
      | notANumber | zero _ => cases s <;> contradiction
      | infinity t => cases s <;> cases t <;> contradiction
      | finite t n f hn =>
          left
          cases s <;> cases t <;> simp_all [UnpackedFloat.beq, UnpackedFloat.compare]

theorem eq_zero {x : Float} {s : Sign}
    (h : UnpackedFloat.unpack Format.binary64 x.toBits.toBitVec = .zero s) (hx : x ≠ -0.0) :
    x = 0.0 := by
  cases s with
  | positive => exact eq_of_unpack_eq h
  | negative => exact absurd (eq_of_unpack_eq h) hx

/-- Apart from the zeros, only equal doubles are the same number. -/
theorem beq_iff_eq {x y : Float} (hx : x.isNaN = false) (hx' : x ≠ -0.0) (hy' : y ≠ -0.0) :
    (x == y) = true ↔ x = y := by
  refine ⟨fun h => ?_, fun h => h ▸ beq_self hx⟩
  change (UnpackedFloat.unpack Format.binary64 x.toBits.toBitVec).beq
    (UnpackedFloat.unpack Format.binary64 y.toBits.toBitVec) = true at h
  obtain h | ⟨s, t, hs, ht⟩ := eq_or_zero_of_beq h
  · exact eq_of_unpack_eq h
  · rw [eq_zero hs hx', eq_zero ht hy']

theorem value_le_of_le {x y : Float} (h : x ≤ y) : value x ≤ value y :=
  (le_iff.mp h).2.2

theorem value_zero : value 0.0 = 0 := rfl

theorem value_nonneg {x : Float} (h : 0.0 ≤ x) : 0 ≤ value x := by
  have hle := value_le_of_le h
  rwa [value_zero] at hle

theorem le_self {x : Float} (h : x.isNaN = false) : x ≤ x :=
  le_iff.mpr ⟨h, h, le_rfl⟩

theorem le_of_le_of_le {x y z : Float} (h : x ≤ y) (h' : y ≤ z) : x ≤ z := by
  rw [le_iff] at h h' ⊢
  exact ⟨h.1, h'.2.1, h.2.2.trans h'.2.2⟩

theorem abs_signed (s : Sign) (q : ℚ) : |signed s q| = |q| := by
  cases s with
  | negative => exact abs_neg q
  | positive => rfl

theorem isFinite_iff {x : Float} (hn : x.isNaN = false) : x.isFinite ↔ |value x| < bound := by
  obtain ⟨hregular, hfits⟩ := regular x
  have hne := ne_notANumber.mpr hn
  change x.toModel.unpack.isFinite ↔ |worth x.toModel.unpack| < bound
  cases hx : x.toModel.unpack with
  | notANumber => contradiction
  | infinity s => simp [UnpackedFloat.isFinite, worth, abs_signed, abs_of_pos bound_pos]
  | zero s => simp [UnpackedFloat.isFinite, worth, bound_pos]
  | finite s m e hm =>
      rw [hx] at hregular hfits
      have hlt := magnitude_lt_bound hregular.1 hfits
      simpa [UnpackedFloat.isFinite, worth, abs_signed, abs_mul] using hlt

/-- Whatever lies between finite doubles is finite. -/
theorem isFinite_of_le_of_le {x y z : Float} (hx : x.isFinite) (hz : z.isFinite) (h : x ≤ y)
    (h' : y ≤ z) : y.isFinite := by
  rw [le_iff] at h h'
  rw [isFinite_iff h.1, abs_lt] at hx
  rw [isFinite_iff h'.2.1, abs_lt] at hz
  rw [isFinite_iff h.2.1, abs_lt]
  exact ⟨hx.1.trans_le h.2.2, h'.2.2.trans_lt hz.2⟩

/-- A number that is too large in either direction counts as infinite. -/
def capped (q : ℚ) : ℚ := max (-bound) (min bound q)

theorem capped_of_abs_le {q : ℚ} (h : |q| ≤ bound) : capped q = q := by
  rw [abs_le] at h
  rw [capped, min_eq_right h.2, max_eq_right h.1]

theorem capped_signed {s : Sign} {q : ℚ} (h : bound ≤ q) :
    capped (signed s q) = signed s bound := by
  have hpos := bound_pos
  cases s with
  | negative =>
      change max (-bound) (min bound (-q)) = -bound
      rw [min_eq_right (by linarith), max_eq_left (by linarith)]
  | positive =>
      change max (-bound) (min bound q) = bound
      rw [min_eq_left h, max_eq_right (by linarith)]

theorem abs_worth_le {u : UnpackedFloat} (h : Regular u) (hfits : Fits u) : |worth u| ≤ bound := by
  have hpos := bound_pos
  cases u with
  | notANumber | zero s => simpa [worth] using hpos.le
  | infinity s => simp [worth, abs_signed, abs_of_pos hpos]
  | finite s m e hm =>
      have hlt := magnitude_lt_bound h.1 hfits
      simpa [worth, abs_signed, abs_mul] using hlt.le

theorem abs_value_le (x : Float) : |value x| ≤ bound := by
  obtain ⟨hregular, hfits⟩ := regular x
  exact abs_worth_le hregular hfits

theorem value_pack {u : UnpackedFloat} (h : Regular u) :
    value ⟨Float.Model.pack u⟩ = capped (worth u) := by
  change worth (UnpackedFloat.unpack Format.binary64 (UnpackedFloat.pack Format.binary64 u)) = _
  by_cases hfits : Fits u
  · rw [unpack_pack h hfits, capped_of_abs_le (abs_worth_le h hfits)]
  · cases u with
    | notANumber | infinity s | zero s => exact absurd trivial hfits
    | finite s m e hm =>
        change ¬ e ≤ 971 at hfits
        have hle := bound_le_magnitude (h.2.2.resolve_right (by omega)) (by omega : 972 ≤ e)
        rw [unpack_pack_large hfits]
        exact (capped_signed hle).symm

theorem isNaN_pack {u : UnpackedFloat} (h : Regular u) (hn : u ≠ .notANumber) :
    Float.isNaN ⟨Float.Model.pack u⟩ = false := by
  rw [← ne_notANumber]
  change UnpackedFloat.unpack Format.binary64 (UnpackedFloat.pack Format.binary64 u) ≠ _
  by_cases hfits : Fits u
  · rwa [unpack_pack h hfits]
  · cases u with
    | notANumber | infinity s | zero s => exact absurd trivial hfits
    | finite s m e hm =>
        rw [unpack_pack_large hfits]
        exact nofun

theorem signed_mul (s : Sign) (m : ℕ) (q : ℚ) : signed s (m * q) = (s.apply m : ℤ) * q := by
  cases s with
  | negative => simp [signed, Sign.apply]
  | positive => simp [signed, Sign.apply]

theorem abs_apply (s : Sign) (m : ℕ) : |s.apply m| = m := by
  cases s <;> simp [Sign.apply]

/-- Every double is a whole number of at most `2 ^ 53` units of some place. -/
theorem value_grid (x : Float) :
    ∃ k e : ℤ, value x = k * 2 ^ e ∧ |k| ≤ 2 ^ 53 ∧ -1074 ≤ e := by
  obtain ⟨hregular, -⟩ := regular x
  change ∃ k e : ℤ, worth x.toModel.unpack = _ ∧ _
  cases hx : x.toModel.unpack with
  | notANumber | zero s => exact ⟨0, 0, by simp [worth]⟩
  | infinity s =>
      refine ⟨s.apply (2 ^ 52 : ℕ), 972, ?_, ?_, by decide⟩
      · rw [worth, bound_eq, signed_mul]
      · rw [abs_apply]
        norm_num
  | finite s m e hm =>
      rw [hx] at hregular
      refine ⟨s.apply m, e, signed_mul s m _, ?_, hregular.2.1⟩
      rw [abs_apply]
      exact_mod_cast hregular.1.le

end Number
end Formula
