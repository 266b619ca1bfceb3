import Mathlib
import Formula.Number

/-!
The bits of a double. A double is given back by its bits, and one that is finite and has no sign is
given back by its code, which is then below that of infinity.
-/

namespace Formula
open Float.Model Float.Model.UnpackedFloat

/-- The sign, the exponent and the mantissa of a double make up all its bits. -/
theorem packComponents_unpack (b : BitVec Format.binary64.numBits) :
    packComponents Format.binary64 (Sign.ofBitVec (unpackSign b)) (unpackExponent b)
      (unpackMantissa b) = b := by
  have hs : (Sign.ofBitVec (unpackSign b)).toBitVec = unpackSign b := by
    generalize unpackSign b = s
    revert s
    decide
  rw [packComponents, hs]
  apply BitVec.eq_of_getLsbD_eq
  intro i hi
  have hi : i < 64 := hi
  rw [BitVec.getLsbD_append, BitVec.getLsbD_append]
  simp only [unpackSign, unpackExponent, unpackMantissa, BitVec.getLsbD_cast,
    BitVec.getLsbD_extract]
  split
  · rw [decide_eq_true (by omega), Nat.zero_add, Bool.true_and]
  · split
    · rw [decide_eq_true (by omega), show 52 + (i - 52) = i by omega, Bool.true_and]
    · rw [decide_eq_true (by omega), show 52 + 11 + (i - 52 - 11) = i by omega, Bool.true_and]

theorem pack_subnormal {s : Sign} {m : Nat} (hm : 0 < m) (hlt : m < 2 ^ 52) :
    UnpackedFloat.pack Format.binary64 (.finite s m (-1074) hm) =
      packComponents Format.binary64 s 0#11 (BitVec.ofNat 52 m) := by
  have hlog : m.log2 < 52 := (Nat.log2_lt (by omega)).mpr hlt
  have hbias : (-1074 + Format.binary64.exponentBias +
      Format.binary64.mantissaBitsWithoutImplicit : Int).toNat = 1 := rfl
  have hbits : Format.binary64.mantissaBits = 53 := rfl
  rw [UnpackedFloat.pack]
  simp only [hbias, hbits]
  rw [if_neg (by omega), if_neg (by omega)]

theorem pack_normal {s : Sign} {e m : Nat} (he : e < 2047) (hm : 0 < 2 ^ 52 + m)
    (hlt : m < 2 ^ 52) :
    UnpackedFloat.pack Format.binary64 (.finite s (2 ^ 52 + m) (e - 1075) hm) =
      packComponents Format.binary64 s (BitVec.ofNat 11 e) (BitVec.ofNat 52 m) := by
  have hlog : (2 ^ 52 + m).log2 = 52 := (Nat.log2_eq_iff (by omega)).mpr (by omega)
  have hbias : (e - 1075 + Format.binary64.exponentBias +
      Format.binary64.mantissaBitsWithoutImplicit : Int).toNat = e := by
    change (e - 1075 + (1023 : Nat) + (52 : Nat) : Int).toNat = e
    omega
  have hbits : Format.binary64.mantissaBits = 53 := rfl
  have hmod : BitVec.ofNat 52 (2 ^ 52 + m) = BitVec.ofNat 52 m := by
    apply BitVec.eq_of_toNat_eq
    simp only [BitVec.toNat_ofNat]
    omega
  rw [UnpackedFloat.pack]
  simp only [hlog, hbias, hbits, hmod]
  rw [if_neg (by omega), if_pos trivial]

theorem toNat_lt_of_ne {e : BitVec 11} (h : e ≠ -1#11) : e.toNat < 2047 := by
  have hlt := e.isLt
  have hne : e.toNat ≠ 2047 := fun heq => h (BitVec.eq_of_toNat_eq heq)
  omega

theorem toNat_implicit (m : BitVec 52) : (1#1 ++ m).toNat = 2 ^ 52 + m.toNat := by
  rw [BitVec.toNat_append, ← Nat.shiftLeft_add_eq_or_of_lt m.isLt]
  rfl

theorem pack_unpack {b : BitVec Format.binary64.numBits} (h : Format.binary64.Valid b) :
    UnpackedFloat.pack Format.binary64 (UnpackedFloat.unpack Format.binary64 b) = b := by
  have hb := packComponents_unpack b
  have hbias : Format.exponentBias Format.binary64 = 1023 := rfl
  simp only [UnpackedFloat.unpack, hbias]
  split
  · next hexp =>
      split
      · next hman =>
          rw [hexp, hman] at hb
          exact hb
      · next hman => exact (h.eq_packedNaN hexp hman).symm
  · next hexp =>
      split
      · next hzero =>
          split
          · next hman =>
              rw [hzero, hman] at hb
              exact hb
          · next hman =>
              rw [hzero] at hb ⊢
              refine (pack_subnormal _ (unpackMantissa b).isLt).trans ?_
              rw [BitVec.ofNat_toNat, BitVec.setWidth_eq]
              exact hb
      · next hzero =>
          have hlt := toNat_lt_of_ne hexp
          have hman := toNat_implicit (unpackMantissa b)
          simp only [hman]
          refine (pack_normal hlt _ (unpackMantissa b).isLt).trans ?_
          rw [BitVec.ofNat_toNat, BitVec.setWidth_eq, BitVec.ofNat_toNat, BitVec.setWidth_eq]
          exact hb

theorem ofBits_toBits (x : Float) : Float.ofBits x.toBits = x := by
  obtain ⟨⟨bits, valid⟩⟩ := x
  have h : Float.Model.ofBits bits = ⟨bits, valid⟩ := by
    simp only [Float.Model.ofBits, Float.Model.pack, pack_unpack valid]
  exact congrArg Float.ofModel h

theorem eq_of_unpack_eq {x y : Float}
    (h : UnpackedFloat.unpack Format.binary64 x.toBits.toBitVec =
      UnpackedFloat.unpack Format.binary64 y.toBits.toBitVec) : x = y := by
  obtain ⟨⟨bits, valid⟩⟩ := x
  obtain ⟨⟨bits', valid'⟩⟩ := y
  change UnpackedFloat.unpack Format.binary64 bits.toBitVec =
    UnpackedFloat.unpack Format.binary64 bits'.toBitVec at h
  have hbits : bits.toBitVec = bits'.toBitVec := by
    rw [← pack_unpack valid, h, pack_unpack valid']
  obtain rfl := UInt64.toBitVec_inj.mp hbits
  rfl

theorem toNat_toBits_lt {x : Float} (h : Number.isNegative x = false) :
    x.toBits.toNat < 2 ^ 63 := by
  have hshift : x.toBits >>> 63 = 0 := by simpa [Number.isNegative] using h
  have hnat := congrArg UInt64.toNat hshift
  rw [UInt64.toNat_shiftRight, Nat.shiftRight_eq_div_pow] at hnat
  change x.toBits.toNat / 2 ^ 63 = 0 at hnat
  omega

theorem Number.code_eq_mod (x : Float) : Number.code x = x.toBits.toNat % 2 ^ 63 := by
  rw [Number.code, UInt64.toNat_and]
  change x.toBits.toNat &&& (2 ^ 63 - 1) = _
  rw [Nat.and_two_pow_sub_one_eq_mod]

theorem Number.code_eq {x : Float} (h : Number.isNegative x = false) :
    Number.code x = x.toBits.toNat := by
  rw [Number.code_eq_mod, Nat.mod_eq_of_lt (toNat_toBits_lt h)]

/-- A double without a sign is given back by its code. -/
theorem Number.ofBits_code {x : Float} (h : Number.isNegative x = false) :
    Float.ofBits (UInt64.ofNat (Number.code x)) = x := by
  rw [Number.code_eq h, UInt64.ofNat_toNat, ofBits_toBits]

theorem exponent_ne_of_isFinite {x : Float} (h : x.isFinite) :
    @unpackExponent Format.binary64 x.toBits.toBitVec ≠ -1#_ := by
  intro hexp
  change (UnpackedFloat.unpack Format.binary64 x.toBits.toBitVec).isFinite at h
  simp only [UnpackedFloat.unpack, hexp, if_true] at h
  split at h <;> contradiction

theorem isNaN_eq_false {x : Float} (h : x.isFinite) : x.isNaN = false := by
  change (UnpackedFloat.unpack Format.binary64 x.toBits.toBitVec).isFinite at h
  change (UnpackedFloat.unpack Format.binary64 x.toBits.toBitVec).isNaN = false
  cases hx : UnpackedFloat.unpack Format.binary64 x.toBits.toBitVec with
  | notANumber => rw [hx] at h; contradiction
  | infinity _ | zero _ | finite _ _ _ _ => rfl

theorem toNat_unpackExponent (b : BitVec Format.binary64.numBits) :
    (unpackExponent b).toNat = b.toNat / 2 ^ 52 % 2 ^ 11 := by
  rw [unpackExponent, BitVec.toNat_cast, BitVec.extractLsb_toNat, Nat.shiftRight_eq_div_pow]
  rfl

theorem sign_positive {b : BitVec Format.binary64.numBits} (h : b.toNat < 2 ^ 63) :
    Sign.ofBitVec (unpackSign b) = .positive := by
  have hzero : unpackSign b = 0#1 := by
    apply BitVec.eq_of_toNat_eq
    rw [unpackSign, BitVec.toNat_cast, BitVec.extractLsb_toNat, Nat.shiftRight_eq_div_pow]
    change b.toNat / 2 ^ 63 % 2 = 0
    omega
  rw [hzero]
  rfl

theorem Number.code_lt {x : Float} (h : x.isFinite) : Number.code x < infinityCode := by
  have hexp := toNat_lt_of_ne (exponent_ne_of_isFinite h)
  have hfield := toNat_unpackExponent x.toBits.toBitVec
  change _ = x.toBits.toNat / 2 ^ 52 % 2 ^ 11 at hfield
  rw [Number.code_eq_mod]
  change x.toBits.toNat % 2 ^ 63 < 2047 * 2 ^ 52
  omega

end Formula
