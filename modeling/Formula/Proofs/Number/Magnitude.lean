import Formula.Proofs.Number.Identity

/-!
The absolute value of a double is the double with the same code and no sign. The text of a finite
double with a sign is a minus in front of the text of its absolute value.
-/

namespace Formula
open Float.Model Float.Model.UnpackedFloat

/-- Two words that differ in their signs only have the same absolute value. -/
theorem unpack_abs {b b' : BitVec Format.binary64.numBits} (hlt : b'.toNat < 2 ^ 63)
    (h : b'.toNat = b.toNat % 2 ^ 63) :
    (UnpackedFloat.unpack Format.binary64 b).abs = UnpackedFloat.unpack Format.binary64 b' := by
  have hexp : unpackExponent b' = unpackExponent b := by
    apply BitVec.eq_of_toNat_eq
    rw [toNat_unpackExponent, toNat_unpackExponent, h]
    omega
  have hman : unpackMantissa b' = unpackMantissa b := by
    apply BitVec.eq_of_toNat_eq
    rw [toNat_unpackMantissa, toNat_unpackMantissa, h]
    omega
  simp only [UnpackedFloat.unpack, hexp, hman, sign_positive hlt]
  split
  · split <;> rfl
  · split
    · split <;> rfl
    · rfl

namespace Number

theorem code_lt_signBit (x : Float) : code x < 2 ^ 63 := by
  rw [code_eq_mod]
  exact Nat.mod_lt _ (by decide)

theorem toNat_ofNat_code (x : Float) : (UInt64.ofNat (code x)).toNat = code x :=
  UInt64.toNat_ofNat_of_lt' (Nat.lt_trans (code_lt_signBit x) (by decide))

theorem abs_eq (x : Float) : x.abs = Float.ofBits (UInt64.ofNat (code x)) := by
  have hnat := toNat_ofNat_code x
  have habs := unpack_abs (b := x.toBits.toBitVec)
    (hnat.trans_lt (code_lt_signBit x)) (hnat.trans (code_eq_mod x))
  exact congrArg (fun u => Float.ofModel (Float.Model.pack u)) habs

theorem abs_of_not_isNegative {x : Float} (h : isNegative x = false) : x.abs = x := by
  rw [abs_eq, ofBits_code h]

section Finite
variable {x : Float} (h : x.isFinite)
include h

theorem toNat_toBits_abs : x.abs.toBits.toNat = code x := by
  have hle : (UInt64.ofNat (code x)).toNat ≤ infinityCode :=
    (toNat_ofNat_code x).trans_le (Nat.le_of_lt (code_lt h))
  rw [abs_eq, toBits_ofBits hle, toNat_ofNat_code]

theorem isNegative_abs : isNegative x.abs = false := by
  have hlt := code_lt_signBit x
  rw [← toNat_toBits_abs h] at hlt
  exact Bool.eq_false_iff.mpr fun hsign => Nat.not_le_of_lt hlt (isNegative_iff.mp hsign)

theorem code_abs : code x.abs = code x := by
  rw [code_eq (isNegative_abs h), toNat_toBits_abs h]

theorem isFinite_abs : x.abs.isFinite :=
  isFinite_of_code_lt (isNegative_abs h) (by rw [code_abs h]; exact code_lt h)

theorem pointedText_of_isNegative (hs : isNegative x) :
    pointedText x = "-" ++ pointedText x.abs := by
  rw [pointedText, pointedText, textWith, textWith, isNaN_eq_false h,
    isNaN_eq_false (isFinite_abs h), isNegative_abs h, hs, code_abs h]
  rfl

end Finite
end Number
end Formula
