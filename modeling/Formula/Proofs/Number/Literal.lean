import Formula.Decimal.Nearest
import Formula.Proofs.Number.Bits

/-!
The doubles that literals stand for. A literal has no sign and is always a number, but one that is
too large is infinite; it is then shown as a name, and not as a literal again.
-/

namespace Formula
open Float.Model Float.Model.UnpackedFloat

theorem toNat_unpackMantissa (b : BitVec Format.binary64.numBits) :
    (unpackMantissa b).toNat = b.toNat % 2 ^ 52 := by
  rw [unpackMantissa, BitVec.toNat_cast, BitVec.extractLsb_toNat]
  rfl

/-- Up to the bits of infinity nothing fails to be a number. -/
theorem unpackMantissa_eq_zero {b : BitVec Format.binary64.numBits} (h : b.toNat ≤ infinityCode)
    (hexp : unpackExponent b = -1#_) : unpackMantissa b = 0#_ := by
  have hfield := congrArg BitVec.toNat hexp
  rw [toNat_unpackExponent] at hfield
  change b.toNat / 2 ^ 52 % 2 ^ 11 = 2047 at hfield
  change b.toNat ≤ 2047 * 2 ^ 52 at h
  apply BitVec.eq_of_toNat_eq
  rw [toNat_unpackMantissa]
  change b.toNat % 2 ^ 52 = 0
  omega

theorem toBits_ofBits {b : UInt64} (h : b.toNat ≤ infinityCode) : (Float.ofBits b).toBits = b := by
  have hvalid : Format.binary64.Valid b.toBitVec :=
    ⟨fun hexp hman => absurd (unpackMantissa_eq_zero h hexp) hman⟩
  exact congrArg UInt64.ofBitVec (pack_unpack hvalid)

namespace Number

theorem isFinite_of_code_lt {x : Float} (hs : isNegative x = false) (h : code x < infinityCode) :
    x.isFinite := by
  rw [code_eq hs] at h
  change x.toBits.toNat < 2047 * 2 ^ 52 at h
  have hexp : @unpackExponent Format.binary64 x.toBits.toBitVec ≠ -1#_ := by
    intro hexp
    have hfield := congrArg BitVec.toNat hexp
    rw [toNat_unpackExponent] at hfield
    change x.toBits.toNat / 2 ^ 52 % 2 ^ 11 = 2047 at hfield
    omega
  change (UnpackedFloat.unpack Format.binary64 x.toBits.toBitVec).isFinite
  simp only [UnpackedFloat.unpack]
  rw [if_neg hexp]
  split
  · split <;> rfl
  · rfl

theorem beq_self {x : Float} (h : x.isNaN = false) : (x == x) = true := by
  change (UnpackedFloat.unpack Format.binary64 x.toBits.toBitVec).isNaN = false at h
  change (UnpackedFloat.unpack Format.binary64 x.toBits.toBitVec).beq
    (UnpackedFloat.unpack Format.binary64 x.toBits.toBitVec) = true
  cases hx : UnpackedFloat.unpack Format.binary64 x.toBits.toBitVec with
  | notANumber => rw [hx] at h; contradiction
  | infinity s => cases s <;> rfl
  | zero _ => rfl
  | finite s m e hm =>
      cases s <;> simp [UnpackedFloat.beq, UnpackedFloat.compare]

/-- A number without a sign that is too large is shown as infinite. -/
theorem pointedText_infinite {x : Float} (hn : x.isNaN = false) (hs : isNegative x = false)
    (h : ¬ x.isFinite) : pointedText x = "inf" := by
  have hcode : ¬ code x < infinityCode := fun hlt => h (isFinite_of_code_lt hs hlt)
  rw [pointedText, textWith, hn, if_neg Bool.false_ne_true, hs, if_neg hcode]
  rfl

end Number

namespace Decimal

theorem nearest_le (d : Decimal) : d.nearest ≤ infinityCode := by
  rw [nearest]
  exact Nat.min_le_right _ _

theorem toNat_toBits_toFloat (d : Decimal) : d.toFloat.toBits.toNat = d.nearest := by
  have hle := d.nearest_le
  have hlt : d.nearest < 2 ^ 64 := by
    change d.nearest ≤ 2047 * 2 ^ 52 at hle
    omega
  have hnat : (UInt64.ofNat d.nearest).toNat = d.nearest := UInt64.toNat_ofNat_of_lt' hlt
  rw [toFloat, toBits_ofBits (Nat.le_trans (Nat.le_of_eq hnat) hle), hnat]

theorem isNegative_toFloat (d : Decimal) : Number.isNegative d.toFloat = false := by
  have hle := d.nearest_le
  have hbits := d.toNat_toBits_toFloat
  have hshift : d.toFloat.toBits >>> 63 = 0 := by
    apply UInt64.toNat_inj.mp
    rw [UInt64.toNat_shiftRight, Nat.shiftRight_eq_div_pow, hbits]
    change d.nearest / 2 ^ 63 = 0
    change d.nearest ≤ 2047 * 2 ^ 52 at hle
    omega
  simp [Number.isNegative, hshift]

theorem isNaN_toFloat (d : Decimal) : d.toFloat.isNaN = false := by
  have hle : d.toFloat.toBits.toNat ≤ infinityCode := d.toNat_toBits_toFloat ▸ d.nearest_le
  change (UnpackedFloat.unpack Format.binary64 d.toFloat.toBits.toBitVec).isNaN = false
  simp only [UnpackedFloat.unpack]
  split
  · next hexp =>
      rw [if_pos (unpackMantissa_eq_zero hle hexp)]
      rfl
  · split
    · split <;> rfl
    · rfl

end Decimal
end Formula
