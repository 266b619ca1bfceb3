import Mathlib
import Formula.Proofs.Number.Literal
import Formula.Proofs.Number.Written

/-!
When two doubles are the same. What is a number is given by its sign and its code, and these by its
text.
-/

namespace Formula
open Float.Model Float.Model.UnpackedFloat

theorem span_unique {p : Char → Bool} {us vs rest rest' : List Char} (hus : ∀ c ∈ us, p c)
    (hvs : ∀ c ∈ vs, p c) (hrest : ∀ c ∈ rest.head?, ¬ p c) (hrest' : ∀ c ∈ rest'.head?, ¬ p c)
    (h : us ++ rest = vs ++ rest') : us = vs ∧ rest = rest' := by
  obtain ⟨htake, hdrop⟩ := span_append hus hrest
  obtain ⟨htake', hdrop'⟩ := span_append hvs hrest'
  exact ⟨by rw [← htake, h, htake'], by rw [← hdrop, h, hdrop']⟩

namespace Number

theorem isNegative_iff {x : Float} : isNegative x ↔ 2 ^ 63 ≤ x.toBits.toNat := by
  have hshift : (x.toBits >>> 63).toNat = x.toBits.toNat / 2 ^ 63 := by
    rw [UInt64.toNat_shiftRight, Nat.shiftRight_eq_div_pow]
    rfl
  rw [isNegative, bne_iff_ne, ne_eq, ← UInt64.toNat_inj, hshift]
  change ¬ _ / 2 ^ 63 = 0 ↔ _
  omega

/-- A double is made of its sign and its code. -/
theorem eq_of_code_eq {x y : Float} (hs : isNegative x = isNegative y) (h : code x = code y) :
    x = y := by
  have hx := x.toBits.toNat_lt
  have hy := y.toBits.toNat_lt
  have hsign : 2 ^ 63 ≤ x.toBits.toNat ↔ 2 ^ 63 ≤ y.toBits.toNat := by
    rw [← isNegative_iff, ← isNegative_iff, hs]
  rw [code_eq_mod, code_eq_mod] at h
  have hbits : x.toBits = y.toBits := UInt64.toNat_inj.mp (by omega)
  rw [← ofBits_toBits x, hbits, ofBits_toBits]

theorem code_of_infinite {x : Float} (hn : x.isNaN = false) (h : ¬ x.isFinite) :
    code x = infinityCode := by
  change (UnpackedFloat.unpack Format.binary64 x.toBits.toBitVec).isNaN = false at hn
  change ¬ (UnpackedFloat.unpack Format.binary64 x.toBits.toBitVec).isFinite at h
  simp only [UnpackedFloat.unpack] at hn h
  split at h
  · next hexp =>
      rw [if_pos hexp] at hn
      split at hn
      · next hman =>
          have hexponent := toNat_unpackExponent x.toBits.toBitVec
          have hmantissa := toNat_unpackMantissa x.toBits.toBitVec
          rw [hexp] at hexponent
          rw [hman] at hmantissa
          change 2047 = x.toBits.toNat / 2 ^ 52 % 2 ^ 11 at hexponent
          change 0 = x.toBits.toNat % 2 ^ 52 at hmantissa
          rw [code_eq_mod]
          change x.toBits.toNat % 2 ^ 63 = 2047 * 2 ^ 52
          omega
      · contradiction
  · split at h
    · split at h <;> simp [UnpackedFloat.isFinite] at h
    · simp [UnpackedFloat.isFinite] at h

theorem pointedText_of_infinite {x : Float} (hn : x.isNaN = false) (h : ¬ x.isFinite) :
    (pointedText x).toList = signText x ++ ['i', 'n', 'f'] := by
  have hcode : ¬ code x < infinityCode := by
    rw [code_of_infinite hn h]
    exact Nat.lt_irrefl _
  rw [pointedText, textWith, hn, if_neg Bool.false_ne_true, if_neg hcode, signText]
  split <;> rfl

theorem ne_minus {c : Char} (h : c.isDigit) : c ≠ '-' := by
  rintro rfl
  contradiction

theorem signText_append_inj {x y : Float} {c d : Char} {us vs : List Char} (hc : c ≠ '-')
    (hd : d ≠ '-') (h : signText x ++ c :: us = signText y ++ d :: vs) :
    isNegative x = isNegative y ∧ c :: us = d :: vs := by
  rw [signText, signText] at h
  cases hx : isNegative x <;> cases hy : isNegative y <;>
    simp only [hx, hy, if_true, if_false, Bool.false_eq_true, List.nil_append,
      List.cons_append] at h
  · exact ⟨rfl, h⟩
  · exact absurd (List.cons.inj h).1 hc
  · exact absurd (List.cons.inj h).1.symm hd
  · exact ⟨rfl, (List.cons.inj h).2⟩

theorem eq_of_pointedText_append_of_finite {x y : Float} (hx : x.isFinite) (hy : y.isFinite)
    {rest rest' : List Char} (hrest : ∀ c ∈ rest.head?, ¬ c.isDigit)
    (hrest' : ∀ c ∈ rest'.head?, ¬ c.isDigit)
    (h : (pointedText x).toList ++ rest = (pointedText y).toList ++ rest') :
    x = y ∧ rest = rest' := by
  obtain ⟨whole, fraction, htext, ⟨hne, hwhole⟩, hfraction, hcode⟩ := pointedText_finite hx
  obtain ⟨whole', fraction', htext', ⟨hne', hwhole'⟩, hfraction', hcode'⟩ := pointedText_finite hy
  obtain ⟨c, cs, rfl⟩ := List.exists_cons_of_ne_nil hne
  obtain ⟨d, ds, rfl⟩ := List.exists_cons_of_ne_nil hne'
  have hpoint (more : List Char) : ∀ c ∈ ('.' :: more).head?, ¬ c.isDigit := by
    intro c hc
    obtain rfl : '.' = c := by simpa using hc
    decide
  rw [htext, htext'] at h
  simp only [List.append_assoc, List.cons_append] at h
  obtain ⟨hsign, hdigits⟩ := signText_append_inj (ne_minus (hwhole c List.mem_cons_self))
    (ne_minus (hwhole' d List.mem_cons_self)) h
  rw [← List.cons_append, ← List.cons_append] at hdigits
  obtain ⟨hwhole, hmore⟩ := span_unique hwhole hwhole' (hpoint _) (hpoint _) hdigits
  obtain ⟨hfraction, hrest⟩ := span_unique hfraction.2 hfraction'.2 hrest hrest'
    (List.cons.inj hmore).2
  refine ⟨eq_of_code_eq hsign ?_, hrest⟩
  rw [← hcode, ← hcode', hwhole, hfraction]

theorem pointedText_append_ne {x y : Float} (hx : x.isFinite) (hy : y.isNaN = false)
    (hy' : ¬ y.isFinite) (rest rest' : List Char) :
    (pointedText x).toList ++ rest ≠ (pointedText y).toList ++ rest' := by
  intro h
  obtain ⟨whole, fraction, htext, ⟨hne, hwhole⟩, -, -⟩ := pointedText_finite hx
  obtain ⟨c, cs, rfl⟩ := List.exists_cons_of_ne_nil hne
  have hc := hwhole c List.mem_cons_self
  rw [htext, pointedText_of_infinite hy hy'] at h
  simp only [List.append_assoc, List.cons_append] at h
  obtain rfl := (List.cons.inj (signText_append_inj (ne_minus hc) (by decide) h).2).1
  contradiction

/-- The text of a number shows where it ends and which number it is. -/
theorem pointedText_append_inj {x y : Float} (hx : x.isNaN = false) (hy : y.isNaN = false)
    {rest rest' : List Char} (hrest : ∀ c ∈ rest.head?, ¬ c.isDigit)
    (hrest' : ∀ c ∈ rest'.head?, ¬ c.isDigit)
    (h : (pointedText x).toList ++ rest = (pointedText y).toList ++ rest') :
    x = y ∧ rest = rest' := by
  by_cases hx' : x.isFinite <;> by_cases hy' : y.isFinite
  · exact eq_of_pointedText_append_of_finite hx' hy' hrest hrest' h
  · exact absurd h (pointedText_append_ne hx' hy hy' rest rest')
  · exact absurd h.symm (pointedText_append_ne hy' hx hx' rest' rest)
  · rw [pointedText_of_infinite hx hx', pointedText_of_infinite hy hy'] at h
    simp only [List.append_assoc, List.cons_append] at h
    obtain ⟨hsign, hmore⟩ := signText_append_inj (by decide) (by decide) h
    refine ⟨eq_of_code_eq hsign ?_, by simpa using hmore⟩
    rw [code_of_infinite hx hx', code_of_infinite hy hy']

end Number
end Formula
