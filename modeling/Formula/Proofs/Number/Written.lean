import Formula.Proofs.Decimal.ReadBack
import Formula.Proofs.Number.Bits
import Formula.Proofs.Token.Spelling

/-!
The text of a double in a formula. It is a run of digits, a point and a run of digits, and the
decimal that these make is nearest to the double: so the text spells the double itself.
-/

namespace Formula
namespace Decimal

theorem digits_toDigits (n : Nat) : Digits (Nat.toDigits 10 n) :=
  ⟨Nat.toDigits_ne_nil, fun _ hc => Nat.isDigit_of_mem_toDigits (by decide) (by decide) hc⟩

theorem length_toDigits_mod_le {n places : Nat} (h : 0 < places) :
    (Nat.toDigits 10 (n % 10 ^ places)).length ≤ places :=
  (Nat.length_toDigits_le_iff (by decide) h).mpr (Nat.mod_lt _ (Nat.pow_pos (by decide)))

theorem ofDigits_digits {d : Decimal} (h : 0 < d.places) :
    ofDigits d.wholeDigits ((Nat.toDigits 10 (d.numerator % d.unit)).leftpad d.places '0') = d := by
  obtain ⟨n, places⟩ := d
  change ofDigits (Nat.toDigits 10 (n / 10 ^ places))
    ((Nat.toDigits 10 (n % 10 ^ places)).leftpad places '0') = _
  have hlength : (Nat.toDigits 10 (n % 10 ^ places)).length ≤ places := length_toDigits_mod_le h
  have hpow : 10 ^ (Nat.toDigits 10 (n % 10 ^ places)).length *
      10 ^ (places - (Nat.toDigits 10 (n % 10 ^ places)).length) = 10 ^ places := by
    rw [← Nat.pow_add]
    congr 1
    omega
  rw [ofDigits, List.length_leftpad, Nat.max_eq_left hlength, List.leftpad,
    Nat.ofDigitChars_append, Nat.ofDigitChars_append, Nat.ofDigitChars_replicate_zero,
    Nat.ofDigitChars_eq_ofDigitChars_zero, Nat.ofDigitChars_ten_toDigits,
    Nat.ofDigitChars_ten_toDigits, ← Nat.mul_assoc, hpow, Nat.div_add_mod]

theorem digits_leftpad {ds : List Char} (h : Digits ds) (n : Nat) : Digits (ds.leftpad n '0') := by
  refine ⟨by simp [List.leftpad, h.1], fun c hc => ?_⟩
  obtain hc | hc := List.mem_append.mp hc
  · obtain rfl := List.eq_of_mem_replicate hc
    rfl
  · exact h.2 c hc

theorem nearest_ofDigits_zero (n : Nat) :
    (ofDigits (Nat.toDigits 10 n) ['0']).nearest = (⟨n, 0⟩ : Decimal).nearest := by
  have h : ofDigits (Nat.toDigits 10 n) ['0'] = ⟨10 * n, 1⟩ := by
    rw [ofDigits, Nat.ofDigitChars_append, Nat.ofDigitChars_ten_toDigits]
    rfl
  rw [h, nearest_trailing_zero]

theorem pointedText_digits (d : Decimal) :
    ∃ whole fraction, d.pointedText = String.ofList (whole ++ '.' :: fraction) ∧ Digits whole ∧
      Digits fraction ∧ (ofDigits whole fraction).nearest = d.nearest := by
  obtain hzero | hpos := Nat.eq_zero_or_pos d.places
  · refine ⟨d.wholeDigits, ['0'], ?_, digits_toDigits _, ⟨by simp, by simp [Char.isDigit]⟩, ?_⟩
    · simp only [pointedText, fractionDigits, if_pos hzero]
    · obtain ⟨n, places⟩ := d
      obtain rfl : places = 0 := hzero
      have hwhole : wholeDigits ⟨n, 0⟩ = Nat.toDigits 10 n := by
        rw [wholeDigits]
        exact congrArg (Nat.toDigits 10) (Nat.div_one n)
      rw [hwhole, nearest_ofDigits_zero]
  · have hfraction := digits_leftpad (digits_toDigits (d.numerator % d.unit)) d.places
    refine ⟨d.wholeDigits, _, ?_, digits_toDigits _, hfraction, by rw [ofDigits_digits hpos]⟩
    simp only [pointedText, fractionDigits, if_neg (Nat.ne_of_gt hpos)]
    split
    · next hnil => exact absurd hnil hfraction.1
    · rfl

end Decimal

namespace Number

/-- The sign in front of a double. -/
def signText (x : Float) : List Char := if isNegative x then ['-'] else []

/-- The text of a finite double is its sign and the digits of a decimal that is nearest to it. -/
theorem pointedText_finite {x : Float} (h : x.isFinite) :
    ∃ whole fraction, (pointedText x).toList = signText x ++ (whole ++ '.' :: fraction) ∧
      Digits whole ∧ Digits fraction ∧ (Decimal.ofDigits whole fraction).nearest = code x := by
  have hcode := code_lt h
  obtain ⟨whole, fraction, htext, hwhole, hfraction, hnearest⟩ :=
    (Decimal.shortest (code x)).pointedText_digits
  refine ⟨whole, fraction, ?_, hwhole, hfraction, ?_⟩
  · rw [pointedText, textWith, isNaN_eq_false h, if_neg Bool.false_ne_true, if_pos hcode, htext]
    cases hsign : isNegative x <;> simp [signText, hsign]
  · rw [hnearest, Decimal.nearest_shortest hcode]

/-- The text of a finite double without a sign, wherever no digit follows it. -/
theorem pointedText_spells {x : Float} (h : x.isFinite) (hs : isNegative x = false)
    {rest : List Char} (hrest : ∀ c ∈ rest.head?, ¬ c.isDigit) :
    (Token.number (.constant x)).Spells (pointedText x).toList rest := by
  obtain ⟨whole, fraction, htext, hwhole, hfraction, hnearest⟩ := pointedText_finite h
  have hfloat : x = (Decimal.ofDigits whole fraction).toFloat := by
    rw [Decimal.toFloat, hnearest, ofBits_code hs]
  refine ⟨whole, fraction, x, rfl, Decimal.denotes_iff.mpr hfloat, hwhole, hrest,
    .inl ⟨?_, hfraction⟩⟩
  rw [htext, signText, hs]
  rfl

end Number
end Formula
