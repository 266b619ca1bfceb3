import Mathlib
import Formula.Proofs.Plot.Sampling
import Formula.Proofs.Number.Arithmetic

/-!
The way of the samples along the horizontal axis. Each place but the last is the low end and a
multiple of the step, so rounding keeps them in order, and the last of these decides whether all
places stay in the range. It does if the width of the range is finite, the step has all its digits
and the samples are not too many.
-/

namespace Formula
open Number

/-- Places that lead from one end to the other. They begin at the low end as a number, since zero
has two doubles. -/
structure Traverses (low high : Float) (places : List Float) : Prop where
  finite : ∀ x ∈ places, x.isFinite
  starts : ∃ x, places.head? = some x ∧ x == low
  ends : places.getLast? = some high
  ordered : places.Pairwise (· ≤ ·)
  within : ∀ x ∈ places, low ≤ x ∧ x ≤ high

theorem Range.low_le_high (r : Range) : r.low ≤ r.high := by
  obtain ⟨hlow, hhigh, hlt⟩ := lt_iff.mp r.valid.2.2
  exact le_iff.mpr ⟨hlow, hhigh, hlt.le⟩

theorem Range.shows_iff {r : Range} {x : Float} :
    r.shows x ↔ x.isFinite ∧ r.low ≤ x ∧ x ≤ r.high := by
  rw [shows, Bool.and_eq_true, Bool.and_eq_true, decide_eq_true_eq, decide_eq_true_eq, and_assoc]

namespace Plot

/-- The way from one sample to the next. -/
def step (p : Plot) (samples : Nat) : Float :=
  (p.xRange.high - p.xRange.low) / Float.ofNat (samples - 1)

section Places
variable {p : Plot} {samples i j : Nat}

theorem place_last (p : Plot) (samples : Nat) : p.place samples (samples - 1) = p.xRange.high :=
  if_pos rfl

theorem place_eq (p : Plot) (h : i < samples - 1) :
    p.place samples i = p.xRange.low + p.step samples * Float.ofNat i :=
  if_neg h.ne

theorem value_width_nonneg (p : Plot) : 0 ≤ value (p.xRange.high - p.xRange.low) := by
  obtain ⟨hlow, hhigh, -⟩ := p.xRange.valid
  apply value_nonneg
  apply (rounds_sub hhigh hlow).zero_le
  exact sub_nonneg.mpr (value_le_of_le p.xRange.low_le_high)

theorem value_step_nonneg (hwidth : (p.xRange.high - p.xRange.low).isFinite) (h : 2 ≤ samples) :
    0 ≤ value (p.step samples) := by
  apply div_nonneg hwidth p.value_width_nonneg
  have hone : value 1.0 ≤ (samples - 1 : ℕ) := by
    rw [value_one]
    exact_mod_cast (by omega : 1 ≤ samples - 1)
  have hle := (rounds_ofNat (samples - 1)).le_value hone
  rw [value_one] at hle
  linarith

/-- What it takes for a place to be finite. -/
theorem finite_of_place (h : i < samples - 1) (hfinite : (p.place samples i).isFinite) :
    (p.xRange.high - p.xRange.low).isFinite ∧ (p.step samples).isFinite ∧
      (Float.ofNat i).isFinite ∧ (p.step samples * Float.ofNat i).isFinite := by
  rw [place_eq p h] at hfinite
  obtain ⟨-, hproduct⟩ := isFinite_of_add hfinite
  obtain ⟨hstep, hi⟩ := isFinite_of_mul hproduct
  exact ⟨isFinite_of_div hstep, hstep, hi, hproduct⟩

/-- A place before a finite one is no further along, and not before the low end. -/
theorem places_ordered (h : j < samples - 1) (hfinite : (p.place samples j).isFinite)
    (hij : i ≤ j) :
    p.xRange.low ≤ p.place samples i ∧ p.place samples i ≤ p.place samples j := by
  obtain ⟨hwidth, hstep, hj, hproduct⟩ := finite_of_place h hfinite
  have hmany : 2 ≤ samples := by omega
  have hnonneg := value_step_nonneg hwidth hmany
  have hle := ofNat_le hij
  have hi : (Float.ofNat i).isFinite := by
    apply isFinite_of_le_of_le _ hj (ofNat_le i.zero_le) hle
    decide +kernel
  -- the multiples of the step are in order, and they stay so beside the low end
  have hround := rounds_mul hstep hi
  have hlow := hround.zero_le (mul_nonneg hnonneg (value_ofNat_nonneg i))
  have hhigh : p.step samples * Float.ofNat i ≤ p.step samples * Float.ofNat j :=
    hround.le (rounds_mul hstep hj) (mul_le_mul_of_nonneg_left (value_le_of_le hle) hnonneg)
  have hfinite' := isFinite_of_le_of_le (x := 0.0) rfl hproduct hlow hhigh
  rw [place_eq p h, place_eq p (by omega)]
  have hadd := rounds_add p.xRange.valid.1 hfinite'
  constructor
  · apply hadd.ge_of_ge p.xRange.valid.1
    linarith [value_nonneg hlow]
  · apply hadd.le (rounds_add p.xRange.valid.1 hproduct)
    linarith [value_le_of_le hhigh]

theorem finite_of_places_ordered (h : j < samples - 1) (hfinite : (p.place samples j).isFinite)
    (hij : i ≤ j) : (p.place samples i).isFinite := by
  obtain ⟨hlow, hle⟩ := places_ordered h hfinite hij
  exact isFinite_of_le_of_le p.xRange.valid.1 hfinite hlow hle

/-- The first place is the low end as a number. -/
theorem place_zero_beq (h : 2 ≤ samples) (hfinite : (p.place samples 0).isFinite) :
    p.place samples 0 == p.xRange.low := by
  have h : 0 < samples - 1 := by omega
  obtain ⟨-, hstep, hzero, hproduct⟩ := finite_of_place h hfinite
  have hround := rounds_mul hstep hzero
  have hvalue : value (Float.ofNat 0) = 0 := by
    have h := rounds_ofNat 0
    rw [Nat.cast_zero, ← value_zero] at h
    exact h.value_self
  rw [hvalue, mul_zero, ← value_zero] at hround
  have hadd := rounds_add p.xRange.valid.1 hproduct
  rw [hround.value_self, value_zero, add_zero] at hadd
  rw [place_eq p h, beq_iff]
  exact ⟨hadd.isNaN, isNaN_eq_false p.xRange.valid.1, hadd.value_self⟩

section Shown
variable (h : 2 ≤ samples) (hshown : p.xRange.shows (p.place samples (samples - 2)))
include h hshown

/-- If the last place but one is shown then all places are, and they are in order. -/
theorem places_within (hi : i < samples) : (p.place samples i).isFinite ∧
    p.xRange.low ≤ p.place samples i ∧ p.place samples i ≤ p.xRange.high := by
  obtain ⟨hfinite, -, hhigh⟩ := Range.shows_iff.mp hshown
  have hlast : samples - 2 < samples - 1 := by omega
  rcases Nat.lt_or_eq_of_le (Nat.le_sub_one_of_lt hi) with hlt | rfl
  · have hle : i ≤ samples - 2 := by omega
    obtain ⟨hlow, hplace⟩ := places_ordered hlast hfinite hle
    exact ⟨finite_of_places_ordered hlast hfinite hle, hlow, le_of_le_of_le hplace hhigh⟩
  · have hhigh := p.xRange.valid.2.1
    rw [place_last]
    exact ⟨hhigh, p.xRange.low_le_high, le_self (isNaN_eq_false hhigh)⟩

theorem place_le_place (hij : i < j) (hj : j < samples) :
    p.place samples i ≤ p.place samples j := by
  rcases Nat.lt_or_eq_of_le (Nat.le_sub_one_of_lt hj) with hlt | rfl
  · exact (places_ordered hlt (places_within h hshown hj).1 hij.le).2
  · rw [place_last]
    exact (places_within h hshown (hij.trans hj)).2.2

end Shown

/-- The places of a plot. -/
def places (p : Plot) (samples : Nat) : List Float := (List.range samples).map (p.place samples)

theorem traverses_iff (h : 2 ≤ samples) :
    Traverses p.xRange.low p.xRange.high (p.places samples) ↔
      p.xRange.shows (p.place samples (samples - 2)) := by
  constructor
  · intro ht
    have hmem : p.place samples (samples - 2) ∈ p.places samples :=
      List.mem_map_of_mem (List.mem_range.mpr (by omega))
    exact Range.shows_iff.mpr ⟨ht.finite _ hmem, ht.within _ hmem⟩
  · intro hshown
    have hwithin {i : Nat} (hi : i < samples) := places_within h hshown hi
    constructor
    case finite =>
      intro x hx
      obtain ⟨i, hi, rfl⟩ := List.mem_map.mp hx
      exact (hwithin (List.mem_range.mp hi)).1
    case starts =>
      refine ⟨p.place samples 0, ?_, place_zero_beq h (hwithin (by omega)).1⟩
      rw [places, List.head?_map, List.head?_range, if_neg (by omega)]
      rfl
    case ends =>
      rw [places, List.getLast?_map, List.getLast?_range, if_neg (by omega), Option.map_some,
        place_last]
    case ordered =>
      rw [places, List.pairwise_map]
      apply List.pairwise_lt_range.imp_of_mem
      intro i j _ hj hij
      exact place_le_place h hshown hij (List.mem_range.mp hj)
    case within =>
      intro x hx
      obtain ⟨i, hi, rfl⟩ := List.mem_map.mp hx
      exact (hwithin (List.mem_range.mp hi)).2

end Places

/-- Three roundings of `m` steps do not make up for one step more. -/
theorem spread_le {s w m : ℚ} (hm : 0 ≤ m) (hmax : m + 1 ≤ 2 ^ 51) (hw : 0 ≤ w)
    (hs : s ≤ w / (m + 1) * (1 + 1 / 2 ^ 53)) : s * m * (1 + 1 / 2 ^ 53) ^ 2 ≤ w := by
  have hpower : (1 + 1 / 2 ^ 53 : ℚ) ^ 3 ≤ 1 + 1 / 2 ^ 51 := by norm_num
  have hpart : m * (1 / 2 ^ 51) ≤ 1 := by
    rw [mul_one_div, div_le_one (by positivity)]
    linarith
  have hspread : m * (1 + 1 / 2 ^ 53) ^ 3 ≤ m + 1 := by
    linarith [mul_le_mul_of_nonneg_left hpower hm]
  calc s * m * (1 + 1 / 2 ^ 53) ^ 2
      ≤ w / (m + 1) * (1 + 1 / 2 ^ 53) * m * (1 + 1 / 2 ^ 53) ^ 2 := by gcongr
    _ = w / (m + 1) * (m * (1 + 1 / 2 ^ 53) ^ 3) := by ring
    _ ≤ w / (m + 1) * (m + 1) := by gcongr
    _ = w := div_mul_cancel₀ w (by positivity)

theorem value_least_full : value 2.2250738585072014e-308 = 2 ^ (-1022 : ℤ) := by
  have hbits : 2.2250738585072014e-308 = Float.ofBits 0x0010000000000000 := by decide +kernel
  rw [hbits, ← Place.least_full]
  change ((2 ^ 52 : ℕ) : ℚ) * 2 ^ (-1074 : ℤ) = _
  rw [Nat.cast_pow, Nat.cast_ofNat]

section Regular
variable {p : Plot} {samples : Nat} (h : 2 ≤ samples) (hmax : samples ≤ 2 ^ 51)
  (hwidth : (p.xRange.high - p.xRange.low).isFinite)
  (hstep : 2.2250738585072014e-308 < p.step samples)
include h hmax hwidth hstep

/-- A step that has all its digits is little more than its part of the width. -/
theorem value_step_le : (p.step samples).isFinite ∧ 2 ^ (-1022 : ℤ) ≤ value (p.step samples) ∧
    value (p.step samples) ≤
      value (p.xRange.high - p.xRange.low) / (samples - 1 : ℕ) * (1 + 1 / 2 ^ 53) := by
  obtain ⟨hvalue, hfinite⟩ := (rounds_ofNat (samples - 1)).value_natCast (by omega)
  have hpos : (1 : ℚ) ≤ (samples - 1 : ℕ) := by exact_mod_cast (by omega : 1 ≤ samples - 1)
  have hround := rounds_div hwidth hfinite (by rw [hvalue]; linarith)
  rw [hvalue] at hround
  change Rounds _ (p.step samples) at hround
  have hleast := (lt_iff.mp hstep).2.2
  rw [value_least_full] at hleast
  -- a quotient without all its digits would not be rounded beyond the numbers that have them
  have hquotient : 2 ^ (-1022 : ℤ) ≤
      value (p.xRange.high - p.xRange.low) / (samples - 1 : ℕ) := by
    by_contra hlt
    rw [not_le, ← value_least_full] at hlt
    have hle := hround.value_le hlt.le
    rw [value_least_full] at hle
    linarith
  refine ⟨?_, hleast.le, hround.le_mul hquotient⟩
  have hunit := Place.unit_pos (-1022)
  apply isFinite_of_le_of_le (x := 0.0) rfl hwidth
  · exact hround.zero_le (by linarith)
  · apply hround.le_of_le hwidth
    exact div_le_self p.value_width_nonneg hpos

/-- The way to the last place but one is rounded to no more than the width, nor to more than the
width is before it is rounded. -/
theorem product_le : 0.0 ≤ p.step samples * Float.ofNat (samples - 2) ∧
    p.step samples * Float.ofNat (samples - 2) ≤ p.xRange.high - p.xRange.low ∧
    value (p.step samples * Float.ofNat (samples - 2)) ≤
      value p.xRange.high - value p.xRange.low := by
  obtain ⟨hfinite, hleast, hle⟩ := value_step_le h hmax hwidth hstep
  obtain ⟨hlow, hhigh, -⟩ := p.xRange.valid
  have hsub := value_sub_le hhigh hlow (value_le_of_le p.xRange.low_le_high)
  have hunit := Place.unit_pos (-1022)
  obtain ⟨m, rfl⟩ := Nat.exists_eq_add_of_le' h
  rw [Nat.add_sub_cancel]
  change _ ≤ _ / ((m + 1 : ℕ) : ℚ) * _ at hle
  rw [Nat.cast_succ] at hle
  have hmany : (m + 1 : ℚ) ≤ 2 ^ 51 := by exact_mod_cast (by omega : m + 1 ≤ 2 ^ 51)
  have hspread := spread_le m.cast_nonneg hmany p.value_width_nonneg hle
  have hround := rounds_mul_ofNat hfinite (by omega : m < 2 ^ 53)
  have hproduct := value_mul_ofNat_le hfinite hleast (by omega : m < 2 ^ 53)
  have hnonneg : 0 ≤ value (p.step (m + 2)) * m := mul_nonneg (by linarith) m.cast_nonneg
  refine ⟨hround.zero_le hnonneg, ?_, ?_⟩
  · apply hround.le_of_le hwidth
    linarith
  · -- one of the three roundings is that of the width itself
    linarith

theorem shows_place : p.xRange.shows (p.place samples (samples - 2)) := by
  obtain ⟨hlow, hhigh, -⟩ := p.xRange.valid
  obtain ⟨hzero, hproduct, hle⟩ := product_le h hmax hwidth hstep
  have hfinite := isFinite_of_le_of_le (x := 0.0) rfl hwidth hzero hproduct
  have hround := rounds_add hlow hfinite
  rw [Range.shows_iff, place_eq p (by omega)]
  have hbegin : p.xRange.low ≤ p.xRange.low + p.step samples * Float.ofNat (samples - 2) :=
    hround.ge_of_ge hlow (by linarith [value_nonneg hzero])
  have hend : p.xRange.low + p.step samples * Float.ofNat (samples - 2) ≤ p.xRange.high :=
    hround.le_of_le hhigh (by linarith)
  exact ⟨isFinite_of_le_of_le hlow hhigh hbegin hend, hbegin, hend⟩

end Regular

variable {text : String} {xMin xMax yMin yMax : Float} {p : Plot} {samples : Nat}

/-- The samples of a plot are taken on the way from one end of the range to the other exactly if the
last one whose place is computed is in the range. For this the range must not be wider than doubles
are, and it is enough then that the step has all its digits and there are not too many samples. -/
theorem ofText_sample_traverses (hp : ofText text xMin xMax yMin yMax = .ok p) (h : 2 ≤ samples)
    (c : Collector) :
    ∃ points, p.sample samples c = .ok points ∧
      (Traverses xMin xMax (points.map Point.x) ↔
        p.xRange.shows (p.place samples (samples - 2))) ∧
      (Traverses xMin xMax (points.map Point.x) → (xMax - xMin).isFinite) ∧
      ((xMax - xMin).isFinite →
        2.2250738585072014e-308 < (xMax - xMin) / Float.ofNat (samples - 1) →
        samples ≤ 2 ^ 51 → Traverses xMin xMax (points.map Point.x)) := by
  have hdepicts := depicts_of_ofText hp
  obtain ⟨f, -, hsample⟩ := p.exists_sample c h
  refine ⟨_, hsample, ?_⟩
  rw [List.map_map, ← hdepicts.x_low, ← hdepicts.x_high]
  change (Traverses _ _ (p.places samples) ↔ _) ∧ (Traverses _ _ (p.places samples) → _) ∧
    (_ → _ → _ → Traverses _ _ (p.places samples))
  rw [traverses_iff h]
  refine ⟨Iff.rfl, ?_, ?_⟩
  · intro hshown
    exact (finite_of_place (by omega) (Range.shows_iff.mp hshown).1).1
  · intro hwidth hstep hmax
    exact shows_place h hmax hwidth hstep

theorem ofText_sample_traverses_unit : ∃ p points,
    ofText "x" (-1.0) 1.0 (-1.0) 1.0 = .ok p ∧ p.sample 3 = .ok points ∧
      Traverses (-1.0) 1.0 (points.map Point.x) := by
  have hread : Expr.ofText "x" = .ok (.var "x") := by cbv
  have hrange : Proper (-1.0) 1.0 := by decide
  have hbinds := bindsOnly_singleton plotVariable 0.0
  obtain ⟨p, hp⟩ := (exists_ofText_iff hbinds).mpr ⟨_, hread, hrange, hrange, 0.0, rfl⟩
  obtain ⟨points, hsample, -, -, htraverses⟩ :=
    ofText_sample_traverses hp (by decide : 2 ≤ 3) .sequential
  exact ⟨p, points, hp, hsample, htraverses (by decide) (by decide +kernel) (by decide)⟩

/-- The width of a range may be too large for a double, and then no place but the last is one. -/
theorem ofText_sample_overflow : ∃ p points,
    ofText "x" (-1.7e308) 1.7e308 (-10.0) 10.0 = .ok p ∧ p.sample 2 = .ok points ∧
      ¬ Traverses (-1.7e308) 1.7e308 (points.map Point.x) := by
  have hread : Expr.ofText "x" = .ok (.var "x") := by cbv
  have hx : Proper (-1.7e308) 1.7e308 := by decide +kernel
  have hy : Proper (-10.0) 10.0 := by decide
  have hbinds := bindsOnly_singleton plotVariable 0.0
  obtain ⟨p, hp⟩ := (exists_ofText_iff hbinds).mpr ⟨_, hread, hx, hy, 0.0, rfl⟩
  have hdepicts := depicts_of_ofText hp
  obtain ⟨f, -, hsample⟩ := p.exists_sample .sequential (by decide : 2 ≤ 2)
  refine ⟨p, _, hp, hsample, ?_⟩
  intro htraverses
  have hfinite := htraverses.finite (p.place 2 0) List.mem_cons_self
  rw [place, hdepicts.x_low, hdepicts.x_high] at hfinite
  revert hfinite
  decide +kernel

/-- A step that has lost digits may lead beyond the end. -/
example : 1.5e-323 < 0.0 + (1.5e-323 - 0.0) / Float.ofNat 5 * Float.ofNat 4 := by decide +kernel

end Plot
end Formula
