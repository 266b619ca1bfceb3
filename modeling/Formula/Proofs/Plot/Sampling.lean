import Mathlib
import Formula.Plot.Basic
import Formula.Proofs.Expr.Binding

/-!
A plot that has been made can be drawn. The variables of its formula are looked at before, so no
sample fails: there are as many points as samples, each at its own place, and a point has a height
exactly where the formula has a finite value within the picture. Whatever speaks against a plot is
found when it is made, and the first flaw in the order of the checks is the one that is reported.
-/

namespace Formula

/-- Two ends that have something between them. -/
def Proper (low high : Float) : Prop := low.isFinite ∧ high.isFinite ∧ low < high

instance (low high : Float) : Decidable (Proper low high) :=
  inferInstanceAs (Decidable (low.isFinite ∧ high.isFinite ∧ low < high))

namespace Range

theorem ofEnds_cases (axis : Axis) (low high : Float) :
    (¬ Proper low high ∧ ofEnds axis low high = .error (.emptyRange axis low high)) ∨
      ∃ r, Proper low high ∧ ofEnds axis low high = .ok r ∧ r.low = low ∧ r.high = high := by
  rw [ofEnds]
  split
  · next h => exact .inr ⟨_, h, rfl, rfl, rfl⟩
  · next h => exact .inl ⟨h, rfl⟩

end Range

namespace Plot
variable {text : String} {xMin xMax yMin yMax : Float}

/-- What speaks against a plot, and nothing that is looked at before does. -/
inductive Flaw (text : String) (xMin xMax yMin yMax : Float) : PlotError → Prop
  | unread {x} (read : Expr.ofText text = .error x) : Flaw text xMin xMax yMin yMax (.parse x)
  | narrow {f} (read : Expr.ofText text = .ok f) (x : ¬ Proper xMin xMax) :
      Flaw text xMin xMax yMin yMax (.emptyRange .x xMin xMax)
  | flat {f} (read : Expr.ofText text = .ok f) (x : Proper xMin xMax) (y : ¬ Proper yMin yMax) :
      Flaw text xMin xMax yMin yMax (.emptyRange .y yMin yMax)
  | foreign {f name} (read : Expr.ofText text = .ok f) (x : Proper xMin xMax)
      (y : Proper yMin yMax) (mem : name ∈ f.names) (other : name ≠ plotVariable)
      (least : ∀ n ∈ f.names, n ≠ plotVariable → name ≤ n) :
      Flaw text xMin xMax yMin yMax (.evaluation (.unboundVariable name))

/-- The plot shows the formula of the text over the ranges. -/
structure Depicts (text : String) (xMin xMax yMin yMax : Float) (p : Plot) : Prop where
  read : Expr.ofText text = .ok p.function
  x : Proper xMin xMax
  y : Proper yMin yMax
  x_low : p.xRange.low = xMin
  x_high : p.xRange.high = xMax
  y_low : p.yRange.low = yMin
  y_high : p.yRange.high = yMax

theorem ofText_cases (text : String) (xMin xMax yMin yMax : Float) :
    (∃ x, ofText text xMin xMax yMin yMax = .error x ∧ Flaw text xMin xMax yMin yMax x) ∨
      ∃ p, ofText text xMin xMax yMin yMax = .ok p ∧ Depicts text xMin xMax yMin yMax p := by
  rw [ofText]
  cases hread : Expr.ofText text with
  | error x => exact .inl ⟨_, rfl, .unread hread⟩
  | ok f =>
      obtain ⟨hx, hofx⟩ | ⟨xRange, hx, hofx, hxlow, hxhigh⟩ := Range.ofEnds_cases .x xMin xMax
      · rw [hofx]
        exact .inl ⟨_, rfl, .narrow hread hx⟩
      · rw [hofx]
        obtain ⟨hy, hofy⟩ | ⟨yRange, hy, hofy, hylow, hyhigh⟩ := Range.ofEnds_cases .y yMin yMax
        · rw [hofy]
          exact .inl ⟨_, rfl, .flat hread hx hy⟩
        · rw [hofy]
          simp only [Except.mapError, bind, Except.bind]
          split
          · next name hfind =>
              obtain ⟨hmem, hother, hleast⟩ := Expr.find?_vars hfind
              refine .inl ⟨_, rfl, .foreign hread hx hy hmem (by simpa using hother) ?_⟩
              exact fun n hn hne => hleast n hn (by simpa using hne)
          · exact .inr ⟨_, rfl, hread, hx, hy, hxlow, hxhigh, hylow, hyhigh⟩

/-- Bindings in which the variable of the plot has a value and nothing else does. -/
def BindsOnly (name : String) (bindings : Bindings) : Prop :=
  ∀ n, (bindings.lookup n).isSome ↔ n = name

theorem bindsOnly_singleton (name : String) (x : Float) : BindsOnly name [(name, x)] := by
  intro n
  rw [List.lookup_cons]
  by_cases h : n = name
  · simp [h]
  · simp [beq_false_of_ne h, h]

/-- The formula of a plot has a value at every place. -/
theorem exists_evaluate (p : Plot) {bindings : Bindings} (h : BindsOnly plotVariable bindings) :
    ∃ v, p.function.evaluate bindings = .ok v :=
  (p.function.exists_evaluate_iff bindings).mpr fun name hname =>
    (h name).mpr (p.only_x name (Expr.mem_vars.mpr hname))

namespace Flaw
variable {x y : PlotError}

theorem not_depicts (h : Flaw text xMin xMax yMin yMax x) {p : Plot} :
    ¬ Depicts text xMin xMax yMin yMax p := by
  intro hp
  cases h with
  | unread read => exact nomatch read.symm.trans hp.read
  | narrow _ x => exact x hp.x
  | flat _ _ y => exact y hp.y
  | foreign read _ _ mem other _ =>
      obtain rfl := Except.ok.inj (read.symm.trans hp.read)
      exact other (p.only_x _ (Expr.mem_vars.mpr mem))

/-- Only one flaw is the first. -/
theorem unique (h : Flaw text xMin xMax yMin yMax x) (h' : Flaw text xMin xMax yMin yMax y) :
    x = y := by
  cases h with
  | unread read =>
      cases h' with
      | unread read' => rw [Except.error.inj (read.symm.trans read')]
      | narrow read' _ | flat read' _ _ | foreign read' _ _ _ _ _ =>
          exact nomatch read.symm.trans read'
  | narrow read x =>
      cases h' with
      | unread read' => exact nomatch read.symm.trans read'
      | narrow _ _ => rfl
      | flat _ x' _ | foreign _ x' _ _ _ _ => exact absurd x' x
  | flat read x y =>
      cases h' with
      | unread read' => exact nomatch read.symm.trans read'
      | narrow _ x' => exact absurd x x'
      | flat _ _ _ => rfl
      | foreign _ _ y' _ _ _ => exact absurd y' y
  | foreign read x y mem other least =>
      cases h' with
      | unread read' => exact nomatch read.symm.trans read'
      | narrow _ x' => exact absurd x x'
      | flat _ _ y' => exact absurd y y'
      | foreign read' _ _ mem' other' least' =>
          obtain rfl := Except.ok.inj (read.symm.trans read')
          rw [String.le_antisymm (least _ mem' other') (least' _ mem other)]

end Flaw

theorem depicts_of_ofText {p : Plot} (h : ofText text xMin xMax yMin yMax = .ok p) :
    Depicts text xMin xMax yMin yMax p := by
  obtain ⟨x, hx, -⟩ | ⟨p', hp', hdepicts⟩ := ofText_cases text xMin xMax yMin yMax
  · exact nomatch hx.symm.trans h
  · exact Except.ok.inj (hp'.symm.trans h) ▸ hdepicts

theorem ofText_error_iff {x : PlotError} :
    ofText text xMin xMax yMin yMax = .error x ↔ Flaw text xMin xMax yMin yMax x := by
  obtain ⟨y, hy, hflaw⟩ | ⟨p, hp, hdepicts⟩ := ofText_cases text xMin xMax yMin yMax
  · rw [hy]
    constructor
    · intro h
      exact Except.error.inj h ▸ hflaw
    · intro h
      rw [hflaw.unique h]
  · rw [hp]
    exact iff_of_false nofun fun h => h.not_depicts hdepicts

theorem exists_ofText_iff {bindings : Bindings} (h : BindsOnly plotVariable bindings) :
    (∃ p, ofText text xMin xMax yMin yMax = .ok p) ↔
      ∃ f, Expr.ofText text = .ok f ∧ Proper xMin xMax ∧ Proper yMin yMax ∧
        ∃ v, f.evaluate bindings = .ok v := by
  constructor
  · rintro ⟨p, hp⟩
    have hdepicts := depicts_of_ofText hp
    exact ⟨p.function, hdepicts.read, hdepicts.x, hdepicts.y, p.exists_evaluate h⟩
  · rintro ⟨f, hread, hx, hy, hv⟩
    obtain ⟨x, -, hflaw⟩ | ⟨p, hp, -⟩ := ofText_cases text xMin xMax yMin yMax
    · cases hflaw with
      | unread read => exact nomatch read.symm.trans hread
      | narrow _ x => exact absurd hx x
      | flat _ _ y => exact absurd hy y
      | @foreign g name read _ _ mem other _ =>
          obtain rfl := Except.ok.inj (read.symm.trans hread)
          have hbound := (g.exists_evaluate_iff bindings).mp hv name mem
          exact absurd ((h name).mp hbound) other
    · exact ⟨p, hp⟩

theorem point_of_evaluate {p : Plot} {x v : Float}
    (h : p.function.evaluate [(plotVariable, x)] = .ok v) :
    p.point x = .ok { x, y := if p.yRange.shows v then some v else none } := by
  rw [point, h]
  rfl

/-- The samples of a plot, with the value of the formula at each place. -/
theorem exists_sample (p : Plot) {samples : Nat} (c : Collector) (h : 2 ≤ samples) :
    ∃ value : Float → Float, (∀ x, p.function.evaluate [(plotVariable, x)] = .ok (value x)) ∧
      p.sample samples c = .ok ((List.range samples).map fun i =>
        { x := p.place samples i
          y := if p.yRange.shows (value (p.place samples i)) then
              some (value (p.place samples i)) else none }) := by
  have hvalue (x : Float) := p.exists_evaluate (bindsOnly_singleton plotVariable x)
  obtain ⟨value, hvalue⟩ := Classical.axiomOfChoice hvalue
  have hpoint (i : Nat) := point_of_evaluate (hvalue (p.place samples i))
  refine ⟨value, hvalue, ?_⟩
  rw [sample, if_neg (Nat.not_lt.mpr h), c.collect_eq hpoint]
  rfl

/-- A plot is made exactly if nothing speaks against it, and then all its samples can be taken. -/
theorem ofText_sample (text : String) (xMin xMax yMin yMax : Float) :
    (∀ bindings, BindsOnly plotVariable bindings →
      ((∃ p, ofText text xMin xMax yMin yMax = .ok p) ↔
        ∃ f, Expr.ofText text = .ok f ∧ Proper xMin xMax ∧ Proper yMin yMax ∧
          ∃ v, f.evaluate bindings = .ok v)) ∧
    (∀ x, ofText text xMin xMax yMin yMax = .error x ↔ Flaw text xMin xMax yMin yMax x) ∧
    ∀ p samples (c : Collector), ofText text xMin xMax yMin yMax = .ok p →
      (samples < 2 → p.sample samples c = .error (.tooFewSamples samples)) ∧
      (2 ≤ samples → ∃ f points, Expr.ofText text = .ok f ∧ p.sample samples c = .ok points ∧
        points.length = samples ∧ ∀ i, i < samples → ∃ x v,
          x = (if i = samples - 1 then xMax
            else xMin + (xMax - xMin) / Float.ofNat (samples - 1) * Float.ofNat i) ∧
          f.evaluate [(plotVariable, x)] = .ok v ∧
          points[i]? =
            some { x, y := if v.isFinite ∧ yMin ≤ v ∧ v ≤ yMax then some v else none }) := by
  refine ⟨fun _ => exists_ofText_iff, fun _ => ofText_error_iff, fun p samples c hp => ?_⟩
  have hdepicts := depicts_of_ofText hp
  refine ⟨fun hfew => if_pos hfew, fun hmany => ?_⟩
  obtain ⟨value, hvalue, hsample⟩ := p.exists_sample c hmany
  refine ⟨p.function, _, hdepicts.read, hsample, by simp, fun i hi => ?_⟩
  have hplace : p.place samples i = if i = samples - 1 then xMax
      else xMin + (xMax - xMin) / Float.ofNat (samples - 1) * Float.ofNat i := by
    rw [place, hdepicts.x_low, hdepicts.x_high]
  refine ⟨p.place samples i, value (p.place samples i), hplace, hvalue _, ?_⟩
  simp only [List.getElem?_map, List.getElem?_range hi, Option.map_some, Range.shows,
    hdepicts.y_low, hdepicts.y_high, Bool.and_eq_true, decide_eq_true_eq, and_assoc]

/-- The second of three samples of `x/x` is at zero, where the plot has a gap. -/
theorem ofText_sample_gap :
    BindsOnly plotVariable [(plotVariable, 0.0)] ∧
      ∃ p, ofText "x/x" (-1.0) 1.0 (-10.0) 10.0 = .ok p ∧
        p.sample 1 = .error (.tooFewSamples 1) ∧
        ∃ points, p.sample 3 = .ok points ∧ points.length = 3 ∧
          points[1]? = some { x := 0.0, y := none } := by
  obtain ⟨haccepted, -, hsample⟩ := ofText_sample "x/x" (-1.0) 1.0 (-10.0) 10.0
  have hbinds := bindsOnly_singleton plotVariable 0.0
  have hread : Expr.ofText "x/x" = .ok (.binary .quotient (.var "x") (.var "x")) := by cbv
  have hx : Proper (-1.0) 1.0 := by decide
  have hy : Proper (-10.0) 10.0 := by decide
  obtain ⟨p, hp⟩ := (haccepted _ hbinds).mpr ⟨_, hread, hx, hy, 0.0 / 0.0, rfl⟩
  obtain ⟨f, points, hf, hpoints, hlength, hplaces⟩ := (hsample p 3 .sequential hp).2 (by decide)
  obtain ⟨x, v, hplace, hvalue, hpoint⟩ := hplaces 1 (by decide)
  obtain rfl : x = 0.0 := hplace.trans (by decide +kernel)
  obtain rfl := Except.ok.inj (hread.symm.trans hf)
  obtain rfl : 0.0 / 0.0 = v := Except.ok.inj hvalue
  refine ⟨hbinds, p, hp, (hsample p 1 .sequential hp).1 (by decide), points, hpoints, hlength, ?_⟩
  rw [hpoint, if_neg (by decide)]

end Plot
end Formula
