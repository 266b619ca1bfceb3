/-!
How the results of many computations that may fail are put together. The computations may be
carried out in any order or at the same time, as long as each result comes to its own place and
nothing fails but a computation.
-/

namespace Formula

structure Collector where
  /-- The results for all numbers below the given one. -/
  collect {α ε : Type} : Nat → (Nat → Except ε α) → Except ε (List α)
  /-- Each result comes to its own place. -/
  ordered {α ε : Type} {n : Nat} {f : Nat → Except ε α} {results : List α}
    (h : collect n f = .ok results) : (List.range n).map f = results.map .ok
  /-- An error is that of a computation. -/
  failed {α ε : Type} {n : Nat} {f : Nat → Except ε α} {e : ε} (h : collect n f = .error e) :
    ∃ i < n, f i = .error e

namespace Collector

variable {α ε : Type} {f : Nat → Except ε α}

theorem map_of_mapM {l : List Nat} {results : List α} (h : l.mapM f = .ok results) :
    l.map f = results.map .ok := by
  induction l generalizing results with
  | nil =>
      obtain rfl : [] = results := Except.ok.inj h
      rfl
  | cons i l ih =>
      rw [List.mapM_cons] at h
      cases hi : f i with
      | error e => simp [hi, bind, Except.bind] at h
      | ok a =>
          cases hl : l.mapM f with
          | error e => simp [hi, hl, bind, Except.bind] at h
          | ok rest =>
              obtain rfl : a :: rest = results := by
                simpa [hi, hl, bind, Except.bind, pure, Except.pure] using h
              rw [List.map_cons, List.map_cons, hi, ih hl]

theorem exists_of_mapM {l : List Nat} {e : ε} (h : l.mapM f = .error e) :
    ∃ i ∈ l, f i = .error e := by
  induction l with
  | nil => exact nomatch h
  | cons i l ih =>
      rw [List.mapM_cons] at h
      cases hi : f i with
      | error e' =>
          obtain rfl : e' = e := by simpa [hi, bind, Except.bind] using h
          exact ⟨i, List.mem_cons_self, hi⟩
      | ok a =>
          cases hl : l.mapM f with
          | ok rest => simp [hi, hl, bind, Except.bind, pure, Except.pure] at h
          | error e' =>
              obtain rfl : e' = e := by simpa [hi, hl, bind, Except.bind] using h
              obtain ⟨j, hj, hfail⟩ := ih hl
              exact ⟨j, List.mem_cons_of_mem i hj, hfail⟩

/-- One computation after the other, up to the first that fails. -/
def sequential : Collector where
  collect n f := (List.range n).mapM f
  ordered := map_of_mapM
  failed h := by simpa using exists_of_mapM h

/-- Where no computation fails, all results are there. -/
theorem collect_eq (c : Collector) {n : Nat} {result : Nat → α} (h : ∀ i, f i = .ok (result i)) :
    c.collect n f = .ok ((List.range n).map result) := by
  cases hc : c.collect n f with
  | error e =>
      obtain ⟨i, -, hi⟩ := c.failed hc
      exact nomatch hi.symm.trans (h i)
  | ok results =>
      have hmap := c.ordered hc
      rw [funext h, ← Function.comp_def, ← List.map_map] at hmap
      rw [List.map_inj_right (fun _ _ => Except.ok.inj) |>.mp hmap]

end Collector
end Formula
