import Formula.Expr.Evaluation

/-!
What a formula needs of its bindings. It has a value as soon as each of its names has one, since
arithmetic never fails, and otherwise the leftmost leaf without a value is reported. Bindings of
other names are never seen. The variables are listed in strictly increasing order, so the first of
them that has some property is the least one that has it.
-/

namespace Formula

/-- Whether a name has no value. -/
def Bindings.lacks (bindings : Bindings) (name : String) : Bool := (bindings.lookup name).isNone

namespace Expr

/-- A formula has a value exactly if all its names are bound. -/
theorem exists_evaluate_iff (bindings : Bindings) (e : Expr) :
    (∃ v, e.evaluate bindings = .ok v) ↔ ∀ name ∈ e.names, (bindings.lookup name).isSome := by
  induction e with
  | constant x => exact ⟨fun _ _ h => absurd h List.not_mem_nil, fun _ => ⟨x, rfl⟩⟩
  | var name =>
      rw [evaluate, names, List.forall_mem_singleton]
      cases bindings.lookup name <;> simp
  | binary op l r ihl ihr =>
      rw [names, List.forall_mem_append, ← ihl, ← ihr, evaluate]
      cases l.evaluate bindings with
      | error x => exact ⟨nofun, nofun⟩
      | ok a =>
          cases r.evaluate bindings with
          | error x => exact ⟨nofun, nofun⟩
          | ok b => exact ⟨fun _ => ⟨⟨a, rfl⟩, b, rfl⟩, fun _ => ⟨op.apply a b, rfl⟩⟩

theorem pairwise_insertName {name : String} {ns : List String} (h : ns.Pairwise (· < ·)) :
    (insertName name ns).Pairwise (· < ·) := by
  induction ns with
  | nil => exact List.pairwise_singleton _ _
  | cons n ns ih =>
      obtain ⟨hn, hns⟩ := List.pairwise_cons.mp h
      rw [insertName]
      split
      · next hlt =>
          refine List.pairwise_cons.mpr ⟨fun m hm => ?_, h⟩
          obtain rfl | hm := List.mem_cons.mp hm
          · exact hlt
          · exact String.lt_trans hlt (hn m hm)
      · split
        · exact h
        · next hlt hne =>
            refine List.pairwise_cons.mpr ⟨fun m hm => ?_, ih hns⟩
            obtain rfl | hm := mem_insertName.mp hm
            · refine Decidable.byContradiction fun hnlt => hne ?_
              exact String.le_antisymm (String.not_lt.mp hnlt) (String.not_lt.mp hlt)
            · exact hn m hm

theorem pairwise_vars (e : Expr) : e.vars.Pairwise (· < ·) := by
  rw [vars]
  induction e.names with
  | nil => exact .nil
  | cons name names ih => exact pairwise_insertName ih

/-- The variable that is found first is the least one. -/
theorem find?_vars {e : Expr} {p : String → Bool} {name : String}
    (h : e.vars.find? p = some name) :
    name ∈ e.names ∧ p name ∧ ∀ n ∈ e.names, p n → name ≤ n := by
  obtain ⟨hp, front, back, hsplit, hfront⟩ := List.find?_eq_some_iff_append.mp h
  refine ⟨mem_vars.mp (List.mem_of_find?_eq_some h), hp, fun n hn hpn => ?_⟩
  have hsorted := e.pairwise_vars
  rw [hsplit] at hsorted
  have hmem := mem_vars.mpr hn
  rw [hsplit] at hmem
  obtain hmem | hmem := List.mem_append.mp hmem
  · exact absurd hpn (by simpa using hfront n hmem)
  · obtain rfl | hmem := List.mem_cons.mp hmem
    · exact String.le_refl n
    · have hlt : name < n :=
        (List.pairwise_cons.mp (List.pairwise_append.mp hsorted).2.1).1 n hmem
      exact String.not_lt.mp (String.lt_asymm hlt)

section Names
variable {bindings bindings' : Bindings} {e : Expr} {name : String}

/-- An evaluation fails at the leftmost leaf that has no value. -/
theorem evaluate_error_iff :
    e.evaluate bindings = .error (.unboundVariable name) ↔
      e.names.find? bindings.lacks = some name := by
  induction e generalizing name with
  | constant x => exact ⟨nofun, nofun⟩
  | var n =>
      rw [evaluate, names, List.find?_singleton, Bindings.lacks]
      cases bindings.lookup n <;> simp
  | binary op l r ihl ihr =>
      rw [evaluate, names, List.find?_append, Option.or_eq_some_iff, ← ihl, ← ihr]
      cases hl : l.evaluate bindings with
      | error x =>
          obtain ⟨m⟩ := x
          have hm : l.names.find? bindings.lacks = some m := ihl.mp hl
          rw [hm]
          exact ⟨.inl, fun h => h.resolve_right fun hr => nomatch hr.1⟩
      | ok a =>
          have hnone : l.names.find? bindings.lacks = none := by
            refine Option.eq_none_iff_forall_ne_some.mpr fun m hm => ?_
            have hfail := ihl.mpr hm
            rw [hl] at hfail
            contradiction
          rw [hnone]
          cases r.evaluate bindings with
          | error y => exact ⟨fun h => .inr ⟨rfl, h⟩, fun h => (h.resolve_left nofun).2⟩
          | ok b => exact ⟨nofun, fun h => absurd (h.resolve_left nofun).2 nofun⟩

/-- An evaluation asks for the values of its own names only. -/
theorem evaluate_congr (h : ∀ n ∈ e.names, bindings'.lookup n = bindings.lookup n) :
    e.evaluate bindings' = e.evaluate bindings := by
  induction e with
  | constant x => rfl
  | var n => rw [evaluate, evaluate, h n (List.mem_singleton_self n)]
  | binary op l r ihl ihr =>
      obtain ⟨hl, hr⟩ := List.forall_mem_append.mp h
      rw [evaluate, evaluate, ihl hl, ihr hr]

theorem lookup_filter_of_ne {n : String} (h : n ≠ name) :
    (bindings.filter (·.1 != name)).lookup n = bindings.lookup n := by
  induction bindings with
  | nil => rfl
  | cons entry bindings ih =>
      obtain ⟨m, value⟩ := entry
      by_cases hm : m = name
      · subst hm
        rw [List.filter_cons_of_neg (by simp), ih, List.lookup_cons, beq_false_of_ne h]
      · rw [List.filter_cons_of_pos (by simpa using hm), List.lookup_cons, List.lookup_cons, ih]

end Names

/-- An evaluation fails at the leftmost leaf without a value and nowhere else, and bindings of other
names are never seen. -/
theorem evaluate_sees_names (e : Expr) (bindings : Bindings) :
    ((∃ v, e.evaluate bindings = .ok v) ↔ ∀ name ∈ e.vars, (bindings.lookup name).isSome) ∧
    (∀ name, e.evaluate bindings = .error (.unboundVariable name) ↔
      e.names.find? bindings.lacks = some name) ∧
    (∀ bindings' : Bindings, (∀ name ∈ e.vars, bindings'.lookup name = bindings.lookup name) →
      e.evaluate bindings' = e.evaluate bindings) ∧
    ∀ name ∉ e.vars,
      (∀ value, e.evaluate ((name, value) :: bindings) = e.evaluate bindings) ∧
        e.evaluate (bindings.filter (·.1 != name)) = e.evaluate bindings := by
  have hcongr (bindings' : Bindings)
      (h : ∀ name ∈ e.vars, bindings'.lookup name = bindings.lookup name) :
      e.evaluate bindings' = e.evaluate bindings :=
    evaluate_congr fun n hn => h n (mem_vars.mpr hn)
  refine ⟨?_, fun name => evaluate_error_iff, hcongr, fun name hname => ?_⟩
  · simp only [exists_evaluate_iff, mem_vars]
  · have hne (n : String) (hn : n ∈ e.vars) : n ≠ name := fun heq => hname (heq ▸ hn)
    refine ⟨fun value => hcongr _ fun n hn => ?_,
      hcongr _ fun n hn => lookup_filter_of_ne (hne n hn)⟩
    rw [List.lookup_cons, beq_false_of_ne (hne n hn)]

/-- The formula `y / y * (z + x)`. -/
def halfBound : Expr :=
  binary .product (binary .quotient (var "y") (var "y")) (binary .sum (var "z") (var "x"))

/-- With a zero for `y` the left operand is no number, and of the two names without a value the left
one is reported, although it comes last in the order of names. -/
theorem evaluate_sees_names_halfBound :
    halfBound.vars = ["x", "y", "z"] ∧ "t" ∉ halfBound.vars ∧
      halfBound.evaluate [("y", 0.0)] = .error (.unboundVariable "z") ∧
      halfBound.evaluate [("t", 1.0), ("y", 0.0)] = .error (.unboundVariable "z") := by
  have hvars : halfBound.vars = ["x", "y", "z"] := by decide
  have ht : "t" ∉ halfBound.vars := by rw [hvars]; decide
  obtain ⟨-, herror, -, hother⟩ := evaluate_sees_names halfBound [("y", 0.0)]
  have hz : halfBound.evaluate [("y", 0.0)] = .error (.unboundVariable "z") :=
    (herror "z").mpr rfl
  exact ⟨hvars, ht, hz, ((hother "t" ht).1 1.0).trans hz⟩

end Expr
end Formula
