import Mathlib.Algebra.Ring.Nat
import Formula.Proofs.Phrase.Stack

/-!
What the steps of a run keep. The operations that are joined and those that the waiting phrases
will join are the burden of a stage, which no step makes lighter. A run that ends well has carried
no more than a formula may have, and one that is too long has met as many signs.
-/

namespace Formula

theorem ok_of_bind_ok {α β : Type} {r : Except ParseError α} {f : α → Except ParseError β} {b : β}
    (h : r >>= f = .ok b) : ∃ a, r = .ok a ∧ f a = .ok b := by
  cases r with
  | ok a => exact ⟨a, rfl, h⟩
  | error x => contradiction

theorem error_of_bind_error {α β : Type} {r : Except ParseError α} {f : α → Except ParseError β}
    {x : ParseError} (h : r >>= f = .error x) :
    r = .error x ∨ ∃ a, r = .ok a ∧ f a = .error x := by
  cases r with
  | ok a => exact .inr ⟨a, rfl, h⟩
  | error y =>
      obtain rfl := Except.error.inj h
      exact .inl rfl

namespace Frame

/-- The operations that a phrase joins once it is completed. -/
def owed : Frame → Nat
  | sum _ _ | product _ _ | power _ => 1
  | sign symbol => if symbol = '-' then 1 else 0
  | group | adjacent _ => 0

/-- The sign of a sum or a product is an operator. -/
def Sound : Frame → Prop
  | sum _ symbol | product _ symbol => ∃ op, Operator.ofSymbol symbol = .ok op
  | _ => True

variable {f : Frame} {e e' : Expr} {n n' : Nat} {x : ParseError}

theorem complete_ok (h : f.complete e n = .ok (e', n')) :
    n' = n + f.owed ∧ (n ≤ maxOperations → n' ≤ maxOperations) := by
  cases f with
  | sum left symbol | product left symbol =>
      rw [complete] at h
      split at h
      · exact ⟨(counted_ok h).1, fun _ => (counted_ok h).2⟩
      · contradiction
  | power base => exact ⟨(counted_ok h).1, fun _ => (counted_ok h).2⟩
  | sign symbol =>
      rw [complete] at h
      split at h
      · next hsymbol =>
          rw [owed, if_pos hsymbol]
          exact ⟨(counted_ok h).1, fun _ => (counted_ok h).2⟩
      · next hsymbol =>
          obtain ⟨-, rfl⟩ : e = e' ∧ n = n' := by simpa using h
          rw [owed, if_neg hsymbol]
          exact ⟨rfl, id⟩
  | group | adjacent _ =>
      obtain ⟨-, rfl⟩ : e = e' ∧ n = n' := by simpa [complete] using h
      exact ⟨rfl, id⟩

theorem complete_error (hf : f.Sound) (h : f.complete e n = .error x) :
    x = .tooLong maxOperations ∧ maxOperations < n + f.owed := by
  cases f with
  | sum left symbol | product left symbol =>
      obtain ⟨op, hop⟩ := hf
      simp only [complete, hop] at h
      exact counted_error h
  | power base => exact counted_error h
  | sign symbol =>
      rw [complete] at h
      split at h
      · next hsymbol =>
          rw [owed, if_pos hsymbol]
          exact counted_error h
      · contradiction
  | group | adjacent _ => contradiction

end Frame

def owed (fs : List Frame) : Nat := (fs.map Frame.owed).sum

@[simp] theorem owed_nil : owed [] = 0 := rfl

@[simp] theorem owed_cons (f : Frame) (fs : List Frame) : owed (f :: fs) = f.owed + owed fs := rfl

/-- Completing phrases joins what they owe and takes them off the stack. -/
theorem unwind_ok {r : Nat} {e e' : Expr} {n n' : Nat} {fs fs' : List Frame}
    (h : unwind r e n fs = .ok (e', n', fs')) :
    fs' <:+ fs ∧ n' + owed fs' = n + owed fs ∧ (n ≤ maxOperations → n' ≤ maxOperations) := by
  induction fs generalizing e n with
  | nil =>
      obtain ⟨rfl, rfl, rfl⟩ : e = e' ∧ n = n' ∧ [] = fs' := by simpa [unwind] using h
      exact ⟨List.suffix_refl _, rfl, id⟩
  | cons f fs ih =>
      by_cases hf : f.reach ≤ r
      · rw [unwind_cons hf] at h
        obtain ⟨⟨a, m⟩, hcomplete, h⟩ := ok_of_bind_ok h
        obtain ⟨hsuffix, howed, hmax⟩ := ih h
        obtain ⟨hm, hle⟩ := Frame.complete_ok hcomplete
        refine ⟨hsuffix.trans (List.suffix_cons f fs), ?_, fun hn => hmax (hle hn)⟩
        rw [howed, hm, owed_cons, Nat.add_assoc]
      · rw [unwind, if_neg hf] at h
        obtain ⟨rfl, rfl, rfl⟩ : e = e' ∧ n = n' ∧ f :: fs = fs' := by simpa using h
        exact ⟨List.suffix_refl _, rfl, id⟩

theorem unwind_error {r : Nat} {e : Expr} {n : Nat} {fs : List Frame} {x : ParseError}
    (hfs : ∀ f ∈ fs, f.Sound) (h : unwind r e n fs = .error x) :
    x = .tooLong maxOperations ∧ maxOperations < n + owed fs := by
  induction fs generalizing e n with
  | nil => contradiction
  | cons f fs ih =>
      by_cases hf : f.reach ≤ r
      · rw [unwind_cons hf] at h
        rw [owed_cons]
        obtain hcomplete | ⟨⟨a, m⟩, hcomplete, h⟩ := error_of_bind_error h
        · obtain ⟨hx, hlt⟩ := Frame.complete_error (hfs f List.mem_cons_self) hcomplete
          exact ⟨hx, by omega⟩
        · obtain ⟨hx, hlt⟩ := ih (fun g hg => hfs g (List.mem_cons_of_mem f hg)) h
          have hm := (Frame.complete_ok hcomplete).1
          exact ⟨hx, by omega⟩
      · rw [unwind, if_neg hf] at h
        contradiction

def Token.weight : Token → Nat
  | .sumOp _ | .prodOp _ | .powOp => 1
  | _ => 0

namespace Stage

def frames : Stage → List Frame
  | awaiting fs _ | holding _ fs _ => fs
  | outset | stray => []

def joined : Stage → Nat
  | awaiting _ n | holding _ _ n => n
  | outset | stray => 0

/-- The operations that are joined or will be. -/
def burden (s : Stage) : Nat := s.joined + owed s.frames

def Sound (s : Stage) : Prop := ∀ f ∈ s.frames, f.Sound

theorem sound_outset : outset.Sound := nofun

/-- The end of the tokens may answer for all that is missing. -/
def Hopeful (s : Stage) : Prop :=
  ∀ x, s.finish = .error x → x = .emptyInput ∨ x = .unexpectedEnd

theorem hopeful_awaiting (fs : List Frame) (n : Nat) : (awaiting fs n).Hopeful :=
  fun _ h => .inr (Except.error.inj h).symm

theorem hopeful_outset : outset.Hopeful :=
  fun _ h => .inl (Except.error.inj h).symm

theorem hopeful_holding {v : Operand} {fs : List Frame} {n : Nat} {r : Expr × Nat × List Frame}
    (h : unwind Token.closeParen.reach v.expr n fs = .ok r) : (holding v fs n).Hopeful := by
  intro x hx
  obtain ⟨e, m, fs'⟩ := r
  rw [finish, h] at hx
  cases fs' with
  | nil => contradiction
  | cons f fs' => exact .inr (Except.error.inj hx).symm

structure Carries (s : Stage) (t : Token) (s' : Stage) : Prop where
  burden_le : s.burden ≤ s'.burden
  burden_le_weight : s'.burden ≤ s.burden + t.weight
  joined_le : s.joined ≤ maxOperations → s'.joined ≤ maxOperations
  sound : t.Ordinary → s.Sound → s'.Sound
  onward : s' ≠ stray

/-- Completing phrases of the stage `s` leaves the stack `fs`, with `n` operations joined. -/
structure Leaves (s : Stage) (fs : List Frame) (n : Nat) : Prop where
  suffix : fs <:+ s.frames
  burden_eq : n + owed fs = s.burden
  joined_le : s.joined ≤ maxOperations → n ≤ maxOperations

namespace Leaves
variable {s : Stage} {t : Token} {fs : List Frame} {n : Nat}

theorem push (h : s.Leaves fs n) {f : Frame} (hweight : f.owed ≤ t.weight)
    (hsound : t.Ordinary → f.Sound) : s.Carries t (awaiting (f :: fs) n) := by
  have hburden : (awaiting (f :: fs) n).burden = s.burden + f.owed := by
    rw [← h.burden_eq, burden, joined, frames, owed_cons]
    omega
  refine ⟨by omega, by omega, h.joined_le, fun ht hs g hg => ?_, nofun⟩
  obtain rfl | hg := List.mem_cons.mp hg
  · exact hsound ht
  · exact hs g (h.suffix.mem hg)

theorem hold (h : s.Leaves fs n) (v : Operand) : s.Carries t (holding v fs n) := by
  have hburden : (holding v fs n).burden = s.burden := h.burden_eq
  exact ⟨by omega, by omega, h.joined_le, fun _ hs f hf => hs f (h.suffix.mem hf), nofun⟩

theorem of_group (h : s.Leaves (.group :: fs) n) : s.Leaves fs n :=
  ⟨(List.suffix_cons _ _).trans h.suffix, by simpa [Frame.owed] using h.burden_eq, h.joined_le⟩

end Leaves

theorem leaves_unwind {v : Operand} {fs fs' : List Frame} {n n' r : Nat} {e : Expr}
    (h : unwind r v.expr n fs = .ok (e, n', fs')) : (holding v fs n).Leaves fs' n' :=
  ⟨(unwind_ok h).1, (unwind_ok h).2.1, (unwind_ok h).2.2⟩

theorem enter_ok {fs : List Frame} {n : Nat} {s : Stage} (h : enter fs n = .ok s) :
    s = awaiting fs n := by
  rw [enter] at h
  split at h
  · exact (Except.ok.inj h).symm
  · contradiction

theorem ofSymbol_sumOp {symbol : Char} (h : (Token.sumOp symbol).Ordinary) :
    ∃ op, Operator.ofSymbol symbol = .ok op := by
  obtain rfl | rfl := h
  · exact ⟨.sum, rfl⟩
  · exact ⟨.difference, rfl⟩

theorem ofSymbol_prodOp {symbol : Char} (h : (Token.prodOp symbol).Ordinary) :
    ∃ op, Operator.ofSymbol symbol = .ok op := by
  obtain rfl | rfl := h
  · exact ⟨.product, rfl⟩
  · exact ⟨.quotient, rfl⟩

theorem carries_stepAwaiting {s : Stage} {fs : List Frame} {n : Nat} {t : Token} {s' : Stage}
    (hleaves : s.Leaves fs n) (hs : s.Hopeful) (h : stepAwaiting fs n t = .ok s') :
    s' = stray ∧ t = .prodOp '*' ∧ s.Hopeful ∨ s.Carries t s' := by
  cases t with
  | openParen =>
      obtain rfl := enter_ok h
      exact .inr (hleaves.push (Nat.zero_le _) fun _ => trivial)
  | name node | number node =>
      obtain rfl := Except.ok.inj h
      exact .inr (hleaves.hold _)
  | sumOp symbol =>
      have howed : (Frame.sign symbol).owed ≤ 1 := by
        rw [Frame.owed]
        split <;> decide
      simp only [stepAwaiting] at h
      split at h
      · contradiction
      · obtain rfl := Except.ok.inj h
        exact .inr (hleaves.push howed fun _ => trivial)
  | prodOp symbol =>
      rw [stepAwaiting.eq_def] at h
      split at h
      case h_5 =>
        split at h
        · contradiction
        · exact .inl ⟨(Except.ok.inj h).symm, by assumption, hs⟩
      all_goals simp_all
  | closeParen | powOp => contradiction

theorem carries_stepHolding {s : Stage} {v : Operand} {e : Expr} {fs : List Frame} {n : Nat}
    {t : Token} {s' : Stage} (hleaves : s.Leaves fs n) (h : stepHolding v e n t fs = .ok s') :
    s.Carries t s' := by
  cases t with
  | openParen =>
      obtain rfl := enter_ok h
      exact hleaves.push (Nat.zero_le _) fun _ => trivial
  | powOp =>
      obtain rfl := enter_ok h
      exact hleaves.push (Nat.le_refl 1) fun _ => trivial
  | prodOp symbol =>
      obtain rfl := Except.ok.inj h
      exact hleaves.push (Nat.le_refl 1) ofSymbol_prodOp
  | sumOp symbol =>
      obtain rfl := Except.ok.inj h
      exact hleaves.push (Nat.le_refl 1) ofSymbol_sumOp
  | closeParen =>
      cases fs with
      | nil => contradiction
      | cons f fs =>
          cases f with
          | group =>
              obtain rfl := Except.ok.inj h
              exact hleaves.of_group.hold _
          | _ => contradiction
  | name _ | number _ => contradiction

theorem step_stray (t : Token) :
    stray.step t = .error .doubleStar ∨
      stray.step t = .error (.unexpectedToken (Token.prodOp '*').text) := by
  rw [step.eq_def]
  split <;> simp_all

theorem carries_step {s s' : Stage} {t : Token} (h : s.step t = .ok s') :
    s' = stray ∧ t = .prodOp '*' ∧ s.Hopeful ∨ s.Carries t s' := by
  cases s with
  | outset => exact carries_stepAwaiting ⟨List.suffix_refl _, rfl, id⟩ hopeful_outset h
  | awaiting fs n =>
      exact carries_stepAwaiting ⟨List.suffix_refl _, rfl, id⟩ (hopeful_awaiting fs n) h
  | holding v fs n =>
      obtain ⟨⟨e, m, fs'⟩, hunwind, h⟩ := ok_of_bind_ok h
      exact .inr (carries_stepHolding (leaves_unwind hunwind) h)
  | stray => obtain hstep | hstep := step_stray t <;> simp [hstep] at h

theorem run_stray (ts : List Token) :
    stray.run ts = .error .doubleStar ∨
      stray.run ts = .error (.unexpectedToken (Token.prodOp '*').text) := by
  cases ts with
  | nil => exact .inr rfl
  | cons t ts =>
      obtain hstep | hstep := step_stray t
      · exact .inl (run_cons_of_error hstep ts)
      · exact .inr (run_cons_of_error hstep ts)

theorem run_stray_ne_ok (ts : List Token) (e : Expr) : stray.run ts ≠ .ok e := by
  obtain h | h := run_stray ts <;> simp [h]

theorem finish_ok {s : Stage} {e : Expr} (h : s.finish = .ok e)
    (hs : s.joined ≤ maxOperations) : s.burden ≤ maxOperations := by
  cases s with
  | holding v fs n =>
      obtain ⟨⟨a, m, fs'⟩, hunwind, h⟩ := ok_of_bind_ok h
      have hleaves := leaves_unwind hunwind
      cases fs' with
      | nil =>
          have hm := hleaves.joined_le hs
          have hburden := hleaves.burden_eq
          rw [owed_nil] at hburden
          omega
      | cons f fs' => contradiction
  | outset | awaiting _ _ | stray => contradiction

/-- A run that ends well carries no more than a formula may have. -/
theorem run_ok {s : Stage} {ts : List Token} {e : Expr} (h : s.run ts = .ok e)
    (hs : s.joined ≤ maxOperations) : s.burden ≤ maxOperations := by
  induction ts generalizing s with
  | nil => exact finish_ok h hs
  | cons t ts ih =>
      rw [run_cons] at h
      obtain ⟨s', hstep, h⟩ := ok_of_bind_ok h
      obtain ⟨rfl, -, -⟩ | hcarries := carries_step hstep
      · exact absurd h (run_stray_ne_ok ts e)
      · exact Nat.le_trans hcarries.burden_le (ih h (hcarries.joined_le hs))

/-- Why a stage refuses a token. -/
inductive Refusal (s : Stage) (t : Token) : ParseError → Prop
  | deep : Refusal s t (.tooDeeplyNested maxNesting)
  | long (heavy : maxOperations < s.burden) : Refusal s t (.tooLong maxOperations)
  | stars : Refusal s t .doubleStar
  | strayed (star : s = stray) : Refusal s t (.unexpectedToken (Token.prodOp '*').text)
  | call (name argument : String) : Refusal s t (.functionCall name argument)
  | juxtaposed (left right : String) : Refusal s t (.implicitProduct left right)
  | misplaced (before : s.Hopeful) : Refusal s t (.unexpectedToken t.text)

theorem enter_error {fs : List Frame} {n : Nat} {x : ParseError} (h : enter fs n = .error x) :
    x = .tooDeeplyNested maxNesting := by
  rw [enter] at h
  split at h
  · contradiction
  · exact (Except.error.inj h).symm

theorem refusal_of_stepAwaiting {s : Stage} {fs : List Frame} {n : Nat} {t : Token} {x : ParseError}
    (hs : s.Hopeful) (h : stepAwaiting fs n t = .error x) : s.Refusal t x := by
  rw [stepAwaiting.eq_def] at h
  split at h
  case h_1 =>
    obtain rfl := enter_error h
    exact .deep
  case h_4 =>
    split at h
    · obtain rfl := Except.error.inj h
      exact .misplaced hs
    · contradiction
  case h_5 =>
    split at h
    · obtain rfl := Except.error.inj h
      exact .stars
    · contradiction
  case h_6 =>
    obtain rfl := Except.error.inj h
    exact .misplaced hs
  all_goals contradiction

theorem refusal_of_stepHolding {s : Stage} {v : Operand} {e : Expr} {fs : List Frame} {n : Nat}
    {t : Token} {x : ParseError} (hs : t.reach = Token.closeParen.reach → s.Hopeful)
    (h : stepHolding v e n t fs = .error x) : s.Refusal t x := by
  cases t with
  | openParen | powOp =>
      obtain rfl := enter_error h
      exact .deep
  | prodOp symbol | sumOp symbol => contradiction
  | closeParen =>
      cases fs with
      | nil =>
          obtain rfl := Except.error.inj h
          exact .misplaced (hs rfl)
      | cons f fs =>
          cases f with
          | group => contradiction
          | adjacent left =>
              obtain rfl := Except.error.inj h
              cases left with
              | name node => exact .call _ _
              | number _ | group _ => exact .juxtaposed _ _
          | _ =>
              obtain rfl := Except.error.inj h
              exact .misplaced (hs rfl)
  | name _ | number _ =>
      obtain rfl := Except.error.inj h
      exact .misplaced (hs rfl)

theorem refusal_of_step {s : Stage} {t : Token} {x : ParseError} (hs : s.Sound)
    (h : s.step t = .error x) : s.Refusal t x := by
  cases s with
  | outset => exact refusal_of_stepAwaiting hopeful_outset h
  | awaiting fs n => exact refusal_of_stepAwaiting (hopeful_awaiting fs n) h
  | holding v fs n =>
      obtain hunwind | ⟨⟨e, m, fs'⟩, hunwind, h⟩ := error_of_bind_error h
      · obtain ⟨rfl, heavy⟩ := unwind_error hs hunwind
        exact .long heavy
      · exact refusal_of_stepHolding (fun ht => hopeful_holding (ht ▸ hunwind)) h
  | stray =>
      obtain hstep | hstep := step_stray t
      · obtain rfl := Except.error.inj (hstep.symm.trans h)
        exact .stars
      · obtain rfl := Except.error.inj (hstep.symm.trans h)
        exact .strayed rfl

theorem finish_error {s : Stage} {x : ParseError} (hs : s.Sound) (h : s.finish = .error x) :
    s.Hopeful ∨ s = stray ∨ x = .tooLong maxOperations ∧ maxOperations < s.burden := by
  cases s with
  | outset => exact .inl hopeful_outset
  | awaiting fs n => exact .inl (hopeful_awaiting fs n)
  | holding v fs n =>
      obtain hunwind | ⟨r, hunwind, -⟩ := error_of_bind_error h
      · exact .inr (.inr (unwind_error hs hunwind))
      · exact .inl (hopeful_holding hunwind)
  | stray => exact .inr (.inl rfl)

/-- A run is too long only if it has met that many signs. -/
theorem run_tooLong {s : Stage} {ts : List Token} {k : Nat} (hs : s.Sound)
    (hts : ∀ t ∈ ts, t.Ordinary) (h : s.run ts = .error (.tooLong k)) :
    maxOperations < s.burden + (ts.map Token.weight).sum := by
  induction ts generalizing s with
  | nil =>
      obtain hopeful | rfl | ⟨-, heavy⟩ := finish_error hs h
      · simpa using hopeful _ h
      · simp [finish] at h
      · exact heavy
  | cons t ts ih =>
      rw [List.map_cons, List.sum_cons]
      rw [run_cons] at h
      obtain hstep | ⟨s', hstep, h⟩ := error_of_bind_error h
      · cases refusal_of_step hs hstep with
        | long heavy => omega
      · obtain ⟨rfl, -, -⟩ | hcarries := carries_step hstep
        · obtain hrun | hrun := run_stray ts <;> simp [hrun] at h
        · have hsound := hcarries.sound (hts t List.mem_cons_self) hs
          have hle := hcarries.burden_le_weight
          have hmore := ih hsound (fun u hu => hts u (List.mem_cons_of_mem t hu)) h
          omega

end Stage
end Formula
