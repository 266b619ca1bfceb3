import Formula.Proofs.Phrase.Acceptance
import Formula.Proofs.Phrase.Burden
import Formula.Proofs.Phrase.Unrolling

/-!
Where tokens are refused. A list is viable as long as nothing speaks against it but that it ends.
Every other error is final, since more tokens cannot take it back: either a token was refused before
them, or the operations that wait to be joined are too many already. An unexpected token is named at
its own place, and a list that ends too early lacks one value and closing parentheses.
-/

namespace Formula
open Stage

/-- What is read from a list of tokens in which nothing fails. -/
def reading (ts : List Token) : Except ParseError Expr :=
  (Expr.ofTokens (ts.map Except.ok : List (Except ParseError Token))).1

theorem reading_eq_run (ts : List Token) : reading ts = outset.run ts := by
  rw [reading, ofTokens_map_ok, Phrase.map_feed_whole]

/-- Nothing is wrong with the tokens but that there may be too few of them. -/
def Viable (ts : List Token) : Prop :=
  ∀ x, reading ts = .error x → x = .emptyInput ∨ x = .unexpectedEnd

/-- However the tokens go on, they are no formula. -/
def Hopeless (ts : List Token) : Prop := ∀ us e, reading (ts ++ us) ≠ .ok e

/-- Nothing is missing, although what is there may be more than formulas can have. -/
def Settled : Except ParseError Expr → Prop
  | .ok _ | .error (.functionCall _ _) | .error (.implicitProduct _ _) | .error (.tooLong _) => True
  | .error _ => False

namespace Stage

theorem foldlM_cons_of_ok {s s' : Stage} {t : Token} (h : s.step t = .ok s') (ts : List Token) :
    (t :: ts).foldlM step s = ts.foldlM step s' := by
  rw [List.foldlM_cons, h]
  rfl

/-- No run gets past the token, whatever follows it. -/
def Halts (s : Stage) (t : Token) : Prop := (∃ x, s.step t = .error x) ∨ s.step t = .ok stray

theorem Halts.run_ne_ok {s : Stage} {t : Token} (h : s.Halts t) (us : List Token) (e : Expr) :
    s.run (t :: us) ≠ .ok e := by
  obtain ⟨x, hstep⟩ | hstep := h
  · simp [run_cons_of_error hstep]
  · rw [run_cons_of_ok hstep]
    exact run_stray_ne_ok us e

/-- A run gets through the tokens, or as far as one where it halts. -/
theorem through_or_halts {s : Stage} {ts : List Token} (hs : s.Sound) (hts : ∀ t ∈ ts, t.Ordinary)
    (hstray : s ≠ stray) (hjoined : s.joined ≤ maxOperations) :
    (∃ s', ts.foldlM step s = .ok s' ∧ s'.Sound ∧ s' ≠ stray ∧ s'.joined ≤ maxOperations) ∨
      ∃ before t after s', ts = before ++ t :: after ∧ before.foldlM step s = .ok s' ∧ s'.Sound ∧
        s' ≠ stray ∧ s'.Halts t := by
  induction ts generalizing s with
  | nil => exact .inl ⟨s, rfl, hs, hstray, hjoined⟩
  | cons t ts ih =>
      obtain ⟨ht, hts⟩ := List.forall_mem_cons.mp hts
      cases hstep : s.step t with
      | error x => exact .inr ⟨[], t, ts, s, rfl, rfl, hs, hstray, .inl ⟨x, hstep⟩⟩
      | ok s' =>
          obtain ⟨rfl, -, -⟩ | hcarries := carries_step hstep
          · exact .inr ⟨[], t, ts, s, rfl, rfl, hs, hstray, .inr hstep⟩
          · obtain ⟨s'', hfold, hs''⟩ | ⟨before, u, after, s'', rfl, hfold, hs''⟩ :=
              ih (hcarries.sound ht hs) hts hcarries.onward (hcarries.joined_le hjoined)
            · exact .inl ⟨s'', (foldlM_cons_of_ok hstep ts).trans hfold, hs''⟩
            · exact .inr ⟨t :: before, u, after, s'', rfl,
                (foldlM_cons_of_ok hstep before).trans hfold, hs''⟩

section Outset
variable {ts : List Token} (hts : ∀ t ∈ ts, t.Ordinary)
include hts

theorem outset_through_or_halts :
    (∃ s, ts.foldlM step outset = .ok s ∧ s.Sound ∧ s ≠ stray ∧ s.joined ≤ maxOperations) ∨
      ∃ before t after s, ts = before ++ t :: after ∧ before.foldlM step outset = .ok s ∧
        s.Sound ∧ s ≠ stray ∧ s.Halts t :=
  through_or_halts sound_outset hts nofun (Nat.zero_le _)

/-- Before more tokens that complete a formula, nothing was wrong. -/
theorem hopeful_of_run_append {us : List Token} {e : Expr} (h : outset.run (ts ++ us) = .ok e) :
    ∃ s, ts.foldlM step outset = .ok s ∧ s.Hopeful := by
  obtain ⟨s, hfold, hs, hstray, hjoined⟩ | ⟨before, t, after, s, rfl, hfold, -, -, hhalts⟩ :=
    outset_through_or_halts hts
  · rw [run_append, hfold] at h
    have hburden := run_ok h hjoined
    refine ⟨s, hfold, fun x hx => ?_⟩
    obtain hopeful | rfl | ⟨-, heavy⟩ := finish_error hs hx
    · exact hopeful x hx
    · contradiction
    · omega
  · rw [List.append_assoc, run_append, hfold] at h
    exact absurd h (hhalts.run_ne_ok _ e)

/-- An unexpected token is refused at its own place. -/
theorem run_unexpectedToken {text : String} (h : outset.run ts = .error (.unexpectedToken text)) :
    ∃ before t after s, ts = before ++ t :: after ∧ text = t.text ∧
      before.foldlM step outset = .ok s ∧ s.Hopeful ∧ s.Halts t := by
  obtain ⟨s, hfold, hs, hstray, -⟩ | ⟨before, t, after, s, rfl, hfold, hs, hstray, hhalts⟩ :=
    outset_through_or_halts hts
  · rw [run, hfold] at h
    obtain hopeful | rfl | ⟨hx, -⟩ := finish_error hs h
    · simpa using hopeful _ h
    · contradiction
    · contradiction
  · rw [run_append, hfold] at h
    obtain ⟨x, hstep⟩ | hstep := id hhalts
    · obtain rfl := Except.error.inj ((run_cons_of_error hstep after).symm.trans h)
      cases refusal_of_step hs hstep with
      | strayed star => contradiction
      | misplaced hopeful => exact ⟨before, t, after, s, rfl, rfl, hfold, hopeful, hhalts⟩
    · obtain ⟨-, rfl, hopeful⟩ | hcarries := carries_step hstep
      · have hrun := (run_cons_of_ok hstep after).symm.trans h
        have htext : text = (Token.prodOp '*').text := by
          obtain hstar | hstar := run_stray after
          · simp [hstar] at hrun
          · simpa [hstar] using hrun.symm
        exact ⟨before, _, after, s, rfl, htext, hfold, hopeful, hhalts⟩
      · exact absurd rfl hcarries.onward

/-- Only the end of the tokens is heard as such. -/
theorem sound_of_run_unexpectedEnd (h : outset.run ts = .error .unexpectedEnd) :
    ∃ s, ts.foldlM step outset = .ok s ∧ s.Sound ∧ s.finish = .error .unexpectedEnd := by
  obtain ⟨s, hfold, hs, -, -⟩ | ⟨before, t, after, s, rfl, hfold, hs, -, hhalts⟩ :=
    outset_through_or_halts hts
  · rw [run, hfold] at h
    exact ⟨s, hfold, hs, h⟩
  · rw [run_append, hfold] at h
    obtain ⟨x, hstep⟩ | hstep := hhalts
    · obtain rfl := Except.error.inj ((run_cons_of_error hstep after).symm.trans h)
      cases refusal_of_step hs hstep
    · have hrun := (run_cons_of_ok hstep after).symm.trans h
      obtain hstar | hstar := run_stray after <;> simp [hstar] at hrun

end Outset

/-- Behind a value, closing parentheses settle what is read. -/
theorem exists_settled (v : Operand) (fs : List Frame) (n : Nat) (hfs : ∀ f ∈ fs, f.Sound) :
    ∃ k, Settled ((holding v fs n).run (List.replicate k .closeParen)) := by
  induction fs generalizing v n with
  | nil => exact ⟨0, trivial⟩
  | cons f fs ih =>
      have hrest (g) (hg : g ∈ fs) : g.Sound := hfs g (List.mem_cons_of_mem f hg)
      by_cases hf : f.reach ≤ Token.closeParen.reach
      · have hhead (k : Nat) : ∀ t ∈ (List.replicate k Token.closeParen).head?,
            f.reach ≤ t.reach := by
          intro t ht
          rwa [List.eq_of_mem_replicate (List.mem_of_mem_head? ht)]
        cases hcomplete : f.complete v.expr n with
        | ok x =>
            obtain ⟨k, hk⟩ := ih (.group x.1) x.2 hrest
            refine ⟨k, ?_⟩
            rw [run_holding_cons (hhead k) hf, hcomplete]
            exact hk
        | error x =>
            refine ⟨0, ?_⟩
            rw [run_holding_cons (hhead 0) hf, hcomplete,
              (Frame.complete_error (hfs f List.mem_cons_self) hcomplete).1]
            trivial
      · cases f with
        | group =>
            obtain ⟨k, hk⟩ := ih (.group v.expr) n hrest
            refine ⟨k + 1, ?_⟩
            rw [List.replicate_succ, run_cons]
            exact hk
        | adjacent left =>
            refine ⟨1, ?_⟩
            rw [List.replicate_one, run_cons]
            cases left <;> trivial
        | _ => simp [Frame.reach, Token.reach] at hf

end Stage

section Reading
variable {ts : List Token}

theorem viable_of_foldlM {s : Stage} (h : ts.foldlM step outset = .ok s) (hs : s.Hopeful) :
    Viable ts := by
  intro x hx
  rw [reading_eq_run, run, h] at hx
  exact hs x hx

theorem viable_of_reading_append {us : List Token} {e : Expr} (hts : ∀ t ∈ ts, t.Ordinary)
    (h : reading (ts ++ us) = .ok e) : Viable ts := by
  rw [reading_eq_run] at h
  obtain ⟨s, hfold, hopeful⟩ := hopeful_of_run_append hts h
  exact viable_of_foldlM hfold hopeful

theorem reading_refuses_in_place (ts : List Token) (hts : ∀ t ∈ ts, t.Ordinary) :
    (∀ e before, reading ts = .ok e → before <+: ts → Viable before) ∧
    (¬ Viable ts → Hopeless ts) ∧
    (∀ text, reading ts = .error (.unexpectedToken text) →
      ∃ before t after, ts = before ++ t :: after ∧ text = t.text ∧ Viable before ∧
        Hopeless (before ++ [t])) ∧
    (reading ts = .error .unexpectedEnd →
      ∃ missing k,
        (missing = [] ∨ ∃ node, missing = [.name node] ∨ missing = [.number node]) ∧
          Settled (reading (ts ++ (missing ++ List.replicate k .closeParen)))) := by
  refine ⟨?_, ?_, ?_, ?_⟩
  · rintro e before h ⟨us, rfl⟩
    exact viable_of_reading_append (fun t ht => hts t (List.mem_append_left us ht)) h
  · exact fun hviable us e h => hviable (viable_of_reading_append hts h)
  · intro text h
    rw [reading_eq_run] at h
    obtain ⟨before, t, after, s, rfl, htext, hfold, hopeful, hhalts⟩ := run_unexpectedToken hts h
    refine ⟨before, t, after, rfl, htext, viable_of_foldlM hfold hopeful, fun us e he => ?_⟩
    rw [reading_eq_run, List.append_assoc, run_append, hfold] at he
    exact hhalts.run_ne_ok us e he
  · intro h
    rw [reading_eq_run] at h
    obtain ⟨s, hfold, hs, hfinish⟩ := sound_of_run_unexpectedEnd hts h
    have hrun (us : List Token) : reading (ts ++ us) = s.run us := by
      rw [reading_eq_run, run_append, hfold]
      rfl
    cases s with
    | outset | stray => simp [finish] at hfinish
    | awaiting fs n =>
        obtain ⟨k, hk⟩ := exists_settled (.name (.var "x")) fs n hs
        refine ⟨[.name (.var "x")], k, .inr ⟨_, .inl rfl⟩, ?_⟩
        rw [hrun]
        exact hk
    | holding v fs n =>
        obtain ⟨k, hk⟩ := exists_settled v fs n hs
        refine ⟨[], k, .inl rfl, ?_⟩
        rw [hrun]
        exact hk

end Reading

/-- In `(x+)` the parenthesis is refused where an operand is missing, and `(x+` lacks one and the
parenthesis. -/
theorem reading_refuses_in_place_operand :
    (∀ t ∈ [Token.openParen, .name (.var "x"), .sumOp '+', .closeParen], t.Ordinary) ∧
      (∃ before t after, [Token.openParen, .name (.var "x"), .sumOp '+', .closeParen] =
        before ++ t :: after ∧ ")" = t.text ∧ Viable before ∧ Hopeless (before ++ [t])) ∧
      ∃ missing k,
        (missing = [] ∨ ∃ node, missing = [.name node] ∨ missing = [.number node]) ∧
          Settled (reading ([.openParen, .name (.var "x"), .sumOp '+'] ++
            (missing ++ List.replicate k .closeParen))) := by
  have hts : ∀ t ∈ [Token.openParen, .name (.var "x"), .sumOp '+', .closeParen], t.Ordinary := by
    simp [Token.Ordinary]
  have hbefore : ∀ t ∈ [Token.openParen, .name (.var "x"), .sumOp '+'], t.Ordinary := by
    simp [Token.Ordinary]
  refine ⟨hts, (reading_refuses_in_place _ hts).2.2.1 ")" ?_,
    (reading_refuses_in_place _ hbefore).2.2.2 ?_⟩
  · rw [reading_eq_run]
    rfl
  · rw [reading_eq_run]
    rfl

end Formula
