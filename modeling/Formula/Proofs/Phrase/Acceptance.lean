import Formula.Proofs.Phrase.Completeness
import Formula.Proofs.Phrase.Soundness

/-!
The lists of tokens that are accepted are those that the grammar derives within the limits, and the
answer is the derived tree. A list that is derived beyond a limit fails with that message alone.
-/

namespace Formula

theorem ofTokens_map_ok (ts : List Token) :
    (Expr.ofTokens (ts.map Except.ok : List (Except ParseError Token))).1 =
      (Phrase.whole.feed ts).map Prod.fst :=
  Reader.run_map_ok Phrase.whole ts

theorem Derives.feed_whole_error {ts : List Token} {e : Expr} {d k : Nat}
    (h : Derives .sum ts e d k) (beyond : maxNesting < d ∨ maxOperations < k) :
    (Phrase.whole.feed ts).map Prod.fst = .error (.tooDeeplyNested maxNesting) ∨
      (Phrase.whole.feed ts).map Prod.fst = .error (.tooLong maxOperations) := by
  obtain ⟨x, hx, hfeed⟩ := h.feed_whole.2 (by omega)
  rw [hfeed]
  obtain rfl | rfl := hx
  · exact .inl rfl
  · exact .inr rfl

theorem ofTokens_accepts_derived (ts : List Token) (hts : ∀ t ∈ ts, t.Ordinary) :
    (∀ e, (Expr.ofTokens (ts.map Except.ok : List (Except ParseError Token))).1 = .ok e ↔
      ∃ d k, Derives .sum ts e d k ∧ d ≤ maxNesting ∧ k ≤ maxOperations) ∧
    ∀ e d k, Derives .sum ts e d k → maxNesting < d ∨ maxOperations < k →
      (Expr.ofTokens (ts.map Except.ok : List (Except ParseError Token))).1 =
          .error (.tooDeeplyNested maxNesting) ∨
        (Expr.ofTokens (ts.map Except.ok : List (Except ParseError Token))).1 =
          .error (.tooLong maxOperations) := by
  rw [ofTokens_map_ok]
  refine ⟨fun e => ⟨fun h => ?_, ?_⟩, fun e d k h beyond => ?_⟩
  · cases hfeed : Phrase.whole.feed ts with
    | error x => simp [hfeed, Except.map] at h
    | ok r =>
        obtain ⟨a, rest⟩ := r
        obtain rfl : a = e := by simpa [hfeed, Except.map] using h
        exact derives_of_feed_whole hts hfeed
  · rintro ⟨d, k, h, room⟩
    rw [h.feed_whole.1 room]
    rfl
  · exact h.feed_whole_error beyond

/-- A name in `n` pairs of parentheses. -/
def nestedName (n : Nat) (e : Expr) : List Token :=
  List.replicate n .openParen ++ .name e :: List.replicate n .closeParen

theorem derives_nestedName (n : Nat) (e : Expr) : Derives .sum (nestedName n e) e (n + 1) 0 := by
  induction n with
  | zero => exact Derives.name.sum_of_value
  | succ n ih =>
      have h := (Derives.group ih).sum_of_value
      simpa [nestedName, List.replicate_succ, ← List.replicate_succ'] using h

theorem ordinary_nestedName (n : Nat) (e : Expr) : ∀ t ∈ nestedName n e, t.Ordinary := by
  simp only [nestedName, List.mem_append, List.mem_cons, List.mem_replicate]
  rintro t (⟨-, rfl⟩ | rfl | ⟨-, rfl⟩) <;> trivial

theorem derives_minus_nestedName (n : Nat) (e : Expr) :
    Derives .sum (.sumOp '-' :: nestedName (n + 1) e) (.binary .difference (.constant 0.0) e)
      (n + 2) 1 := by
  have h := Derives.minus (.base (.group (derives_nestedName n e)))
  simpa [nestedName, List.replicate_succ, ← List.replicate_succ'] using h.sum_of_power

theorem ordinary_minus_nestedName (n : Nat) (e : Expr) :
    ∀ t ∈ Token.sumOp '-' :: nestedName n e, t.Ordinary :=
  List.forall_mem_cons.mpr ⟨.inr rfl, ordinary_nestedName n e⟩

/-- The name inside 63 groups lies in 64 power phrases, and a minus before them is of the outermost
one; one group more is too deep. -/
theorem ofTokens_accepts_nestedName :
    (∀ t ∈ Token.sumOp '-' :: nestedName 63 (.var "x"), t.Ordinary) ∧
      (Expr.ofTokens ((Token.sumOp '-' :: nestedName 63 (.var "x")).map Except.ok :
        List (Except ParseError Token))).1 =
          .ok (.binary .difference (.constant 0.0) (.var "x")) ∧
      ((Expr.ofTokens ((Token.sumOp '-' :: nestedName 64 (.var "x")).map Except.ok :
          List (Except ParseError Token))).1 = .error (.tooDeeplyNested maxNesting) ∨
        (Expr.ofTokens ((Token.sumOp '-' :: nestedName 64 (.var "x")).map Except.ok :
          List (Except ParseError Token))).1 = .error (.tooLong maxOperations)) :=
  ⟨ordinary_minus_nestedName 63 _,
    ((ofTokens_accepts_derived _ (ordinary_minus_nestedName 63 _)).1 _).mpr
      ⟨64, 1, derives_minus_nestedName 62 _, by decide, by decide⟩,
    (ofTokens_accepts_derived _ (ordinary_minus_nestedName 64 _)).2 _ 65 1
      (derives_minus_nestedName 63 _) (.inl (by decide))⟩

end Formula
