import Formula.Proofs.Phrase.Laziness

/-!
Two stars in a row are taken for a power. A reading that is answered with the message about them was
given two stars last and asks for nothing behind them, so it does not matter what stands there.
Conversely, tokens that are viable are answered so as soon as two stars follow: no limit and no
other message comes first, since a star asks for less to be completed than the end of the tokens.
-/

namespace Formula

def Token.star : Token := .prodOp '*'

variable {α β : Type}

namespace Reader

/-- Wherever a reader fails with the message about two stars, these are the last two tokens that it
was given; `last` and `view` are the two before it goes on. Of a value and the token that was given
last `Q` holds. -/
def Watches (Q : α → Option Token → Prop) : Reader α → Option Token → Option Token → Prop
  | done a, _, view => Q a view
  | fail x, last, view => x = .doubleStar → last = some .star ∧ view = some .star
  | ask next, _, view => ∀ token, (next token).Watches Q view token

variable {Q : α → Option Token → Prop} {r : Reader α} {last view : Option Token} {ts : List Token}

theorem Watches.bind {R : β → Option Token → Prop} {f : α → Reader β} (h : r.Watches Q last view)
    (h' : ∀ a last view, Q a view → (f a).Watches R last view) : (r >>= f).Watches R last view := by
  induction r generalizing last view with
  | done a => exact h' a last view h
  | fail x => exact h
  | ask next ih => exact fun token => ih token (h token)

theorem Watches.feed_nil_ne (h : r.Watches Q last none) : r.feed [] ≠ .error .doubleStar := by
  induction r generalizing last with
  | done a => exact nofun
  | fail x =>
      intro hfeed
      exact nomatch (h (Except.error.inj hfeed)).2
  | ask next ih => exact ih none (h none)

theorem Watches.stars (h : r.Watches Q last view) (hfeed : r.feed ts = .error .doubleStar) :
    last = some .star ∧ view = some .star ∨ view = some .star ∧ ts.head? = some .star ∨
      [.star, .star] <:+: ts := by
  induction r generalizing last view ts with
  | done a => contradiction
  | fail x => exact .inl (h (Except.error.inj hfeed))
  | ask next ih =>
      cases ts with
      | nil => exact absurd hfeed (h none).feed_nil_ne
      | cons t ts =>
          obtain ⟨hview, ht⟩ | ⟨ht, hhead⟩ | hinfix := ih (some t) (h (some t)) hfeed
          · exact .inr (.inl ⟨hview, ht⟩)
          · obtain ⟨ts, rfl⟩ := List.head?_eq_some_iff.mp hhead
            obtain rfl := Option.some.inj ht
            exact .inr (.inr ⟨[], ts, rfl⟩)
          · exact .inr (.inr (List.infix_cons hinfix))

theorem Watches.pulls_le (h : r.Watches Q last view) (hfeed : r.feed ts = .error .doubleStar) :
    r.pulls (ts.map (Except.ok : Token → Except ParseError Token)) ≤ ts.length := by
  induction r generalizing last view ts with
  | done a => contradiction
  | fail x => exact Nat.zero_le _
  | ask next ih =>
      cases ts with
      | nil => exact absurd hfeed (h none).feed_nil_ne
      | cons t ts =>
          rw [List.map_cons, pulls_ok rfl, List.length_cons]
          exact Nat.succ_le_succ (ih (some t) (h (some t)) hfeed)

end Reader

namespace Phrase

/-- A phrase that answers has in view what it was given last, and one that fails with the message
about two stars was given these last. -/
def WatchesFrom (p : Phrase α) (last : Option Token) (progress : Progress) : Prop :=
  (p.run progress).Watches (fun r view => r.2.current = view) last progress.current

def Watches (p : Phrase α) : Prop := ∀ last progress, p.WatchesFrom last progress

section Steps
variable {p : Phrase α} {f : α → Phrase β} {last : Option Token} {progress : Progress}

theorem WatchesFrom.bind (h : p.WatchesFrom last progress) (h' : ∀ a, Watches (f a)) :
    (p >>= f).WatchesFrom last progress := by
  rw [WatchesFrom, StateT.run_bind]
  refine Reader.Watches.bind h ?_
  rintro ⟨a, rest⟩ last view rfl
  exact h' a last rest

theorem Watches.bind (h : Watches p) (h' : ∀ a, Watches (f a)) : Watches (p >>= f) :=
  fun last progress => (h last progress).bind h'

theorem watchesFrom_current_bind {f : Option Token → Phrase β}
    (h : (f progress.current).WatchesFrom last progress) :
    (current >>= f).WatchesFrom last progress := h

theorem watchesFrom_advance_bind {f : Option Token → Phrase β}
    (h : ∀ token, (f progress.current).WatchesFrom progress.current
      { progress with current := token }) :
    (advance >>= f).WatchesFrom last progress := h

theorem watchesFrom_discard_bind {f : Unit → Phrase β}
    (h : ∀ token, (f ()).WatchesFrom progress.current { progress with current := token }) :
    (discard advance >>= f).WatchesFrom last progress := h

theorem watches_pure (a : α) : Watches (pure a : Phrase α) := fun _ _ => rfl

theorem watches_refuse {x : ParseError} (hx : x ≠ .doubleStar) : Watches (refuse x : Phrase α) :=
  fun _ _ h => absurd h hx

theorem watches_current : Watches current := fun _ _ => rfl

theorem watches_discard : Watches (discard advance) := fun _ _ _ => rfl

theorem watches_count : Watches count := by
  intro last progress
  change (ite (maxOperations < progress.operations + 1) (refuse (.tooLong maxOperations))
    (pure ()) : Phrase Unit).WatchesFrom last
      { progress with operations := progress.operations + 1 }
  split
  · exact nofun
  · rfl

theorem watches_join (op : Operator) (l r : Expr) : Watches (join op l r) :=
  watches_count.bind fun _ => watches_pure _

theorem watches_operator (symbol : Char) : Watches (operator symbol) := by
  rw [operator]
  split
  · exact watches_pure _
  · exact watches_refuse (by simp)

/-- An operand is read with its sign right before the token in view. -/
theorem watches_chain {sign : Token → Option Char} {operand : Char → Phrase Expr}
    (h : ∀ t symbol, sign t = some symbol → ∀ progress,
      (operand symbol).WatchesFrom (some t) progress)
    (rounds : Nat) (left : Expr) : Watches (chain sign operand rounds left) := by
  induction rounds generalizing left with
  | zero => exact watches_refuse nofun
  | succ rounds ih =>
      intro last progress
      refine watchesFrom_current_bind ?_
      split
      · rfl
      · next symbol hsign =>
          obtain ⟨t, hview, ht⟩ := Option.bind_eq_some_iff.mp hsign
          refine watchesFrom_discard_bind fun token => ?_
          rw [hview]
          exact (h t symbol ht _).bind fun right =>
            (watches_operator symbol).bind fun op => (watches_join op left right).bind ih

end Steps

section Within
variable {p : Phrase Expr} (watches : Watches p)
include watches

theorem watches_product : Watches (product p) := by
  refine watches.bind fun left => watches_chain ?_ _ left
  intro t symbol ht progress
  have hsign : t = .prodOp symbol := by
    cases t <;> simp_all [prodSign]
  refine watchesFrom_current_bind ?_
  split
  · next hview => exact fun _ => ⟨congrArg some hsign, hview⟩
  · exact watches _ progress

theorem watches_sum : Watches (sum p) :=
  (watches_product watches).bind fun left =>
    watches_chain (fun t _ _ => watches_product watches (some t)) _ left

theorem watches_group : Watches (group p) := by
  refine (watches_sum watches).bind fun inner => watches_current.bind fun token => ?_
  split
  · exact watches_pure inner
  · exact watches_refuse nofun
  · exact watches_refuse nofun

theorem watches_adjacent : Watches (adjacent p) := by
  refine watches_current.bind fun token => ?_
  split
  · exact watches_discard.bind fun _ => (watches_group watches).bind fun e => watches_pure _
  · exact watches_pure none

theorem watches_lone (v : Operand) :
    Watches (do
      match ← adjacent p with
      | some right => refuse (v.slip right)
      | none => return v.expr : Phrase Expr) := by
  refine (watches_adjacent watches).bind fun right => ?_
  cases right with
  | some right => exact watches_refuse (by cases v <;> exact nofun)
  | none => exact watches_pure v.expr

theorem watches_value : Watches (value p) := by
  intro last progress
  refine watchesFrom_advance_bind fun token => ?_
  split
  · exact nofun
  · exact (watches_group watches).bind (fun inner => watches_discard.bind fun _ =>
      watches_lone watches (.group inner)) _ _
  · next node _ => exact watches_lone watches (.name node) _ _
  · next node _ => exact watches_lone watches (.number node) _ _
  · next hstar =>
      refine watchesFrom_current_bind ?_
      split
      · next hview => exact fun _ => ⟨hstar, hview⟩
      · exact nofun
  · exact nofun

theorem watches_exponent : Watches (exponent p) := by
  refine (watches_value watches).bind fun base => watches_current.bind fun token => ?_
  split
  · exact watches_discard.bind fun _ => watches.bind fun e => watches_join .power base e
  · exact watches_pure base

theorem watches_signed : Watches (signed p) := by
  refine watches_current.bind fun token => ?_
  split
  · refine watches_discard.bind fun _ => (watches_exponent watches).bind fun operand => ?_
    split
    · exact watches_count.bind fun _ => watches_pure _
    · exact watches_pure operand
  · exact watches_exponent watches

end Within

theorem watches_power (levels : Nat) : Watches (power levels) := by
  induction levels with
  | zero => exact watches_refuse nofun
  | succ levels ih => exact watches_signed ih

theorem watches_whole : whole.Watches (fun _ _ => True) none none := by
  intro token
  cases token with
  | none => exact nofun
  | some t =>
      have hsum := watches_sum (watches_power maxNesting) none { current := some t }
      refine Reader.Watches.bind (r := (sum (power maxNesting)).run { current := some t }) hsum ?_
      rintro ⟨e, rest⟩ last view -
      cases hrest : rest.current <;> simp [hrest, Reader.Watches]

end Phrase

/-- What asks for less to be completed fails less. -/
theorem unwind_ok_of_le {r r' : Nat} (hle : r ≤ r') {e : Expr} {n : Nat} {fs : List Frame}
    {x : Expr × Nat × List Frame} (h : unwind r' e n fs = .ok x) :
    ∃ y, unwind r e n fs = .ok y := by
  induction fs generalizing e n with
  | nil => exact ⟨_, rfl⟩
  | cons f fs ih =>
      by_cases hf : f.reach ≤ r
      · rw [unwind_cons (Nat.le_trans hf hle)] at h
        obtain ⟨a, hcomplete, h⟩ := ok_of_bind_ok h
        rw [unwind_cons hf, hcomplete]
        exact ih h
      · exact ⟨_, by rw [unwind, if_neg hf]⟩

namespace Stage
variable {ts : List Token}

/-- Where a run halts, more tokens would not have helped. -/
theorem Halts.run_error {s : Stage} {t : Token} (hs : s.Sound) (h : s.Halts t) (us : List Token) :
    ∃ x, s.run (t :: us) = .error x ∧ x ≠ .emptyInput ∧ x ≠ .unexpectedEnd := by
  obtain ⟨x, hstep⟩ | hstep := h
  · refine ⟨x, run_cons_of_error hstep us, ?_⟩
    cases refusal_of_step hs hstep <;> exact ⟨nofun, nofun⟩
  · rw [run_cons_of_ok hstep]
    obtain hrun | hrun := run_stray us <;> exact ⟨_, hrun, nofun, nofun⟩

theorem hopeful_of_viable (hts : ∀ t ∈ ts, t.Ordinary) (h : Viable ts) :
    ∃ s, ts.foldlM step outset = .ok s ∧ s.Sound ∧ s.Hopeful := by
  rw [Viable, reading_eq_run] at h
  obtain ⟨s, hfold, hs, -, -⟩ | ⟨before, t, after, s, rfl, hfold, hs, -, hhalts⟩ :=
    outset_through_or_halts hts
  · rw [run, hfold] at h
    exact ⟨s, hfold, hs, h⟩
  · rw [run_append, hfold] at h
    obtain ⟨x, hrun, hempty, hend⟩ := hhalts.run_error hs after
    obtain hx | hx := h x hrun
    · exact absurd hx hempty
    · exact absurd hx hend

/-- Whatever is missing, two stars are not. -/
theorem run_stars {s : Stage} (hs : s.Sound) (hopeful : s.Hopeful) :
    s.run [.star, .star] = .error .doubleStar := by
  cases s with
  | outset => rfl
  | awaiting fs n =>
      have hstep : (awaiting fs n).step .star = .error .doubleStar ∨
          (awaiting fs n).step .star = .ok stray := by
        simp only [Token.star, step, stepAwaiting]
        split
        · exact .inl rfl
        · exact .inr rfl
      obtain hstep | hstep := hstep
      · exact run_cons_of_error hstep _
      · exact run_cons_of_ok hstep _
  | holding v fs n =>
      cases hunwind : unwind Token.closeParen.reach v.expr n fs with
      | error x =>
          have hfinish : (holding v fs n).finish = .error x := by
            rw [finish, hunwind]
            rfl
          obtain ⟨rfl, -⟩ := unwind_error hs hunwind
          obtain hx | hx := hopeful _ hfinish <;> contradiction
      | ok r =>
          have hle : Token.star.reach ≤ Token.closeParen.reach := by decide
          obtain ⟨⟨e, m, fs'⟩, hless⟩ := unwind_ok_of_le hle hunwind
          rw [run_cons, step, hless]
          rfl
  | stray => obtain hx | hx := hopeful _ rfl <;> contradiction

end Stage

section Reading
variable {ts us : List Token}

theorem reading_error_iff {x : ParseError} :
    reading ts = .error x ↔ Phrase.whole.feed ts = .error x := by
  rw [reading, ofTokens_map_ok]
  cases Phrase.whole.feed ts <;> simp [Except.map]

theorem stars_of_reading (h : reading ts = .error .doubleStar) : [.star, .star] <:+: ts := by
  obtain ⟨hlast, -⟩ | ⟨hview, -⟩ | hinfix := Phrase.watches_whole.stars (reading_error_iff.mp h)
  · contradiction
  · contradiction
  · exact hinfix

variable (hts : ∀ t ∈ ts, t.Ordinary) (h : Viable ts)
include hts h

theorem reading_append_stars : reading (ts ++ [.star, .star]) = .error .doubleStar := by
  obtain ⟨s, hfold, hs, hopeful⟩ := Stage.hopeful_of_viable hts h
  rw [reading_eq_run, Stage.run_append, hfold]
  exact Stage.run_stars hs hopeful

/-- Behind two stars anything may stand. -/
theorem run_append_stars (items : List (Except ParseError Token)) :
    (Phrase.whole.run ((ts ++ [Token.star, .star]).map Except.ok ++ items)).1 =
      .error .doubleStar := by
  have hstars := reading_append_stars hts h
  have hpulls := Phrase.watches_whole.pulls_le (reading_error_iff.mp hstars)
  rw [Reader.run_append_of_pulls_le (by simpa using hpulls)]
  exact hstars

/-- A failure with this message may come before the second star is reached. -/
theorem run_before_stars (hus : us <+: ts ++ [.star, .star])
    (items : List (Except ParseError Token)) :
    (Phrase.whole.run (us.map Except.ok ++ .error .doubleStar :: items)).1 =
      .error .doubleStar := by
  by_cases hlt : us.length <
      Phrase.whole.pulls (us.map (Except.ok : Token → Except ParseError Token))
  · exact Reader.run_append_error_of_lt_pulls hlt
  · obtain ⟨vs, hvs⟩ := hus
    have hle : Phrase.whole.pulls (us.map (Except.ok : Token → Except ParseError Token)) ≤
        (us.map (Except.ok : Token → Except ParseError Token)).length := by
      simpa using hlt
    rw [Reader.run_append_of_pulls_le hle, ← Reader.run_append_of_pulls_le hle (vs.map .ok),
      ← List.map_append, hvs]
    exact reading_append_stars hts h

/-- Nothing is answered before the end of tokens that are viable. -/
theorem length_lt_pulls_of_viable :
    ts.length < Phrase.whole.pulls (ts.map (Except.ok : Token → Except ParseError Token)) := by
  refine Nat.lt_of_not_le fun hpulls => ?_
  have hle : Phrase.whole.pulls (ts.map (Except.ok : Token → Except ParseError Token)) ≤
      (ts.map (Except.ok : Token → Except ParseError Token)).length := by
    simpa using hpulls
  have hsame := Reader.run_append_of_pulls_le hle ([Token.star, .star].map Except.ok)
  rw [← List.map_append] at hsame
  have hread : reading ts = .error .doubleStar := hsame.symm.trans (reading_append_stars hts h)
  obtain hx | hx := h _ hread <;> contradiction

end Reading
end Formula
