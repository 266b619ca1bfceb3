import Formula.Expr.Reading

/-!
Phrases on tokens that are all at hand. Where no token fails, a reader is a function of the list
that it is fed, and a phrase is a function of where it stands in that list. Each primitive of a
phrase has its equation here; what is proved of the grammar rests on these equations alone.
-/

namespace Formula

variable {α β : Type}

namespace Reader

/-- The answer of a reader that is fed a list of tokens, with the tokens that it leaves. -/
def feed : Reader α → List Token → Except ParseError (α × List Token)
  | done a, ts => .ok (a, ts)
  | fail e, _ => .error e
  | ask next, ts => (next ts.head?).feed ts.tail

theorem feed_bind (r : Reader α) (f : α → Reader β) (ts : List Token) :
    (r >>= f).feed ts =
      match r.feed ts with
      | .ok (a, rest) => (f a).feed rest
      | .error e => .error e := by
  induction r generalizing ts with
  | done a | fail e => rfl
  | ask next ih => exact ih ts.head? ts.tail

/-- Feeding a list is running on it as a source in which nothing fails. -/
theorem run_map_ok (r : Reader α) (ts : List Token) :
    (r.run (ts.map (Except.ok : Token → Except ParseError Token))).1 =
      (r.feed ts).map Prod.fst := by
  induction r generalizing ts with
  | done a | fail e => rfl
  | ask next ih =>
      cases ts with
      | nil => exact ih none []
      | cons t ts => exact ih (some t) ts

end Reader

/-- Where a phrase stands in a list of tokens. -/
structure Standing where
  progress : Progress
  /-- The tokens behind the one in view. -/
  unasked : List Token

/-- Before the tokens `ts`, the first of which is in view, with `n` operations joined. -/
def Standing.before (ts : List Token) (n : Nat) : Standing where
  progress := { current := ts.head?, operations := n }
  unasked := ts.tail

namespace Phrase
open Standing

/-- What a phrase gives from where it stands, and where it stands then. -/
def read (p : Phrase α) (s : Standing) : Except ParseError (α × Standing) :=
  match (p.run s.progress).feed s.unasked with
  | .ok ((a, progress), unasked) => .ok (a, { progress, unasked })
  | .error e => .error e

@[simp] theorem read_pure (a : α) (s : Standing) : (pure a : Phrase α).read s = .ok (a, s) := rfl

@[simp] theorem read_refuse (e : ParseError) (s : Standing) :
    (refuse e : Phrase α).read s = .error e := rfl

theorem read_bind (p : Phrase α) (f : α → Phrase β) (s : Standing) :
    (p >>= f).read s =
      match p.read s with
      | .ok (a, t) => (f a).read t
      | .error e => .error e := by
  simp only [read, StateT.run_bind, Reader.feed_bind]
  cases (p.run s.progress).feed s.unasked <;> rfl

theorem read_bind_ok {p : Phrase α} {f : α → Phrase β} {s t : Standing} {b : β}
    (h : (p >>= f).read s = .ok (b, t)) :
    ∃ a u, p.read s = .ok (a, u) ∧ (f a).read u = .ok (b, t) := by
  rw [read_bind] at h
  split at h
  · next a u hp => exact ⟨a, u, hp, h⟩
  · contradiction

@[simp] theorem read_current_bind (f : Option Token → Phrase β) (ts : List Token) (n : Nat) :
    (current >>= f).read (before ts n) = (f ts.head?).read (before ts n) := rfl

@[simp] theorem read_advance_bind (f : Option Token → Phrase β) (ts : List Token) (n : Nat) :
    (advance >>= f).read (before ts n) = (f ts.head?).read (before ts.tail n) := rfl

@[simp] theorem read_discard_bind (f : Unit → Phrase β) (ts : List Token) (n : Nat) :
    (discard advance >>= f).read (before ts n) = (f ()).read (before ts.tail n) := rfl

theorem read_count (ts : List Token) (n : Nat) :
    count.read (before ts n) =
      if n < maxOperations then .ok ((), before ts (n + 1))
      else .error (.tooLong maxOperations) := by
  change (ite (maxOperations < n + 1) (refuse (.tooLong maxOperations)) (pure ())).read
    (before ts (n + 1)) = _
  by_cases h : n < maxOperations
  · rw [if_neg (by omega), if_pos h, read_pure]
  · rw [if_pos (by omega), if_neg h, read_refuse]

theorem read_join (op : Operator) (l r : Expr) (ts : List Token) (n : Nat) :
    (join op l r).read (before ts n) =
      if n < maxOperations then .ok (.binary op l r, before ts (n + 1))
      else .error (.tooLong maxOperations) := by
  rw [join, read_bind, read_count]
  by_cases h : n < maxOperations <;> simp [h]

theorem feed_whole (ts : List Token) (h : ts ≠ []) :
    whole.feed ts =
      match (sum (power maxNesting)).read (before ts 0) with
      | .ok (e, s) =>
        match s.progress.current with
        | none => .ok (e, s.unasked)
        | some t => .error (.unexpectedToken t.text)
      | .error e => .error e := by
  obtain ⟨t, ts, rfl⟩ := List.exists_cons_of_ne_nil h
  change Reader.feed ((sum (power maxNesting)).run { current := some t } >>= _) ts = _
  simp only [Reader.feed_bind, read, before, List.head?_cons, List.tail_cons]
  cases ((sum (power maxNesting)).run { current := some t }).feed ts with
  | error e => rfl
  | ok r =>
      obtain ⟨⟨e, current, n⟩, rest⟩ := r
      cases current <;> rfl

end Phrase
end Formula
