import Formula.Proofs.Phrase.Completeness

/-!
The phrases of a formula as a stack. Between two tokens all that counts is which phrases have begun
and wait for their last operand, how many operations are joined, and whether an operand comes next
or has just been read. A token moves such a stage to the next one or is refused, so a run over a
list of tokens is a fold; what the end of the tokens makes of a stage is its finish.
-/

namespace Formula

/-- A value in the way it was written. -/
inductive Operand where
  | name (node : Expr)
  | number (node : Expr)
  | group (inner : Expr)

namespace Operand

def expr : Operand → Expr
  | name e | number e | group e => e

/-- The message for a group right behind a value. -/
def slip (right : Expr) : Operand → ParseError
  | name node => .functionCall node.text right.text
  | number node => .implicitProduct node.text right.text
  | group inner => .implicitProduct ("(" ++ inner.text ++ ")") right.text

end Operand

/-- A phrase that has begun and waits for its last operand. -/
inductive Frame where
  | sum (left : Expr) (symbol : Char)
  | product (left : Expr) (symbol : Char)
  | power (base : Expr)
  | sign (symbol : Char)
  | group
  /-- A group right behind the value `left`. -/
  | adjacent (left : Operand)

/-- One operation more, if there is room for it. -/
def counted (e : Expr) (n : Nat) : Except ParseError (Expr × Nat) :=
  if n < maxOperations then .ok (e, n + 1) else .error (.tooLong maxOperations)

theorem counted_ok {e e' : Expr} {n n' : Nat} (h : counted e n = .ok (e', n')) :
    n' = n + 1 ∧ n' ≤ maxOperations := by
  rw [counted] at h
  split at h
  · obtain ⟨-, rfl⟩ : e = e' ∧ n + 1 = n' := by simpa using h
    omega
  · contradiction

theorem counted_error {e : Expr} {n : Nat} {x : ParseError} (h : counted e n = .error x) :
    x = .tooLong maxOperations ∧ maxOperations < n + 1 := by
  rw [counted] at h
  split at h
  · contradiction
  · obtain rfl := Except.error.inj h
    exact ⟨rfl, by omega⟩

namespace Frame

/-- How large a phrase has to be carried on by a token in order to complete this one. -/
def reach : Frame → Nat
  | power _ | sign _ | product _ _ => 2
  | sum _ _ => 3
  | group | adjacent _ => 5

theorem one_lt_reach (f : Frame) : 1 < f.reach := by
  cases f <;> simp [reach]

/-- Whether what follows lies one power phrase deeper. -/
def nests : Frame → Bool
  | power _ | group | adjacent _ => true
  | sum _ _ | product _ _ | sign _ => false

/-- What a phrase makes of its last operand, with `n` operations joined before. -/
def complete (e : Expr) (n : Nat) : Frame → Except ParseError (Expr × Nat)
  | sum left symbol | product left symbol =>
    match Operator.ofSymbol symbol with
    | .ok op => counted (.binary op left e) n
    | .error x => .error (.unexpectedToken (String.singleton x.symbol))
  | power base => counted (.binary .power base e) n
  | sign symbol =>
    if symbol = '-' then counted (.binary .difference (.constant 0.0) e) n else .ok (e, n)
  | group | adjacent _ => .ok (e, n)

end Frame

/-- Completes the phrases on top of a stack that reach no further than `r`. -/
def unwind (r : Nat) (e : Expr) (n : Nat) : List Frame → Except ParseError (Expr × Nat × List Frame)
  | [] => .ok (e, n, [])
  | f :: fs =>
    if f.reach ≤ r then f.complete e n >>= fun x => unwind r x.1 x.2 fs else .ok (e, n, f :: fs)

/-- How many power phrases have begun around the one that comes next. -/
def depth (fs : List Frame) : Nat := fs.countP Frame.nests

/-- Where a run stands between two tokens, with the phrases that wait, innermost first, and the
number of operations that are joined. -/
inductive Stage where
  | outset
  | awaiting (fs : List Frame) (n : Nat)
  | holding (v : Operand) (fs : List Frame) (n : Nat)
  /-- A star stands where an operand should; only a second star changes the message. -/
  | stray

namespace Stage

/-- Begins a power phrase that lies deeper than the one before. -/
def enter (fs : List Frame) (n : Nat) : Except ParseError Stage :=
  if depth fs < maxNesting then .ok (awaiting fs n) else .error (.tooDeeplyNested maxNesting)

/-- A token where an operand comes next. -/
def stepAwaiting (fs : List Frame) (n : Nat) : Token → Except ParseError Stage
  | .openParen => enter (.group :: fs) n
  | .name node => .ok (holding (.name node) fs n)
  | .number node => .ok (holding (.number node) fs n)
  | .sumOp symbol =>
    match fs with
    | .sign _ :: _ => .error (.unexpectedToken (Token.sumOp symbol).text)
    | _ => .ok (awaiting (.sign symbol :: fs) n)
  | .prodOp '*' =>
    match fs with
    | .product _ '*' :: _ => .error .doubleStar
    | _ => .ok stray
  | t => .error (.unexpectedToken t.text)

/-- A token behind the operand `v`, once the phrases that it completes have given `e`. -/
def stepHolding (v : Operand) (e : Expr) (n : Nat) : Token → List Frame → Except ParseError Stage
  | .openParen, fs => enter (.adjacent v :: fs) n
  | .powOp, fs => enter (.power e :: fs) n
  | .prodOp symbol, fs => .ok (awaiting (.product e symbol :: fs) n)
  | .sumOp symbol, fs => .ok (awaiting (.sum e symbol :: fs) n)
  | .closeParen, .group :: fs => .ok (holding (.group e) fs n)
  | .closeParen, .adjacent left :: _ => .error (left.slip e)
  | t, _ => .error (.unexpectedToken t.text)

def step : Stage → Token → Except ParseError Stage
  | outset, t => stepAwaiting [] 0 t
  | awaiting fs n, t => stepAwaiting fs n t
  | holding v fs n, t => unwind t.reach v.expr n fs >>= fun x => stepHolding v x.1 x.2.1 t x.2.2
  | stray, .prodOp '*' => .error .doubleStar
  | stray, _ => .error (.unexpectedToken (Token.prodOp '*').text)

/-- The end completes what a closing parenthesis does. -/
def finish : Stage → Except ParseError Expr
  | outset => .error .emptyInput
  | awaiting _ _ => .error .unexpectedEnd
  | holding v fs n =>
    unwind Token.closeParen.reach v.expr n fs >>= fun x =>
      if x.2.2.isEmpty then .ok x.1 else .error .unexpectedEnd
  | stray => .error (.unexpectedToken (Token.prodOp '*').text)

def run (s : Stage) (ts : List Token) : Except ParseError Expr := ts.foldlM step s >>= finish

@[simp] theorem run_nil (s : Stage) : s.run [] = s.finish := rfl

@[simp] theorem run_cons (s : Stage) (t : Token) (ts : List Token) :
    s.run (t :: ts) = s.step t >>= fun s => s.run ts := by
  simp only [run, List.foldlM_cons, bind_assoc]

theorem run_cons_of_ok {s s' : Stage} {t : Token} (h : s.step t = .ok s') (ts : List Token) :
    s.run (t :: ts) = s'.run ts := by
  rw [run_cons, h]
  rfl

theorem run_cons_of_error {s : Stage} {t : Token} {x : ParseError} (h : s.step t = .error x)
    (ts : List Token) : s.run (t :: ts) = .error x := by
  rw [run_cons, h]
  rfl

theorem run_append (s : Stage) (ts us : List Token) :
    s.run (ts ++ us) = ts.foldlM step s >>= fun s => s.run us := by
  simp only [run, List.foldlM_append, bind_assoc]

/-- The way an operand was written counts only if a group follows. -/
theorem stepHolding_congr {t : Token} (h : 0 < t.reach) (v v' : Operand) (e : Expr) (n : Nat)
    (fs : List Frame) : stepHolding v e n t fs = stepHolding v' e n t fs := by
  cases t with
  | openParen => contradiction
  | closeParen =>
      cases fs with
      | nil => rfl
      | cons f fs => cases f <;> rfl
  | _ => rfl

end Stage

theorem depth_cons (f : Frame) (fs : List Frame) :
    depth (f :: fs) = depth fs + if f.nests then 1 else 0 := List.countP_cons

theorem unwind_cons {r : Nat} {f : Frame} (h : f.reach ≤ r) (e : Expr) (n : Nat) (fs : List Frame) :
    unwind r e n (f :: fs) = f.complete e n >>= fun x => unwind r x.1 x.2 fs := by
  rw [unwind, if_pos h]

/-- The phrases on a stack are too large for a token that reaches no further than `r`. -/
def Holds (r : Nat) (fs : List Frame) : Prop := ∀ f ∈ fs.head?, r < f.reach

theorem Holds.unwind {r : Nat} {fs : List Frame} (h : Holds r fs) (e : Expr) (n : Nat) :
    unwind r e n fs = .ok (e, n, fs) := by
  cases fs with
  | nil => rfl
  | cons f fs => rw [Formula.unwind, if_neg (Nat.not_le.mpr (h f rfl))]

theorem Holds.mono {r r' : Nat} {fs : List Frame} (h : Holds r fs) (hle : r' ≤ r) : Holds r' fs :=
  fun f hf => Nat.lt_of_le_of_lt hle (h f hf)

end Formula
