import Formula.Proofs.Phrase.Stack

/-!
What the phrases read is what a run over a stack reads. Each phrase, followed by anything that goes
on as the stack under it would, answers as the run does that begins with the phrase; so the calls of
the phrases to each other are the frames of the stack, and no phrase has to be looked at again where
a property of all readings is shown of a single step of a run.
-/

namespace Formula
namespace Phrase
open Standing Stage

variable {α β : Type}

/-- What a phrase answers before the tokens `ts`, with `n` operations joined. -/
def answer (p : Phrase α) (ts : List Token) (n : Nat) : Except ParseError α :=
  (p.read (before ts n)).map Prod.fst

section Answer
variable {ts : List Token} {n : Nat}

theorem answer_current_bind (K : Option Token → Phrase β) :
    (current >>= K).answer ts n = (K ts.head?).answer ts n := rfl

theorem answer_advance_bind (K : Option Token → Phrase β) :
    (advance >>= K).answer ts n = (K ts.head?).answer ts.tail n := rfl

theorem answer_discard_bind (K : Unit → Phrase β) :
    (discard advance >>= K).answer ts n = (K ()).answer ts.tail n := rfl

theorem answer_count_bind (e : Expr) (K : Expr → Phrase β) :
    (count >>= fun _ => pure e >>= K).answer ts n =
      counted e n >>= fun x => (K x.1).answer ts x.2 := by
  rw [answer, read_bind, read_count, counted]
  by_cases h : n < maxOperations
  · rw [if_pos h, if_pos h]
    rfl
  · rw [if_neg h, if_neg h]
    rfl

theorem answer_join_bind (op : Operator) (l r : Expr) (K : Expr → Phrase β) :
    (join op l r >>= K).answer ts n =
      counted (.binary op l r) n >>= fun x => (K x.1).answer ts x.2 := by
  rw [answer, read_bind, read_join, counted]
  by_cases h : n < maxOperations
  · rw [if_pos h, if_pos h]
    rfl
  · rw [if_neg h, if_neg h]
    rfl

/-- Joining with a sign is completing a sum or a product. -/
theorem answer_operator_join_bind (symbol : Char) (l r : Expr) (K : Expr → Phrase β) :
    (operator symbol >>= fun op => join op l r >>= K).answer ts n =
      (Frame.sum l symbol).complete r n >>= fun x => (K x.1).answer ts x.2 := by
  rw [operator, Frame.complete]
  cases Operator.ofSymbol symbol with
  | ok op => exact answer_join_bind op l r K
  | error x => rfl

end Answer

end Phrase

namespace Stage

/-- A phrase is completed by a token that carries on something larger, and by the end. -/
theorem run_holding_cons {f : Frame} {ts : List Token} (h : ∀ t ∈ ts.head?, f.reach ≤ t.reach)
    (hf : f.reach ≤ Token.closeParen.reach) (v : Operand) (fs : List Frame) (n : Nat) :
    (holding v (f :: fs) n).run ts =
      f.complete v.expr n >>= fun x => (holding (.group x.1) fs x.2).run ts := by
  cases ts with
  | nil => simp only [run_nil, finish, unwind_cons hf, bind_assoc, Operand.expr]
  | cons t ts =>
      have hpos : 0 < t.reach := Nat.lt_of_lt_of_le (Nat.zero_lt_of_lt f.one_lt_reach) (h t rfl)
      simp only [run_cons, step, unwind_cons (h t rfl), bind_assoc]
      refine bind_congr fun x => bind_congr fun y => ?_
      rw [stepHolding_congr hpos v (.group x.1)]

theorem step_holding_of_holds {t : Token} {fs : List Frame} (h : Holds t.reach fs) (v : Operand)
    (n : Nat) : (holding v fs n).step t = stepHolding v v.expr n t fs := by
  rw [step, h.unwind]
  rfl

theorem run_stray_of_head_ne {ts : List Token} (h : ts.head? ≠ some (.prodOp '*')) :
    stray.run ts = .error (.unexpectedToken (Token.prodOp '*').text) := by
  cases ts with
  | nil => rfl
  | cons t ts =>
      rw [run_cons, step]
      · rfl
      · exact fun ht => h (congrArg some ht)

end Stage

namespace Phrase
open Standing Stage

/-- With at least `n` operations joined, `K` goes on from a phrase of reach `r` as the stack
does. -/
def Continues (K : Expr → Phrase Expr) (r : Nat) (fs : List Frame) (n : Nat) : Prop :=
  ∀ ⦃v : Operand⦄ ⦃ts m⦄, (∀ t ∈ ts.head?, r < t.reach) → n ≤ m → m ≤ maxOperations →
    (K v.expr).answer ts m = (holding v fs m).run ts

theorem Continues.mono {K : Expr → Phrase Expr} {r n n' : Nat} {fs : List Frame}
    (h : Continues K r fs n) (hle : n ≤ n') : Continues K r fs n' :=
  fun _ _ _ ht hn => h ht (Nat.le_trans hle hn)

theorem Continues.counted {K : Expr → Phrase Expr} {r n k : Nat} {fs : List Frame}
    {ts : List Token} (h : Continues K r fs n) (hts : ∀ t ∈ ts.head?, r < t.reach) (hn : n ≤ k)
    (e : Expr) :
    (counted e k >>= fun x => (K x.1).answer ts x.2) =
      counted e k >>= fun x => (holding (.group x.1) fs x.2).run ts := by
  cases hdone : Formula.counted e k with
  | error x => rfl
  | ok x =>
      obtain ⟨hcount, hle⟩ := counted_ok hdone
      exact h (v := .group x.1) hts (by omega) hle

/-- No sign stands before the power phrase that comes next, and the star of a product is not
followed by another one. -/
def Fresh (fs : List Frame) (ts : List Token) : Prop :=
  (∀ symbol, Frame.sign symbol ∉ fs.head?) ∧
    ∀ left, Frame.product left '*' ∈ fs.head? → ts.head? ≠ some (.prodOp '*')

/-- A power phrase is what a run reads that enters one. Where the levels are used up it does not
matter how the reading would go on. -/
def Enters (p : Phrase Expr) (levels : Nat) : Prop :=
  ∀ ⦃fs K ts n⦄, depth fs + levels = maxNesting → Fresh fs ts → n ≤ maxOperations →
    (depth fs < maxNesting → Continues K 1 fs n) →
    (p >>= K).answer ts n = enter fs n >>= fun s => s.run ts

theorem enter_of_lt {fs : List Frame} (h : depth fs < maxNesting) (n : Nat) :
    enter fs n = .ok (awaiting fs n) := if_pos h

/-- The signs of a repeated phrase and the frames that they lay, which a sign of the same level
completes. -/
structure Links (sign : Token → Option Char) (frame : Expr → Char → Frame) (r : Nat) : Prop where
  lays : ∀ t symbol, sign t = some symbol → t.reach = r ∧
    ∀ v e n fs, stepHolding v e n t fs = .ok (awaiting (frame e symbol :: fs) n)
  passes : ∀ t, r ≤ t.reach → sign t = none → r < t.reach
  frame_reach : ∀ left symbol, (frame left symbol).reach = r
  complete_eq : ∀ left symbol e n,
    (frame left symbol).complete e n = (Frame.sum left symbol).complete e n

theorem links_product : Links prodSign .product 2 where
  lays t symbol ht := by
    cases t with
    | prodOp c =>
        obtain rfl : c = symbol := by simpa [prodSign] using ht
        exact ⟨rfl, fun _ _ _ _ => rfl⟩
    | _ => contradiction
  passes t ht hsign := by
    cases t with
    | prodOp c => contradiction
    | openParen | powOp => simp [Token.reach] at ht
    | _ => simp [Token.reach]
  frame_reach _ _ := rfl
  complete_eq _ _ _ _ := rfl

theorem links_sum : Links sumSign .sum 3 where
  lays t symbol ht := by
    cases t with
    | sumOp c =>
        obtain rfl : c = symbol := by simpa [sumSign] using ht
        exact ⟨rfl, fun _ _ _ _ => rfl⟩
    | _ => contradiction
  passes t ht hsign := by
    cases t with
    | sumOp c => contradiction
    | openParen | powOp | prodOp _ => simp [Token.reach] at ht
    | _ => simp [Token.reach]
  frame_reach _ _ := rfl
  complete_eq _ _ _ _ := rfl

section Chain
variable {sign : Token → Option Char} {frame : Expr → Char → Frame} {operand : Char → Phrase Expr}
variable {fs : List Frame} {K : Expr → Phrase Expr} {r : Nat}

/-- A chain goes round as long as signs of its level come, and the stack then has a frame on top
for each of them in its turn. -/
theorem answer_chain (hlinks : Links sign frame (r + 1)) (hr : r + 1 ≤ Token.closeParen.reach)
    (hoperand : ∀ left symbol K ts n, n ≤ maxOperations →
      Continues K r (frame left symbol :: fs) n →
      (operand symbol >>= K).answer ts n = (awaiting (frame left symbol :: fs) n).run ts)
    (hfs : Holds (r + 1) fs) (rounds : Nat) {v : Operand} {ts : List Token} {n : Nat}
    (hK : Continues K (r + 1) fs n) (hts : ∀ t ∈ ts.head?, r < t.reach) (hn : n ≤ maxOperations)
    (hrounds : maxOperations < n + rounds) :
    (chain sign operand rounds v.expr >>= K).answer ts n = (holding v fs n).run ts := by
  induction rounds generalizing v ts n with
  | zero => omega
  | succ rounds ih =>
      rw [chain, bind_assoc, answer_current_bind]
      cases hsign : ts.head?.bind sign with
      | none =>
          refine hK (fun t ht => ?_) (Nat.le_refl n) hn
          rw [Option.mem_def.mp ht] at hsign
          exact hlinks.passes t (hts t ht) hsign
      | some symbol =>
          obtain ⟨t, hhead, ht⟩ := Option.bind_eq_some_iff.mp hsign
          obtain ⟨ts, rfl⟩ := List.head?_eq_some_iff.mp hhead
          obtain ⟨hreach, hlays⟩ := hlinks.lays t symbol ht
          rw [run_cons, step_holding_of_holds (hreach ▸ hfs), hlays]
          -- what is left of the round is what the operand goes on to
          refine (congrArg (fun p => answer p (t :: ts) n) (bind_assoc _ _ _)).trans ?_
          rw [answer_discard_bind, List.tail_cons]
          refine (congrArg (fun p => answer p ts n) (bind_assoc _ _ _)).trans ?_
          refine hoperand v.expr symbol _ ts n hn fun w us m hus hm hmax => ?_
          have hframe : (frame v.expr symbol).reach = r + 1 := hlinks.frame_reach _ _
          have hends : ∀ t ∈ us.head?, (frame v.expr symbol).reach ≤ t.reach := by
            rw [hframe]
            exact hus
          rw [run_holding_cons hends (by omega), hlinks.complete_eq, bind_assoc]
          simp only [bind_assoc]
          rw [answer_operator_join_bind]
          -- a round that is joined leaves one operation less to be joined
          cases hdone : (Frame.sum v.expr symbol).complete w.expr m with
          | error x => rfl
          | ok x =>
              have hcount : x.2 = m + 1 ∧ x.2 ≤ maxOperations := by
                rw [Frame.complete] at hdone
                split at hdone
                · exact counted_ok hdone
                · contradiction
              exact ih (v := .group x.1) (hK.mono (by omega)) hus hcount.2 (by omega)

end Chain

section Within
variable {p : Phrase Expr} {levels : Nat} (hp : Enters p levels)
variable {fs : List Frame} {K : Expr → Phrase Expr} {ts : List Token} {n : Nat}
include hp

theorem answer_factor (hlevels : depth fs + levels = maxNesting) (hroom : depth fs < maxNesting)
    (hn : n ≤ maxOperations) (left : Expr) (symbol : Char)
    (hK : Continues K 1 (.product left symbol :: fs) n) :
    (factor p symbol >>= K).answer ts n = (awaiting (.product left symbol :: fs) n).run ts := by
  have hdepth : depth (.product left symbol :: fs) = depth fs := depth_cons _ _
  by_cases hstar : symbol = '*' ∧ ts.head? = some (.prodOp '*')
  · obtain ⟨rfl, hhead⟩ := hstar
    obtain ⟨ts, rfl⟩ := List.head?_eq_some_iff.mp hhead
    rfl
  · have hplain : (factor p symbol >>= K).answer ts n = (p >>= K).answer ts n := by
      rw [factor, bind_assoc, answer_current_bind]
      split
      · next hhead => exact absurd ⟨rfl, hhead⟩ hstar
      · rfl
    have hfresh : Fresh (.product left symbol :: fs) ts := by
      refine ⟨by simp, fun left' h hts => hstar ⟨?_, hts⟩⟩
      simpa using (Frame.product.inj (Option.some.inj h)).2
    rw [hplain, hp (hdepth ▸ hlevels) hfresh hn fun _ => hK, enter_of_lt (hdepth ▸ hroom)]
    rfl

theorem answer_product (hlevels : depth fs + levels = maxNesting) (hfresh : Fresh fs ts)
    (hfs : Holds 2 fs) (hn : n ≤ maxOperations)
    (hK : depth fs < maxNesting → Continues K 2 fs n) :
    (product p >>= K).answer ts n = enter fs n >>= fun s => s.run ts := by
  rw [product, bind_assoc]
  refine hp hlevels hfresh hn fun hroom v us m hus hm hmax => ?_
  refine answer_chain links_product (by decide) ?_ hfs _ ((hK hroom).mono hm) hus hmax (by omega)
  exact fun left symbol K ts n hn hK => answer_factor hp hlevels hroom hn left symbol hK

theorem answer_sum (hlevels : depth fs + levels = maxNesting) (hfresh : Fresh fs ts)
    (hfs : Holds 3 fs) (hn : n ≤ maxOperations)
    (hK : depth fs < maxNesting → Continues K 3 fs n) :
    (sum p >>= K).answer ts n = enter fs n >>= fun s => s.run ts := by
  rw [sum, bind_assoc]
  have hfs' : Holds 2 fs := hfs.mono (by decide)
  refine answer_product hp hlevels hfresh hfs' hn fun hroom v us m hus hm hmax => ?_
  refine answer_chain links_sum (by decide) ?_ hfs _ ((hK hroom).mono hm) hus hmax (by omega)
  intro left symbol K ts n hn hK
  have hdepth : depth (.sum left symbol :: fs) = depth fs := depth_cons _ _
  rw [answer_product hp (hdepth ▸ hlevels) ⟨by simp, by simp⟩ (by simp [Holds, Frame.reach]) hn
    fun _ => hK, enter_of_lt (hdepth ▸ hroom)]
  rfl

/-- A group is a sum under the frame `f`, which waits for the closing parenthesis. -/
theorem answer_group {f : Frame} (hf : f.reach = 5)
    (hlevels : depth (f :: fs) + levels = maxNesting) (hfresh : Fresh (f :: fs) ts)
    (hn : n ≤ maxOperations)
    (hK : ∀ ⦃v : Operand⦄ ⦃us m⦄, n ≤ m → m ≤ maxOperations →
      (K v.expr).answer (.closeParen :: us) m = (holding v (f :: fs) m).run (.closeParen :: us)) :
    (group p >>= K).answer ts n = enter (f :: fs) n >>= fun s => s.run ts := by
  have hfs (r : Nat) (h : r ≤ 4) : Holds r (f :: fs) := by
    rintro g ⟨⟩
    omega
  rw [group, bind_assoc]
  refine answer_sum hp hlevels hfresh (hfs 3 (by decide)) hn fun _ v us m hus hm hmax => ?_
  rw [bind_assoc, answer_current_bind]
  cases us with
  | nil =>
      rw [run_nil, finish, (hfs _ (by decide)).unwind]
      rfl
  | cons t us =>
      have hstep (h : t.reach = 4) :
          (holding v (f :: fs) m).step t = stepHolding v v.expr m t (f :: fs) :=
        step_holding_of_holds (h ▸ hfs 4 (Nat.le_refl 4)) v m
      cases t with
      | closeParen => exact hK hm hmax
      | openParen | powOp | prodOp _ | sumOp _ => simp [Token.reach] at hus
      | name node | number node =>
          rw [run_cons, hstep rfl]
          rfl

/-- What a group behind the value `v` makes of the reading is what its frame does. -/
theorem answer_adjacent (hlevels : depth fs + levels + 1 = maxNesting) (hn : n ≤ maxOperations)
    (v : Operand) (hK : Continues K 0 fs n) :
    ((do match ← adjacent p with
         | some right => refuse (v.slip right)
         | none => return v.expr : Phrase Expr) >>= K).answer ts n = (holding v fs n).run ts := by
  rw [bind_assoc, adjacent, bind_assoc, answer_current_bind]
  split
  · next hopen =>
      obtain ⟨ts, rfl⟩ := List.head?_eq_some_iff.mp hopen
      have hdepth : depth (.adjacent v :: fs) = depth fs + 1 := depth_cons _ _
      have hfs : Holds Token.openParen.reach fs := fun f _ => Nat.zero_lt_of_lt f.one_lt_reach
      have hstep : (holding v fs n).step .openParen = enter (.adjacent v :: fs) n :=
        step_holding_of_holds hfs v n
      rw [bind_assoc, answer_discard_bind, bind_assoc, run_cons, hstep]
      exact answer_group hp rfl (by omega) ⟨by simp, by simp⟩ hn fun _ _ _ _ _ => rfl
  · next hopen =>
      refine hK (fun t ht => ?_) (Nat.le_refl n) hn
      cases t with
      | openParen => exact absurd ht hopen
      | _ => exact Nat.succ_pos _

omit hp in
theorem answer_star :
    ((do match ← current with
         | some (.prodOp '*') => refuse .doubleStar
         | _ => refuse (.unexpectedToken "*") : Phrase Expr) >>= K).answer ts n = stray.run ts := by
  rw [bind_assoc, answer_current_bind]
  split
  · next hhead =>
      obtain ⟨ts, rfl⟩ := List.head?_eq_some_iff.mp hhead
      rfl
  · next hhead => exact (run_stray_of_head_ne hhead).symm

/-- A sign that comes next is not taken for the sign of a phrase. -/
theorem answer_value (hlevels : depth fs + levels + 1 = maxNesting) (hn : n ≤ maxOperations)
    (hsign : ∀ symbol, ts.head? = some (.sumOp symbol) → ∃ c, fs.head? = some (.sign c))
    (hstar : ∀ left, Frame.product left '*' ∈ fs.head? → ts.head? ≠ some (.prodOp '*'))
    (hK : Continues K 0 fs n) :
    (value p >>= K).answer ts n = (awaiting fs n).run ts := by
  rw [value, bind_assoc, answer_advance_bind]
  cases ts with
  | nil => rfl
  | cons t ts =>
      rw [run_cons]
      cases t with
      | openParen =>
          have hdepth : depth (.group :: fs) = depth fs + 1 := depth_cons _ _
          refine (congrArg (fun p => answer p ts n) (bind_assoc _ _ _)).trans ?_
          refine answer_group hp rfl (by omega) ⟨by simp, by simp⟩ hn fun v us m hm hmax => ?_
          rw [bind_assoc, answer_discard_bind]
          -- a group may follow the group just as it may follow a name or a number
          exact answer_adjacent hp hlevels hmax (.group v.expr) (hK.mono hm)
      | name node => exact answer_adjacent hp hlevels hn (.name node) hK
      | number node => exact answer_adjacent hp hlevels hn (.number node) hK
      | sumOp symbol =>
          obtain ⟨c, hc⟩ := hsign symbol rfl
          obtain ⟨fs, rfl⟩ := List.head?_eq_some_iff.mp hc
          rfl
      | prodOp symbol =>
          -- the token behind a star only decides which message there is
          by_cases hsymbol : symbol = '*'
          · subst hsymbol
            have hstep : (awaiting fs n).step (.prodOp '*') = .ok stray := by
              simp only [step, stepAwaiting]
              split
              · next fs => exact absurd rfl (hstar _ rfl)
              · rfl
            rw [hstep]
            exact answer_star
          · have hstep : (awaiting fs n).step (.prodOp symbol) =
                .error (.unexpectedToken (Token.prodOp symbol).text) := by
              simp [step, stepAwaiting, hsymbol]
            rw [hstep, List.head?_cons]
            split
            case h_6 htoken =>
              obtain rfl := Option.some.inj htoken
              rfl
            all_goals simp_all
      | closeParen | powOp => rfl

theorem answer_exponent (hlevels : depth fs + levels + 1 = maxNesting) (hn : n ≤ maxOperations)
    (hsign : ∀ symbol, ts.head? = some (.sumOp symbol) → ∃ c, fs.head? = some (.sign c))
    (hstar : ∀ left, Frame.product left '*' ∈ fs.head? → ts.head? ≠ some (.prodOp '*'))
    (hK : Continues K 1 fs n) :
    (exponent p >>= K).answer ts n = (awaiting fs n).run ts := by
  rw [exponent, bind_assoc]
  refine answer_value hp hlevels hn hsign hstar fun v us m hus hm hmax => ?_
  rw [bind_assoc, answer_current_bind]
  split
  · next hpow =>
      obtain ⟨us, rfl⟩ := List.head?_eq_some_iff.mp hpow
      have hdepth : depth (.power v.expr :: fs) = depth fs + 1 := depth_cons _ _
      have hfs : Holds Token.powOp.reach fs := fun f _ => f.one_lt_reach
      have hstep : (holding v fs m).step .powOp = enter (.power v.expr :: fs) m :=
        step_holding_of_holds hfs v m
      rw [bind_assoc, answer_discard_bind, bind_assoc, run_cons, hstep]
      refine hp (by omega) ⟨by simp, by simp⟩ hmax fun _ w vs k hvs hk hkmax => ?_
      rw [answer_join_bind, run_holding_cons (f := .power v.expr) hvs (by decide : 2 ≤ 4),
        Frame.complete]
      exact hK.counted hvs (Nat.le_trans hm hk) _
  · next hpow =>
      refine hK (fun t ht => ?_) hm hmax
      cases t with
      | powOp => exact absurd ht hpow
      | openParen => exact absurd (hus _ ht) (Nat.lt_irrefl 0)
      | _ => simp [Token.reach]

theorem answer_signed (hlevels : depth fs + levels + 1 = maxNesting) (hn : n ≤ maxOperations)
    (hfresh : Fresh fs ts) (hK : Continues K 1 fs n) :
    (signed p >>= K).answer ts n = (awaiting fs n).run ts := by
  rw [signed, bind_assoc, answer_current_bind]
  split
  · next symbol hhead =>
      obtain ⟨ts, rfl⟩ := List.head?_eq_some_iff.mp hhead
      have hdepth : depth (.sign symbol :: fs) = depth fs := depth_cons _ _
      have hstep : (awaiting fs n).step (.sumOp symbol) =
          .ok (awaiting (.sign symbol :: fs) n) := by
        simp only [step, stepAwaiting]
        split
        · next c fs => exact absurd rfl (hfresh.1 c)
        · rfl
      rw [bind_assoc, answer_discard_bind, bind_assoc, run_cons, hstep]
      refine answer_exponent hp (hdepth ▸ hlevels) hn (fun _ _ => ⟨symbol, rfl⟩) (by simp)
        fun v us m hus hm hmax => ?_
      rw [run_holding_cons (f := .sign symbol) hus (by decide : 2 ≤ 4), Frame.complete]
      split
      · rw [bind_assoc, answer_count_bind]
        exact hK.counted hus hm _
      · exact hK (v := .group v.expr) hus hm hmax
  · next hhead =>
      exact answer_exponent hp hlevels hn (fun symbol h => absurd h (hhead symbol)) hfresh.2 hK

end Within

theorem enters_power (levels : Nat) : Enters (power levels) levels := by
  -- the levels that are left and the frames that nest always make up the limit
  induction levels with
  | zero =>
      intro fs K ts n hlevels hfresh hn hK
      rw [enter, if_neg (by omega)]
      rfl
  | succ levels ih =>
      intro fs K ts n hlevels hfresh hn hK
      rw [enter_of_lt (by omega)]
      exact answer_signed ih (by omega) hn hfresh (hK (by omega))

/-- Behind a formula nothing may follow. -/
theorem continues_ending :
    Continues (fun e => do
      match ← current with
      | none => return e
      | some token => refuse (.unexpectedToken token.text)) 3 [] 0 := by
  intro v ts n hts _ _
  rw [answer_current_bind]
  cases ts with
  | nil => rfl
  | cons t ts =>
      cases t with
      | openParen | powOp | prodOp _ | sumOp _ => simp [Token.reach] at hts
      | closeParen | name _ | number _ => rfl

/-- Anything is read as a run over a stack reads it. -/
theorem map_feed_whole (ts : List Token) : (whole.feed ts).map Prod.fst = outset.run ts := by
  cases ts with
  | nil => rfl
  | cons t ts =>
      have hrun : (awaiting [] 0).run (t :: ts) = outset.run (t :: ts) := rfl
      have hfresh : Fresh [] (t :: ts) := ⟨by simp, by simp⟩
      have hsum := answer_sum (enters_power maxNesting) rfl hfresh (by simp [Holds]) (by decide)
        fun _ => continues_ending
      rw [enter_of_lt (by decide)] at hsum
      rw [feed_whole _ (by simp), ← hrun]
      refine Eq.trans ?_ hsum
      rw [answer, read_bind]
      cases (sum (power maxNesting)).read (before (t :: ts) 0) with
      | error x => rfl
      | ok r =>
          obtain ⟨e, ⟨⟨current, n⟩, unasked⟩⟩ := r
          cases current <;> rfl

end Phrase
end Formula
