import Formula.Proofs.Expr.RoundTrip
import Formula.Proofs.Number.Magnitude

/-!
Formulas with negative constants. No text is read as a negative constant, so the minus in front of
one is heard as a leading sign, and this reaches over the power that follows it: `-2.0^2.0` is the
opposite of a square. Where no negative constant is the base of a power, the formula that is heard
has the opposite of its absolute value for each negative constant and is otherwise the same.
-/

namespace Formula
namespace Expr

/-- Names are made of letters, and constants are finite. -/
def Signable : Expr → Prop
  | constant x => x.isFinite
  | var name => name ≠ "" ∧ ∀ c ∈ name.toList, c.isAlpha
  | binary _ l r => l.Signable ∧ r.Signable

/-- A constant with a sign, be it a zero. -/
def hasSign : Expr → Bool
  | constant x => Number.isNegative x
  | _ => false

/-- What a phrase means behind the sign that the text of `e` begins with, if it does. -/
def withSign (e phrase : Expr) : Expr :=
  if e.hasSign then binary .difference (constant 0.0) phrase else phrase

/-- What is read behind that sign. The sign of a base comes before the whole power. -/
def core : Expr → Expr
  | constant x => constant x.abs
  | var name => var name
  | binary .power l r => l.withSign (binary .power l.core (r.withSign r.core))
  | binary op l r => binary op (l.withSign l.core) (r.withSign r.core)

/-- What the text of a formula is read as. -/
def heard (e : Expr) : Expr := e.withSign e.core

/-- Each constant with a sign is replaced by the opposite of its absolute value. -/
def restored : Expr → Expr
  | constant x =>
    if Number.isNegative x then binary .difference (constant 0.0) (constant x.abs)
    else constant x
  | var name => var name
  | binary op l r => binary op l.restored r.restored

/-- The base of a power is never a constant with a sign. -/
def PlainBases : Expr → Prop
  | constant _ | var _ => True
  | binary op l r => (op = .power → l.hasSign = false) ∧ l.PlainBases ∧ r.PlainBases

/-- The token of the sign that the text begins with, if it does. -/
def mark (e : Expr) : List Token := if e.hasSign then [.sumOp '-'] else []

def coreTokens : Expr → List Token
  | constant x => [.number (constant x.abs)]
  | var name => [.name (var name)]
  | binary op l r =>
    .openParen :: (l.mark ++ l.coreTokens ++ op.token :: (r.mark ++ r.coreTokens) ++ [.closeParen])

theorem withSign_of_hasSign {e : Expr} (h : e.hasSign) (phrase : Expr) :
    e.withSign phrase = binary .difference (constant 0.0) phrase := if_pos h

theorem withSign_of_not_hasSign {e : Expr} (h : e.hasSign = false) (phrase : Expr) :
    e.withSign phrase = phrase := if_neg (by simp [h])

theorem core_joined {op : Operator} (hop : op ≠ .power) (l r : Expr) :
    (binary op l r).core = binary op l.heard r.heard := by
  cases op with
  | power => contradiction
  | _ => rfl

theorem heard_eq_restored_iff (e : Expr) : e.heard = e.restored ↔ e.PlainBases := by
  induction e with
  | constant x =>
      refine iff_of_true ?_ trivial
      rw [heard, withSign, core, restored, hasSign]
      split
      · rfl
      · next hs => rw [Number.abs_of_not_isNegative (Bool.eq_false_iff.mpr hs)]
  | var name => exact iff_of_true rfl trivial
  | binary op l r ihl ihr =>
      have hheard : (binary op l r).heard = (binary op l r).core := withSign_of_not_hasSign rfl _
      rw [hheard, restored, PlainBases, ← ihl, ← ihr]
      by_cases hop : op = .power
      · subst hop
        cases hs : l.hasSign with
        | true => simp [core, withSign_of_hasSign hs]
        | false => simp [core, heard, withSign_of_not_hasSign hs]
      · simp [core_joined hop, hop]

theorem derives_withSign {l a : Expr} {ts : List Token} {d : Nat}
    (h : Derives .exponent ts a d a.operations) :
    Derives .power (l.mark ++ ts) (l.withSign a) (d + 1) (l.withSign a).operations := by
  cases hs : l.hasSign with
  | true =>
      rw [withSign_of_hasSign hs, mark, if_pos hs, operations, operations, Nat.zero_add]
      exact .minus h
  | false =>
      rw [withSign_of_not_hasSign hs, mark, if_neg (by simp [hs])]
      exact .plain h

theorem derives_core (e : Expr) :
    ∃ d, d + 1 = e.nesting ∧ Derives .value e.coreTokens e.core d e.core.operations := by
  induction e with
  | constant x => exact ⟨0, rfl, .number⟩
  | var name => exact ⟨0, rfl, .name⟩
  | binary op l r ihl ihr =>
      obtain ⟨d, hd, hl⟩ := ihl
      obtain ⟨d', hd', hr⟩ := ihr
      have hright := derives_withSign (l := r) (.base hr)
      by_cases hop : op = .power
      · subst hop
        have hpower : Derives .power _ _ _ _ := derives_withSign (l := l) (.raised hl hright)
        have hgroup := hpower.sum_of_power.group
        refine ⟨_, ?_, by simpa [coreTokens, core, Operator.token] using hgroup⟩
        simp only [nesting]
        omega
      · have hleft := derives_withSign (l := l) (.base hl)
        have hjoined := derives_joined hop hleft hright
        have hgroup := hjoined.group
        refine ⟨_, ?_, by simpa [coreTokens, core_joined hop, heard, operations] using hgroup⟩
        rw [nesting_joined hop]
        omega

theorem derives_heard (e : Expr) :
    Derives .sum (e.mark ++ e.coreTokens) e.heard e.nesting e.heard.operations := by
  obtain ⟨d, hd, hvalue⟩ := e.derives_core
  exact hd ▸ (derives_withSign (.base hvalue)).sum_of_power

theorem writable_abs {x : Float} (h : x.isFinite) : (constant x.abs).Writable :=
  ⟨Number.isFinite_abs h, Number.isNegative_abs h⟩

theorem scans_constant {x : Float} (h : x.isFinite) :
    Scans (constant x).text ((constant x).mark ++ (constant x).coreTokens) := by
  have hnumber := scans_text (writable_abs h)
  cases hs : Number.isNegative x with
  | false =>
      rw [Number.abs_of_not_isNegative hs] at hnumber
      rw [mark, hasSign, hs, coreTokens, Number.abs_of_not_isNegative hs]
      exact hnumber
  | true =>
      intro rest hrest p
      have hminus : (Token.sumOp '-').Spells ['-'] ((constant x.abs).text.toList ++ rest) :=
        ⟨rfl, .inr rfl⟩
      obtain ⟨q, hq⟩ := hnumber hrest (p + width ['-'])
      have htext : (constant x).text.toList ++ rest =
          ['-'] ++ ((constant x.abs).text.toList ++ rest) := by
        simp [text, Number.pointedText_of_isNegative h hs]
      refine ⟨q, ?_⟩
      rw [htext, Scanner.tokens_spells_first hminus, hq, mark, hasSign, hs]
      rfl

theorem signable_head_ne_star {e : Expr} (h : e.Signable) (rest : List Char) :
    (e.text.toList ++ rest).head? ≠ some '*' := by
  cases e with
  | constant x =>
      cases hs : Number.isNegative x with
      | false =>
          have hwritable : (constant x).Writable := ⟨h, hs⟩
          exact text_head_ne_star hwritable rest
      | true => simp [text, Number.pointedText_of_isNegative h hs]
  | var name =>
      have hwritable : (var name).Writable := h
      exact text_head_ne_star hwritable rest
  | binary op l r => simp [text]

theorem scans_signable {e : Expr} (h : e.Signable) : Scans e.text (e.mark ++ e.coreTokens) := by
  induction e with
  | constant x => exact scans_constant h
  | var name => exact scans_text h
  | binary op l r ihl ihr => exact scans_binary (ihl h.1) (ihr h.2) (signable_head_ne_star h.2)

theorem ofText_text_heard {e : Expr} (h : e.Signable)
    (room : e.nesting ≤ maxNesting ∧ e.heard.operations ≤ maxOperations) :
    ofText e.text = .ok e.heard := by
  rw [(scans_signable h).ofText_eq, e.derives_heard.feed_whole.1 room]
  rfl

/-- The text of a formula with negative constants is read back with the opposites of their absolute
values, unless one of them is the base of a power, and fails only at the limits. -/
theorem ofText_text_signed (e : Expr) (h : e.Signable) :
    (∀ u, ofText e.text = .ok u ↔
      u = e.heard ∧ e.nesting ≤ maxNesting ∧ e.heard.operations ≤ maxOperations) ∧
    (maxNesting < e.nesting ∨ maxOperations < e.heard.operations →
      ofText e.text = .error (.tooDeeplyNested maxNesting) ∨
        ofText e.text = .error (.tooLong maxOperations)) ∧
    (e.heard = e.restored ↔ e.PlainBases) := by
  have hbeyond (beyond : maxNesting < e.nesting ∨ maxOperations < e.heard.operations) :
      ofText e.text = .error (.tooDeeplyNested maxNesting) ∨
        ofText e.text = .error (.tooLong maxOperations) := by
    rw [(scans_signable h).ofText_eq]
    exact e.derives_heard.feed_whole_error beyond
  refine ⟨fun u => ⟨fun hu => ?_, ?_⟩, hbeyond, e.heard_eq_restored_iff⟩
  · by_cases room : e.nesting ≤ maxNesting ∧ e.heard.operations ≤ maxOperations
    · have hsame := hu.symm.trans (ofText_text_heard h room)
      exact ⟨Except.ok.inj hsame, room⟩
    · obtain hx | hx := hbeyond (by omega) <;> exact nomatch hu.symm.trans hx
  · rintro ⟨rfl, room⟩
    exact ofText_text_heard h room

/-- A negative constant in the exponent. -/
def inverse : Expr := binary .power (var "x") (constant (-2.0))

theorem signable_inverse : inverse.Signable := by
  have hfinite : (-2.0 : Float).isFinite := by decide
  exact ⟨⟨by decide, List.all_eq_true.mp rfl⟩, hfinite⟩

theorem ofText_text_signed_inverse :
    inverse.Signable ∧ inverse.text = "(x^-2.0)" ∧ inverse.PlainBases ∧
      ofText inverse.text =
        .ok (binary .power (var "x") (binary .difference (constant 0.0) (constant 2.0))) := by
  have hplain : inverse.PlainBases := ⟨fun _ => rfl, trivial, trivial⟩
  obtain ⟨hread, -, hrestored⟩ := ofText_text_signed inverse signable_inverse
  refine ⟨signable_inverse, by decide +kernel, hplain, ?_⟩
  rw [(hread inverse.heard).mpr ⟨rfl, by decide, by decide⟩, hrestored.mpr hplain]
  rfl

/-- A negative constant as a base. -/
def square : Expr := binary .power (constant (-2.0)) (constant 2.0)

theorem signable_square : square.Signable := by
  have hfinite : (-2.0 : Float).isFinite := by decide
  have hfinite' : (2.0 : Float).isFinite := by decide
  exact ⟨hfinite, hfinite'⟩

/-- The square of a negative number is read back as the opposite of a square. -/
theorem ofText_text_square :
    square.Signable ∧ square.text = "(-2.0^2.0)" ∧
      square.restored =
        binary .power (binary .difference (constant 0.0) (constant 2.0)) (constant 2.0) ∧
      ofText square.text =
        .ok (binary .difference (constant 0.0) (binary .power (constant 2.0) (constant 2.0))) ∧
      ofText square.text ≠ .ok square.restored := by
  have hread : ofText square.text =
      .ok (binary .difference (constant 0.0) (binary .power (constant 2.0) (constant 2.0))) :=
    ofText_text_heard signable_square ⟨by decide, by decide⟩
  have hrestored : square.restored =
      binary .power (binary .difference (constant 0.0) (constant 2.0)) (constant 2.0) := rfl
  refine ⟨signable_square, by decide +kernel, hrestored, hread, ?_⟩
  rw [hread, hrestored]
  simp

end Expr
end Formula
