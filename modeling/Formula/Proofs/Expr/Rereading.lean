import Formula.Proofs.Expr.RoundTrip
import Formula.Proofs.Number.Literal
import Formula.Proofs.Phrase.Laziness

/-!
The text of a formula that was read. Whatever a text is read as has names of letters and constants
without a sign, and no more operations than a formula may have; so its own text is read again, or
fails because its parentheses are nested too deeply. The formula is the same unless a literal was
too large for a double: such a constant is shown as `inf`, which is read as a name.
-/

namespace Formula

namespace Expr

/-- A formula that some text is read as, as far as its leaves go. -/
def Typeable : Expr → Prop
  | constant x => x.isNaN = false ∧ Number.isNegative x = false
  | var name => name ≠ "" ∧ ∀ c ∈ name.toList, c.isAlpha
  | binary _ l r => l.Typeable ∧ r.Typeable

/-- All constants are finite. -/
def Finite : Expr → Prop
  | constant x => x.isFinite
  | var _ => True
  | binary _ l r => l.Finite ∧ r.Finite

/-- What the text of a formula is read as. -/
def reread : Expr → Expr
  | constant x => if x.isFinite then constant x else var (Number.pointedText x)
  | var name => var name
  | binary op l r => binary op l.reread r.reread

theorem text_reread (e : Expr) : e.reread.text = e.text := by
  induction e with
  | constant x =>
      rw [reread]
      split <;> rfl
  | var name => rfl
  | binary op l r ihl ihr => simp only [reread, text, ihl, ihr]

theorem operations_reread (e : Expr) : e.reread.operations = e.operations := by
  induction e with
  | constant x =>
      rw [reread]
      split <;> rfl
  | var name => rfl
  | binary op l r ihl ihr => simp only [reread, operations, ihl, ihr]

theorem nesting_reread (e : Expr) : e.reread.nesting = e.nesting := by
  induction e with
  | constant x =>
      rw [reread]
      split <;> rfl
  | var name => rfl
  | binary op l r ihl ihr => cases op <;> simp only [reread, nesting, ihl, ihr]

theorem writable_reread {e : Expr} (h : e.Typeable) : e.reread.Writable := by
  induction e with
  | constant x =>
      rw [reread]
      split
      · next hfinite => exact ⟨hfinite, h.2⟩
      · next hinfinite =>
          rw [Number.pointedText_infinite h.1 h.2 hinfinite]
          exact ⟨by decide, List.all_eq_true.mp rfl⟩
  | var name => exact h
  | binary op l r ihl ihr => exact ⟨ihl h.1, ihr h.2⟩

theorem reread_of_finite {e : Expr} (h : e.Finite) : e.reread = e := by
  induction e with
  | constant x => exact if_pos h
  | var name => rfl
  | binary op l r ihl ihr => rw [reread, ihl h.1, ihr h.2]

theorem beq_of_finite {e : Expr} (h : e.Finite) : (e == e) = true := by
  induction e with
  | constant x => exact Number.beq_self (isNaN_eq_false h)
  | var name => exact beq_self_eq_true name
  | binary op l r ihl ihr =>
      change (op == op && l.beq l && r.beq r) = true
      rw [Bool.and_eq_true, Bool.and_eq_true]
      exact ⟨⟨beq_self_eq_true op, ihl h.1⟩, ihr h.2⟩

/-- An infinite constant is not found again. -/
theorem finite_of_beq_reread {e : Expr} (h : (e.reread == e) = true) : e.Finite := by
  induction e with
  | constant x =>
      rw [reread] at h
      split at h
      · assumption
      · contradiction
  | var name => trivial
  | binary op l r ihl ihr =>
      change (op == op && l.reread.beq l && r.reread.beq r) = true at h
      rw [Bool.and_eq_true, Bool.and_eq_true] at h
      exact ⟨ihl h.1.2, ihr h.2⟩

theorem ordinary_tokens (e : Expr) : ∀ t ∈ e.tokens, t.Ordinary := by
  induction e with
  | constant _ | var _ => simp [tokens, Token.Ordinary]
  | binary op l r ihl ihr =>
      have hop : op.token.Ordinary := by cases op <;> simp [Operator.token, Token.Ordinary]
      intro t ht
      simp only [tokens, List.mem_cons, List.mem_append, List.not_mem_nil, or_false] at ht
      obtain rfl | (ht | rfl | ht) | rfl := ht
      · trivial
      · exact ihl t ht
      · exact hop
      · exact ihr t ht
      · trivial

theorem weight_tokens (e : Expr) : (e.tokens.map Token.weight).sum = e.operations := by
  induction e with
  | constant _ | var _ => rfl
  | binary op l r ihl ihr =>
      have hop : op.token.weight = 1 := by cases op <;> rfl
      have hopen : Token.openParen.weight = 0 := rfl
      have hclose : Token.closeParen.weight = 0 := rfl
      simp only [tokens, operations, List.map_cons, List.map_append, List.sum_cons,
        List.sum_append, List.map_nil, List.sum_nil, ihl, ihr, hop, hopen, hclose]
      omega

theorem ofText_text_of_operations_le {e : Expr} (h : e.Writable)
    (hoperations : e.operations ≤ maxOperations) :
    ofText e.text =
      if e.nesting ≤ maxNesting then .ok e else .error (.tooDeeplyNested maxNesting) := by
  obtain ⟨d, hd, hvalue⟩ := derives_tokens e
  have hsum : Derives .sum e.tokens e e.nesting e.operations := hd ▸ hvalue.sum_of_value
  rw [ofText_text_eq h]
  split
  · next hnesting =>
      rw [hsum.feed_whole.1 ⟨hnesting, hoperations⟩]
      rfl
  · next hdeep =>
      obtain hx | hx := hsum.feed_whole_error (.inl (Nat.lt_of_not_le hdeep))
      · exact hx
      · rw [Phrase.map_feed_whole] at hx
        have hlong := Stage.run_tooLong Stage.sound_outset (ordinary_tokens e) hx
        rw [weight_tokens] at hlong
        have hzero : Stage.outset.burden = 0 := rfl
        omega

/-- The text of a formula that can be typed is read, as far as parentheses go. -/
theorem ofText_text_of_typeable {e : Expr} (h : e.Typeable)
    (hoperations : e.operations ≤ maxOperations) :
    ofText e.text =
      if e.nesting ≤ maxNesting then .ok e.reread else .error (.tooDeeplyNested maxNesting) := by
  have hread := ofText_text_of_operations_le (writable_reread h)
    (e.operations_reread.symm ▸ hoperations)
  rwa [text_reread, nesting_reread] at hread

end Expr

/-- The token stands somewhere in some text. -/
def Token.Spelled (t : Token) : Prop := ∃ us rest, t.Spells us rest

theorem Token.Spelled.ordinary {t : Token} (h : t.Spelled) : t.Ordinary := by
  obtain ⟨us, rest, h⟩ := h
  cases t with
  | sumOp symbol => exact h.2
  | prodOp symbol => exact h.2.imp And.left id
  | _ => trivial

theorem Scanner.spelled_of_mem_tokens {s : Scanner} {t : Token} (h : .ok t ∈ s.tokens) :
    t.Spelled := by
  obtain ⟨blanks, us, rest, u, hrest, hblank, hspells, hnext⟩ | ⟨-, -, -, x, -, -, -, -, hnext⟩ |
    ⟨-, hnext⟩ := s.next_cases
  · rw [tokens_some hnext] at h
    obtain h | h := List.mem_cons.mp h
    · obtain rfl := Except.ok.inj h
      exact ⟨us, rest, hspells⟩
    · exact spelled_of_mem_tokens h
  · rw [tokens_error hnext] at h
    simp at h
  · rw [tokens_none hnext] at h
    contradiction
termination_by s.rest.length
decreasing_by exact length_next_lt hnext

namespace Category

/-- The formula on the left, if there is one, can be typed. -/
def Typeable : Category → Prop
  | sums left | products left => left.Typeable
  | _ => True

/-- The operations in the formula on the left. -/
def operations : Category → Nat
  | sums left | products left => left.operations
  | _ => 0

end Category

theorem Derives.typeable {c : Category} {ts : List Token} {e : Expr} {d k : Nat}
    (h : Derives c ts e d k) (hts : ∀ t ∈ ts, t.Spelled) (hc : c.Typeable) :
    e.Typeable ∧ e.operations = c.operations + k := by
  induction h with
  | sum first more ihfirst ihmore | product first more ihfirst ihmore =>
      obtain ⟨hts, hus⟩ := List.forall_mem_append.mp hts
      obtain ⟨ha, hka⟩ := ihfirst hts trivial
      obtain ⟨he, hke⟩ := ihmore hus ha
      simp only [Category.operations] at hka hke ⊢
      exact ⟨he, by omega⟩
  | sumsDone | productsDone => exact ⟨hc, rfl⟩
  | sumsNext sign next more ihnext ihmore | productsNext sign next more ihnext ihmore =>
      obtain ⟨-, hts⟩ := List.forall_mem_cons.mp hts
      obtain ⟨hts, hus⟩ := List.forall_mem_append.mp hts
      obtain ⟨hb, hkb⟩ := ihnext hts trivial
      obtain ⟨he, hke⟩ := ihmore hus ⟨hc, hb⟩
      simp only [Category.operations, Expr.operations] at hkb hke ⊢
      exact ⟨he, by omega⟩
  | plain operand ih => exact ih hts hc
  | plus operand ih => exact ih (List.forall_mem_cons.mp hts).2 hc
  | minus operand ih =>
      obtain ⟨he, hke⟩ := ih (List.forall_mem_cons.mp hts).2 hc
      have hzero : (Expr.constant 0.0).Typeable := ⟨by decide, by decide⟩
      simp only [Category.operations, Expr.operations] at hke ⊢
      exact ⟨⟨hzero, he⟩, by omega⟩
  | base value ih => exact ih hts hc
  | raised base power ihbase ihpower =>
      obtain ⟨hts, hus⟩ := List.forall_mem_append.mp hts
      obtain ⟨ha, hka⟩ := ihbase hts trivial
      obtain ⟨hb, hkb⟩ := ihpower (List.forall_mem_cons.mp hus).2 trivial
      simp only [Category.operations, Expr.operations] at hka hkb ⊢
      exact ⟨⟨ha, hb⟩, by omega⟩
  | group inner ih =>
      exact ih (List.forall_mem_append.mp (List.forall_mem_cons.mp hts).2).1 trivial
  | name =>
      obtain ⟨us, rest, rfl, hne, hletters, -⟩ := hts _ List.mem_cons_self
      exact ⟨⟨by simpa using hne, by simpa using hletters⟩, rfl⟩
  | number =>
      obtain ⟨us, rest, whole, fraction, x, rfl, hx, -⟩ := hts _ List.mem_cons_self
      exact ⟨⟨hx.rounds.isNaN, hx.unsigned⟩, rfl⟩

namespace Expr

theorem derives_of_ofText {s : String} {e : Expr} (h : ofText s = .ok e) :
    ∃ ts d k, (Scanner.ofText s).tokens = ts.map .ok ∧ Derives .sum ts e d k ∧
      (∀ t ∈ ts, t.Spelled) ∧ k ≤ maxOperations := by
  have hrun : (Phrase.whole.run (Scanner.ofText s).tokens).1 = .ok e :=
    ofText_eq s ▸ h
  -- all tokens are asked for, so none of them has failed
  have hitems (i : Nat) (x : ParseError) : (Scanner.ofText s).tokens[i]? ≠ some (.error x) := by
    intro hi
    have hlt := (List.getElem?_eq_some_iff.mp hi).1
    have hx := (Reader.run_of_error_item hi (Nat.lt_trans hlt (length_lt_pulls hrun))).2
    simp [hx] at hrun
  obtain ⟨ts, hts⟩ := exists_map_ok hitems
  have hspelled : ∀ t ∈ ts, t.Spelled := fun t ht =>
    Scanner.spelled_of_mem_tokens (hts ▸ List.mem_map_of_mem ht)
  rw [hts, Reader.run_map_ok] at hrun
  cases hfeed : Phrase.whole.feed ts with
  | error x => simp [hfeed, Except.map] at hrun
  | ok r =>
      obtain ⟨a, rest⟩ := r
      obtain rfl : a = e := by simpa [hfeed, Except.map] using hrun
      obtain ⟨d, k, hderives, -, hk⟩ :=
        derives_of_feed_whole (fun t ht => (hspelled t ht).ordinary) hfeed
      exact ⟨ts, d, k, hts, hderives, hspelled, hk⟩

theorem typeable_of_ofText {s : String} {e : Expr} (h : ofText s = .ok e) :
    e.Typeable ∧ e.operations ≤ maxOperations := by
  obtain ⟨ts, d, k, -, hderives, hspelled, hk⟩ := derives_of_ofText h
  obtain ⟨he, hoperations⟩ := hderives.typeable hspelled trivial
  simp only [Category.operations] at hoperations
  exact ⟨he, by omega⟩

/-- The same formula is read from the text of a formula that was read. -/
def Stable (e : Expr) : Prop :=
  (∃ u, ofText e.text = .ok u ∧ (u == e) = true ∧ u.outline = e.outline) ∨
    ofText e.text = .error (.tooDeeplyNested maxNesting)

theorem stable_iff_of_typeable {e : Expr} (h : e.Typeable)
    (hoperations : e.operations ≤ maxOperations) :
    e.Stable ↔ e.Finite ∨ maxNesting < e.nesting := by
  rw [Stable, ofText_text_of_typeable h hoperations]
  split
  · next hnesting =>
      constructor
      · rintro (⟨u, hu, hbeq, -⟩ | hdeep)
        · obtain rfl := Except.ok.inj hu
          exact .inl (finite_of_beq_reread hbeq)
        · contradiction
      · rintro (hfinite | hdeep)
        · rw [reread_of_finite hfinite]
          exact .inl ⟨e, rfl, beq_of_finite hfinite, rfl⟩
        · omega
  · next hdeep => exact iff_of_true (.inr rfl) (.inr (Nat.lt_of_not_le hdeep))

theorem ofText_text_of_ofText {s : String} {e : Expr} (h : ofText s = .ok e) :
    (ofText e.text = .ok e.reread ∨ ofText e.text = .error (.tooDeeplyNested maxNesting)) ∧
      (e.Stable ↔ e.Finite ∨ maxNesting < e.nesting) := by
  obtain ⟨he, hoperations⟩ := typeable_of_ofText h
  refine ⟨?_, stable_iff_of_typeable he hoperations⟩
  rw [ofText_text_of_typeable he hoperations]
  split
  · exact .inl rfl
  · exact .inr rfl

theorem finite_tower (n : Nat) : (tower n).Finite := by
  induction n with
  | zero => exact (writable_tower 0).1
  | succ n ih => exact ⟨trivial, ih⟩

theorem ofText_text_of_ofText_tower :
    ofText (tower 31).text = .ok (tower 31) ∧ (tower 31).Stable := by
  have hread : ofText (tower 31).text = .ok (tower 31) := by
    rw [ofText_text_of_operations_le (writable_tower 31), nesting_tower]
    · rfl
    · rw [operations_tower]
      decide
  exact ⟨hread, (ofText_text_of_ofText hread).2.mpr (.inl (finite_tower 31))⟩

theorem ofText_digits {ds : List Char} (h : Digits ds) :
    ofText (String.ofList ds) = .ok (constant (Decimal.ofDigits ds []).toFloat) := by
  have hspells : (Token.number (constant (Decimal.ofDigits ds []).toFloat)).Spells ds [] :=
    ⟨ds, [], _, rfl, Decimal.denotes_toFloat ds [], h, by simp, .inr ⟨rfl, rfl, by simp⟩⟩
  have htokens := Scanner.tokens_spells_first hspells 0
  rw [Scanner.tokens_nil, List.append_nil] at htokens
  rw [ofText_eq, Scanner.ofText, String.toList_ofList, htokens]
  rfl

theorem not_isFinite_toFloat {d : Decimal} (h : d.nearest = infinityCode) :
    ¬ d.toFloat.isFinite := by
  intro hfinite
  have hcode := Number.code_lt hfinite
  rw [Number.code_eq d.isNegative_toFloat, d.toNat_toBits_toFloat, h] at hcode
  exact Nat.lt_irrefl _ hcode

/-- One and 309 zeros are too large for a double. -/
theorem ofText_overflow :
    ∃ e, ofText (String.ofList ('1' :: List.replicate 309 '0')) = .ok e ∧ ¬ e.Stable := by
  have hdigits : Digits ('1' :: List.replicate 309 '0') :=
    Token.digits_cons rfl fun c hc => List.eq_of_mem_replicate hc ▸ rfl
  have hnearest : (Decimal.ofDigits ('1' :: List.replicate 309 '0') []).nearest = infinityCode := by
    decide +kernel
  have hread := ofText_digits hdigits
  obtain ⟨he, hoperations⟩ := typeable_of_ofText hread
  refine ⟨_, hread, fun hstable => ?_⟩
  obtain hfinite | hdeep := (stable_iff_of_typeable he hoperations).mp hstable
  · exact not_isFinite_toFloat hnearest hfinite
  · exact absurd hdeep (by decide)

end Expr
end Formula
