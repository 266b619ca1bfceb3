import Formula.Proofs.Expr.Rereading
import Formula.Proofs.Phrase.Juxtaposition

/-!
Texts in which a group stands right behind a name, a literal or a group. A text that is read on its
own has the same tokens in parentheses, so such a text is refused with the message about the value
and the group, whatever the rest of it is.
-/

namespace Formula

namespace Scanner

/-- A text in which nothing fails has the same tokens before a closing parenthesis. -/
theorem tokens_append_closeParen {s : Scanner} {ts : List Token} (h : s.tokens = ts.map .ok)
    (r : List Char) (p : Nat) :
    ∃ q, tokens ⟨s.rest ++ ')' :: r, p⟩ =
      (ts ++ [Token.closeParen]).map .ok ++ tokens ⟨r, q⟩ := by
  have hclose : (Token.closeParen).Spells [')'] r := rfl
  obtain ⟨q, htokens⟩ | ⟨hstar, -⟩ := tokens_append_cons (c := ')') h (by decide) r p
  · refine ⟨q + width [')'], ?_⟩
    rw [htokens, List.map_append, List.append_assoc]
    exact congrArg (ts.map .ok ++ ·) (tokens_spells_first hclose q)
  · contradiction

end Scanner

/-- The text `c` is a literal: digits, which a point and more digits may follow. They denote the
double `x`. -/
def Literal (c : String) (x : Float) : Prop :=
  ∃ whole fraction, Decimal.Denotes whole fraction x ∧ Digits whole ∧
    (c.toList = whole ++ '.' :: fraction ∧ Digits fraction ∨ c.toList = whole ∧ fraction = [])

namespace Expr

/-- Nothing of a parenthesis carries a literal on. -/
theorem literal_spells {c : String} {x : Float} (h : Literal c x) (rest : List Char) :
    (Token.number (constant x)).Spells c.toList ('(' :: rest) := by
  obtain ⟨whole, fraction, hx, hwhole, hform⟩ := h
  refine ⟨whole, fraction, x, rfl, hx, hwhole, by simp [Char.isDigit], hform.imp_right fun hlast =>
    ⟨hlast.1, hlast.2, ?_⟩⟩
  intro mark d after heq hmark
  obtain ⟨rfl, -⟩ : '(' = mark ∧ _ := by simpa using heq
  simp at hmark

/-- Wherever a group follows, the text `front` is scanned as the tokens `vs`. -/
def Leads (front : String) (vs : List Token) : Prop :=
  ∀ rest p, ∃ q, Scanner.tokens ⟨front.toList ++ '(' :: rest, p⟩ =
    vs.map .ok ++ Scanner.tokens ⟨'(' :: rest, q⟩

/-- The text has the tokens `ts`, a sum that means `e` and may stand in a group. -/
structure Groups (g : String) (ts : List Token) (e : Expr) : Prop where
  tokens : (Scanner.ofText g).tokens = ts.map .ok
  derives : ∃ d, d < maxNesting ∧ Derives .sum ts e d e.operations

theorem tokens_group {g : String} {ts : List Token} (h : (Scanner.ofText g).tokens = ts.map .ok)
    (r : List Char) (p : Nat) :
    ∃ q, Scanner.tokens ⟨'(' :: (g.toList ++ ')' :: r), p⟩ =
      (Token.openParen :: (ts ++ [.closeParen])).map .ok ++ Scanner.tokens ⟨r, q⟩ := by
  have hopen : (Token.openParen).Spells ['('] (g.toList ++ ')' :: r) := rfl
  obtain ⟨q, hq⟩ := Scanner.tokens_append_closeParen h r (p + width ['('])
  refine ⟨q, (Scanner.tokens_spells_first hopen p).trans ?_⟩
  exact congrArg (.ok Token.openParen :: ·) hq

/-- A text that is read with parentheses around it and without them may stand in a group. -/
theorem groups_of_ofText {g : String} {e e' : Expr} (h : ofText g = .ok e)
    (h' : ofText ("(" ++ g ++ ")") = .ok e') : ∃ ts, Groups g ts e := by
  obtain ⟨ts, d, k, htokens, hderives, hspelled, -⟩ := derives_of_ofText h
  have hoperations : e.operations = k := by
    simpa [Category.operations] using (hderives.typeable hspelled trivial).2
  subst hoperations
  refine ⟨ts, htokens, d, Nat.lt_of_not_le fun hdeep => ?_, hderives⟩
  obtain ⟨q, hgroup⟩ := tokens_group htokens [] 0
  have htext : (Scanner.ofText ("(" ++ g ++ ")")).tokens =
      (Token.openParen :: (ts ++ [.closeParen])).map .ok := by
    simpa [Scanner.ofText, Scanner.tokens_nil] using hgroup
  -- the group is one power phrase more around the sum
  obtain hx | hx := (Derives.group hderives).sum_of_value.feed_whole_error (.inl (by omega))
  all_goals
    rw [ofText_of_tokens htext, hx] at h'
    contradiction

theorem leads_name {name : String} (hne : name ≠ "") (halpha : ∀ c ∈ name.toList, c.isAlpha) :
    Leads name [.name (var name)] := by
  intro rest p
  have hspells : (Token.name (var name)).Spells name.toList ('(' :: rest) :=
    ⟨by rw [String.ofList_toList], by simpa using hne, halpha,
      by simp [Char.isAlpha, Char.isUpper, Char.isLower]⟩
  exact ⟨_, Scanner.tokens_spells_first hspells p⟩

theorem leads_literal {c : String} {x : Float} (h : Literal c x) :
    Leads c [.number (constant x)] :=
  fun rest p => ⟨_, Scanner.tokens_spells_first (literal_spells h rest) p⟩

theorem leads_group {f : String} {ts : List Token} {u : Expr} (h : Groups f ts u) :
    Leads ("(" ++ f ++ ")") (.openParen :: (ts ++ [.closeParen])) := by
  intro rest p
  simpa using tokens_group h.tokens ('(' :: rest) p

/-- A group behind a value is answered with the message about both, whatever the rest is. -/
theorem ofText_slip {front g : String} {v : Operand} {vs ts : List Token} {e : Expr} {d k : Nat}
    (hfront : Leads front vs) (hv : v.Written vs d k) (hd : d < maxNesting) (h : Groups g ts e)
    (hk : k + e.operations ≤ maxOperations) (r : String) :
    ofText (front ++ "(" ++ g ++ ")" ++ r) = .error (v.slip e) := by
  obtain ⟨htokens, d', hd', hderives⟩ := h
  obtain ⟨q, hvalue⟩ := hfront (g.toList ++ ')' :: r.toList) 0
  obtain ⟨q', hgroup⟩ := tokens_group htokens r.toList q
  have hscan : (Scanner.ofText (front ++ "(" ++ g ++ ")" ++ r)).tokens =
      (vs ++ Token.openParen :: (ts ++ [.closeParen])).map .ok ++
        Scanner.tokens ⟨r.toList, q'⟩ := by
    rw [hgroup, ← List.append_assoc, ← List.map_append] at hvalue
    simpa [Scanner.ofText] using hvalue
  rw [ofText_eq, hscan]
  exact Phrase.run_whole_slip hv hd hderives hd' hk _

/-- Where a value stands before a text that may be put in parentheses, the message names both,
whatever the rest of the text is; and no such message is given for other tokens. -/
theorem ofText_juxtaposed :
    (∀ (g : String) (e e' : Expr), ofText g = .ok e → ofText ("(" ++ g ++ ")") = .ok e' →
      ∀ r : String,
        (∀ name : String, name ≠ "" → (∀ c ∈ name.toList, c.isAlpha) →
          ofText (name ++ "(" ++ g ++ ")" ++ r) = .error (.functionCall name e.text)) ∧
        (∀ (c : String) (x : Float), Literal c x →
          ofText (c ++ "(" ++ g ++ ")" ++ r) =
            .error (.implicitProduct (constant x).text e.text)) ∧
        ∀ (f : String) (u u' : Expr), ofText f = .ok u → ofText ("(" ++ f ++ ")") = .ok u' →
          u.operations + e.operations ≤ maxOperations →
            ofText ("(" ++ f ++ ")(" ++ g ++ ")" ++ r) =
              .error (.implicitProduct ("(" ++ u.text ++ ")") e.text)) ∧
    ∀ ts : List Token, (∀ t ∈ ts, t.Ordinary) →
      (∀ name argument, reading ts = .error (.functionCall name argument) →
        ∃ node e, node.text = name ∧ e.text = argument ∧ Juxtaposed ts (.name node) e) ∧
      ∀ left right, reading ts = .error (.implicitProduct left right) →
        ∃ v e, e.text = right ∧ Juxtaposed ts v e ∧
          ((∃ node, v = .number node ∧ node.text = left) ∨
            ∃ inner, v = .group inner ∧ "(" ++ inner.text ++ ")" = left) := by
  refine ⟨fun g e e' h h' r => ?_, fun ts hts => ⟨fun name argument hread => ?_,
    fun left right hread => ?_⟩⟩
  · obtain ⟨ts, hg⟩ := groups_of_ofText h h'
    have hk : 0 + e.operations ≤ maxOperations := by
      rw [Nat.zero_add]
      exact (typeable_of_ofText h).2
    refine ⟨fun name hne halpha => ?_, fun c x hc => ?_, fun f u u' hu hu' hk => ?_⟩
    · exact ofText_slip (leads_name hne halpha) .name (by decide) hg hk r
    · exact ofText_slip (leads_literal hc) .number (by decide) hg hk r
    · obtain ⟨ws, hf⟩ := groups_of_ofText hu hu'
      obtain ⟨d, hd, hderives⟩ := hf.derives
      have htext : "(" ++ f ++ ")(" ++ g ++ ")" ++ r = "(" ++ f ++ ")" ++ "(" ++ g ++ ")" ++ r := by
        rw [show ")(" = ")" ++ "(" from rfl]
        simp only [String.append_assoc]
      rw [htext]
      exact ofText_slip (leads_group hf) (.group hderives) hd hg hk r
  · obtain ⟨v, e, hslip, hjuxtaposed⟩ := traced_reading hts hread trivial
    cases v with
    | name node =>
        obtain ⟨rfl, rfl⟩ := ParseError.functionCall.inj hslip
        exact ⟨node, e, rfl, rfl, hjuxtaposed⟩
    | number _ | group _ => contradiction
  · obtain ⟨v, e, hslip, hjuxtaposed⟩ := traced_reading hts hread trivial
    refine ⟨v, e, ?_⟩
    cases v with
    | name _ => contradiction
    | number node =>
        obtain ⟨rfl, rfl⟩ := ParseError.implicitProduct.inj hslip
        exact ⟨rfl, hjuxtaposed, .inl ⟨node, rfl, rfl⟩⟩
    | group inner =>
        obtain ⟨rfl, rfl⟩ := ParseError.implicitProduct.inj hslip
        exact ⟨rfl, hjuxtaposed, .inr ⟨inner, rfl, rfl⟩⟩

/-- A dollar sign begins no token, but where it stands behind the group it is not heard. -/
theorem ofText_juxtaposed_dollar :
    ofText ("sin" ++ "(" ++ "a+b" ++ ")" ++ "$") = .error (.functionCall "sin" "(a + b)") ∧
      ofText ("2" ++ "(" ++ "a+b" ++ ")" ++ "$") = .error (.implicitProduct "2.0" "(a + b)") ∧
      ofText ("(" ++ "x" ++ ")(" ++ "a+b" ++ ")" ++ "$") =
        .error (.implicitProduct "(x)" "(a + b)") ∧
      ∃ node e, node.text = "f" ∧ e.text = "x" ∧
        Juxtaposed [.name (.var "f"), .openParen, .name (.var "x"), .closeParen] (.name node)
          e := by
  obtain ⟨hsum, hgroup, hname, hnamed⟩ :
      ofText "a+b" = .ok (.binary .sum (.var "a") (.var "b")) ∧
        ofText ("(" ++ "a+b" ++ ")") = .ok (.binary .sum (.var "a") (.var "b")) ∧
        ofText "x" = .ok (.var "x") ∧ ofText ("(" ++ "x" ++ ")") = .ok (.var "x") :=
    ⟨by cbv, by cbv, by cbv, by cbv⟩
  obtain ⟨hcall, hproduct, hgroups⟩ := ofText_juxtaposed.1 "a+b" _ _ hsum hgroup "$"
  have htwo : Literal "2" (Decimal.ofDigits ['2'] []).toFloat :=
    ⟨['2'], [], Decimal.denotes_toFloat _ _, ⟨by simp, by simp [Char.isDigit]⟩, .inr ⟨rfl, rfl⟩⟩
  have htext : (constant (Decimal.ofDigits ['2'] []).toFloat).text = "2.0" := by decide +kernel
  refine ⟨hcall "sin" (by decide) (List.all_eq_true.mp rfl), htext ▸ hproduct "2" _ htwo,
    hgroups "x" _ _ hname hnamed (by decide), (ofText_juxtaposed.2 _ ?_).1 "f" "x" ?_⟩
  · simp [Token.Ordinary]
  · rw [reading_eq_run]
    rfl

end Expr
end Formula
