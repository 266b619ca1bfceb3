import Formula.Proofs.Expr.Rereading
import Formula.Proofs.Phrase.DoubleStar
import Formula.Proofs.Token.Spacing

/-!
Two stars in a text. With nothing between them they fail to be a token, with blanks between them
they are two tokens that are refused; either way the message is the same, wherever in an unfinished
or finished formula they stand and whatever is behind them. The message is given for nothing else.
-/

namespace Formula

theorem star_spells {rest : List Char} (h : rest.head? ≠ some '*') :
    Token.star.Spells ['*'] rest := ⟨rfl, .inl ⟨rfl, h⟩⟩

namespace Scanner
variable {s : Scanner} {items : List (Except ParseError Token)}

theorem tokens_eq_cons {t : Token} (h : s.tokens = .ok t :: items) :
    ∃ blanks us rest p, s.rest = blanks ++ (us ++ rest) ∧ (∀ b ∈ blanks, isBlank b) ∧
      t.Spells us rest ∧ tokens ⟨rest, p⟩ = items := by
  obtain ⟨blanks, us, rest, u, hrest, hblank, hspells, hnext⟩ | ⟨_, _, _, x, -, -, -, -, hnext⟩ |
    ⟨-, hnext⟩ := s.next_cases
  · rw [tokens_some hnext] at h
    obtain ⟨hu, hitems⟩ := List.cons.inj h
    obtain rfl := Except.ok.inj hu
    exact ⟨blanks, us, rest, _, hrest, hblank, hspells, hitems⟩
  · rw [tokens_error hnext] at h
    exact absurd (List.cons.inj h).1 nofun
  · rw [tokens_none hnext] at h
    contradiction

theorem tokens_eq_cons_error {x : ParseError} (h : s.tokens = .error x :: items) :
    ∃ blanks cs, s.rest = blanks ++ cs ∧ x.Fits cs := by
  obtain ⟨_, us, rest, u, -, -, -, hnext⟩ | ⟨blanks, c, rest, y, hrest, -, -, hfits, hnext⟩ |
    ⟨-, hnext⟩ := s.next_cases
  · rw [tokens_some hnext] at h
    exact absurd (List.cons.inj h).1 nofun
  · rw [tokens_error hnext] at h
    obtain rfl := Except.error.inj (List.cons.inj h).1
    exact ⟨blanks, c :: rest, hrest, hfits⟩
  · rw [tokens_none hnext] at h
    contradiction

theorem fits_of_tokens {ts : List Token} {x : ParseError}
    (h : s.tokens = ts.map .ok ++ .error x :: items) :
    ∃ front cs, s.rest = front ++ cs ∧ x.Fits cs := by
  induction ts generalizing s with
  | nil => exact tokens_eq_cons_error h
  | cons t ts ih =>
      obtain ⟨blanks, us, rest, p, hrest, -, -, htokens⟩ := tokens_eq_cons h
      obtain ⟨front, cs, hsplit, hfits⟩ := ih htokens
      obtain rfl : rest = front ++ cs := hsplit
      exact ⟨blanks ++ (us ++ front), cs, by simp [hrest], hfits⟩

/-- Two stars among the tokens are two stars in the text. -/
theorem stars_of_tokens {ts : List Token}
    (h : s.tokens = ts.map .ok ++ .ok .star :: .ok .star :: items) :
    ∃ front w back, s.rest = front ++ '*' :: (w ++ '*' :: back) ∧ ∀ c ∈ w, isBlank c := by
  induction ts generalizing s with
  | nil =>
      obtain ⟨blanks, us, rest, p, hrest, -, ⟨rfl, -⟩, htokens⟩ := tokens_eq_cons h
      obtain ⟨w, us, back, q, hback, hw, ⟨rfl, -⟩, -⟩ := tokens_eq_cons htokens
      obtain rfl : rest = w ++ (['*'] ++ back) := hback
      exact ⟨blanks, w, back, hrest, hw⟩
  | cons t ts ih =>
      obtain ⟨blanks, us, rest, p, hrest, -, -, htokens⟩ := tokens_eq_cons h
      obtain ⟨front, w, back, hsplit, hw⟩ := ih htokens
      obtain rfl : rest = front ++ '*' :: (w ++ '*' :: back) := hsplit
      exact ⟨blanks ++ (us ++ front), w, back, by simp [hrest], hw⟩

/-- Behind blanks a star is a token, unless another one follows at once. -/
theorem tokens_star {blanks : List Char} (hblank : ∀ b ∈ blanks, isBlank b) (cs : List Char)
    (p : Nat) :
    (∃ q, tokens ⟨blanks ++ '*' :: cs, p⟩ = .ok .star :: tokens ⟨cs, q⟩) ∨
      tokens ⟨blanks ++ '*' :: cs, p⟩ = [.error .doubleStar] := by
  by_cases hstar : cs.head? = some '*'
  · obtain ⟨cs, rfl⟩ := List.head?_eq_some_iff.mp hstar
    have hfits : ParseError.doubleStar.Fits ('*' :: '*' :: cs) := ⟨cs, rfl⟩
    obtain ⟨t, hnext⟩ := next_fits hblank (by decide) hfits p
    exact .inr (tokens_error hnext)
  · exact .inl ⟨_, tokens_spells hblank (star_spells hstar) p⟩

/-- What becomes of two stars behind a text in which nothing fails. -/
theorem tokens_append_stars {ts : List Token} (h : s.tokens = ts.map .ok) {w : List Char}
    (hw : ∀ c ∈ w, isBlank c) (b : List Char) (p : Nat) :
    (∃ items, tokens ⟨s.rest ++ '*' :: (w ++ '*' :: b), p⟩ =
        (ts ++ [Token.star, .star]).map .ok ++ items) ∨
      ∃ us, us <+: ts ++ [.star, .star] ∧
        tokens ⟨s.rest ++ '*' :: (w ++ '*' :: b), p⟩ = us.map .ok ++ [.error .doubleStar] := by
  have hnone : ∀ b ∈ ([] : List Char), isBlank b := nofun
  obtain ⟨q, htokens⟩ | ⟨-, us, hus, htokens⟩ :=
    tokens_append_cons (c := '*') h (by decide) (w ++ '*' :: b) p
  · obtain ⟨q', hfirst⟩ | hfirst := tokens_star hnone (w ++ '*' :: b) q
    · rw [List.nil_append] at hfirst
      rw [htokens, hfirst]
      obtain ⟨q'', hsecond⟩ | hsecond := tokens_star hw b q'
      · exact .inl ⟨tokens ⟨b, q''⟩, by rw [hsecond]; simp⟩
      · exact .inr ⟨ts ++ [.star], ⟨[.star], by simp⟩, by rw [hsecond]; simp⟩
    · rw [htokens]
      exact .inr ⟨ts, List.prefix_append _ _, congrArg (ts.map .ok ++ ·) hfirst⟩
  · exact .inr ⟨us, hus.trans (List.prefix_append _ _), htokens⟩

end Scanner

namespace Expr

/-- A failure of the scanner is reported, or else the tokens before it decide. -/
theorem ofText_of_tokens_error {text : String} {ts : List Token} {x : ParseError}
    {more : List (Except ParseError Token)}
    (h : (Scanner.ofText text).tokens = ts.map .ok ++ .error x :: more) :
    ofText text = .error x ∨ ofText text = reading ts ∧
      Phrase.whole.pulls (ts.map (Except.ok : Token → Except ParseError Token)) ≤ ts.length := by
  rw [ofText_eq, h]
  obtain hlt | hle := Nat.lt_or_ge ts.length
    (Phrase.whole.pulls (ts.map (Except.ok : Token → Except ParseError Token)))
  · exact .inl (Reader.run_append_error_of_lt_pulls hlt)
  · exact .inr ⟨Reader.run_append_of_pulls_le (by simpa using hle) _, hle⟩

/-- Nothing is wrong with a text, though more of it may be missing. -/
def Promising (text : String) : Prop :=
  ∀ x, ofText text = .error x → x = .emptyInput ∨ x = .unexpectedEnd

theorem viable_of_promising {text : String} (h : Promising text) :
    ∃ ts, (Scanner.ofText text).tokens = ts.map .ok ∧ (∀ t ∈ ts, t.Ordinary) ∧ Viable ts := by
  obtain ⟨ts, htokens⟩ := exists_map_ok_append (Scanner.ofText text).tokens
  have hts : ∀ t ∈ ts, t.Ordinary := fun t ht => by
    have hmem : .ok t ∈ (Scanner.ofText text).tokens := by
      obtain htokens | ⟨x, more, htokens⟩ := htokens <;> simp [htokens, ht]
    exact (Scanner.spelled_of_mem_tokens hmem).ordinary
  obtain htokens | ⟨x, more, htokens⟩ := htokens
  · refine ⟨ts, htokens, hts, fun x hx => h x ?_⟩
    rwa [ofText_eq, htokens]
  · obtain hx | ⟨hread, hle⟩ := ofText_of_tokens_error htokens
    · obtain ⟨_, cs, -, hfits⟩ := Scanner.fits_of_tokens htokens
      obtain rfl | rfl := h x hx <;> exact absurd hfits id
    · rw [Promising, hread] at h
      exact absurd (length_lt_pulls_of_viable hts h) (Nat.not_lt.mpr hle)

theorem ofText_stars {a b : List Char} (h : Promising (String.ofList a)) {w : List Char}
    (hw : ∀ c ∈ w, isBlank c) :
    ofText (String.ofList (a ++ '*' :: (w ++ '*' :: b))) = .error .doubleStar := by
  obtain ⟨ts, htokens, hts, hviable⟩ := viable_of_promising h
  rw [ofText_eq]
  obtain ⟨items, hitems⟩ | ⟨us, hus, hitems⟩ := Scanner.tokens_append_stars htokens hw b 0
  · rw [Scanner.ofText, String.toList_ofList] at hitems ⊢
    rw [hitems]
    exact run_append_stars hts hviable items
  · rw [Scanner.ofText, String.toList_ofList] at hitems ⊢
    rw [hitems]
    exact run_before_stars hts hviable hus []

theorem stars_of_ofText {text : String} (h : ofText text = .error .doubleStar) :
    ∃ front w back, text.toList = front ++ '*' :: (w ++ '*' :: back) ∧ ∀ c ∈ w, isBlank c := by
  obtain ⟨ts, htokens⟩ := exists_map_ok_append (Scanner.ofText text).tokens
  -- where the tokens alone are answered so, there are two stars among them
  have hread (more : List (Except ParseError Token)) (hreading : reading ts = .error .doubleStar)
      (htokens : (Scanner.ofText text).tokens = ts.map .ok ++ more) :
      ∃ front w back, text.toList = front ++ '*' :: (w ++ '*' :: back) ∧ ∀ c ∈ w, isBlank c := by
    obtain ⟨before, after, rfl⟩ := stars_of_reading hreading
    have hstars : (Scanner.ofText text).tokens =
        before.map .ok ++ .ok .star :: .ok .star :: (after.map .ok ++ more) := by
      simpa using htokens
    exact Scanner.stars_of_tokens hstars
  obtain htokens | ⟨x, more, htokens⟩ := htokens
  · rw [ofText_eq, htokens] at h
    exact hread [] h (by simpa using htokens)
  · obtain hx | ⟨hreading, -⟩ := ofText_of_tokens_error htokens
    · obtain rfl := Except.error.inj (h.symm.trans hx)
      obtain ⟨front, _, hsplit, back, rfl⟩ := Scanner.fits_of_tokens htokens
      exact ⟨front, [], back, hsplit, nofun⟩
    · exact hread _ (hreading.symm.trans h) htokens

/-- Two stars behind a text that is a formula or may become one are reported with or without blanks
between them, and whatever is behind them. Nothing else is reported so. -/
theorem ofText_doubleStar :
    (∀ a b : String, Promising a →
      ofText (a ++ "**" ++ b) = .error .doubleStar ∧
        ∀ w : String, (∀ c ∈ w.toList, isBlank c) →
          ofText (a ++ "*" ++ w ++ "*" ++ b) = .error .doubleStar) ∧
    ∀ text, ofText text = .error .doubleStar →
      ∃ front w back : String, text = front ++ "*" ++ w ++ "*" ++ back ∧
        ∀ c ∈ w.toList, isBlank c := by
  refine ⟨fun a b h => ?_, fun text h => ?_⟩
  · have hofList : Promising (String.ofList a.toList) := by rwa [String.ofList_toList]
    refine ⟨?_, fun w hw => ?_⟩
    · have htext : a ++ "**" ++ b = String.ofList (a.toList ++ '*' :: ([] ++ '*' :: b.toList)) :=
        String.toList_inj.mp (by simp)
      exact (congrArg ofText htext).trans (ofText_stars hofList nofun)
    · have htext : a ++ "*" ++ w ++ "*" ++ b =
          String.ofList (a.toList ++ '*' :: (w.toList ++ '*' :: b.toList)) :=
        String.toList_inj.mp (by simp)
      exact (congrArg ofText htext).trans (ofText_stars hofList hw)
  · obtain ⟨front, w, back, htext, hw⟩ := stars_of_ofText h
    refine ⟨String.ofList front, String.ofList w, String.ofList back, ?_, by simpa using hw⟩
    exact String.toList_inj.mp (by simp [htext])

/-- Behind a power that lacks its exponent, in a group that is open, with a mistake to come. -/
theorem ofText_doubleStar_open :
    Promising "(x^-" ∧ ofText ("(x^-" ++ "**" ++ "$") = .error .doubleStar ∧
      ofText ("(x^-" ++ "*" ++ " \t" ++ "*" ++ "$") = .error .doubleStar ∧
      ∃ front w back : String, "x * * y" = front ++ "*" ++ w ++ "*" ++ back ∧
        ∀ c ∈ w.toList, isBlank c := by
  obtain ⟨hend, hstars⟩ : ofText "(x^-" = .error .unexpectedEnd ∧
      ofText "x * * y" = .error .doubleStar := ⟨by cbv, by cbv⟩
  have hopen : Promising "(x^-" := fun x hx =>
    .inr (Except.error.inj (hx.symm.trans hend))
  obtain ⟨htight, hspaced⟩ := ofText_doubleStar.1 "(x^-" "$" hopen
  exact ⟨hopen, htight, hspaced " \t" (List.all_eq_true.mp rfl), ofText_doubleStar.2 _ hstars⟩

end Expr
end Formula
