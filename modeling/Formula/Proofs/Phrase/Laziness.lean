import Formula.Proofs.Phrase.Viability
import Formula.Proofs.Token.Pulls

/-!
How far the reading of a formula goes. It takes no more of a source than it needs to decide, so
what stands behind the last request does not count, not even a failure. Only a formula is read to
the end, since any token behind it would be refused.
-/

namespace Formula
open TokenSource Phrase

theorem exists_map_ok_append (items : List (Except ParseError Token)) :
    ∃ ts : List Token, items = ts.map .ok ∨
      ∃ x more, items = ts.map .ok ++ .error x :: more := by
  induction items with
  | nil => exact ⟨[], .inl rfl⟩
  | cons item items ih =>
      cases item with
      | error x => exact ⟨[], .inr ⟨x, items, rfl⟩⟩
      | ok t =>
          obtain ⟨ts, rfl | ⟨x, more, rfl⟩⟩ := ih
          · exact ⟨t :: ts, .inl rfl⟩
          · exact ⟨t :: ts, .inr ⟨x, more, rfl⟩⟩

theorem exists_map_ok {items : List (Except ParseError Token)}
    (h : ∀ (i : Nat) (x : ParseError), items[i]? ≠ some (.error x)) :
    ∃ ts : List Token, items = ts.map .ok := by
  obtain ⟨ts, hts | ⟨x, more, rfl⟩⟩ := exists_map_ok_append items
  · exact ⟨ts, hts⟩
  · exact absurd (by simp) (h ts.length x)

/-- A formula is refused with a parenthesis behind it. -/
theorem reading_append_closeParen {ts : List Token} {e : Expr} (h : reading ts = .ok e) :
    reading (ts ++ [.closeParen]) = .error (.unexpectedToken (Token.closeParen).text) := by
  rw [reading_eq_run] at h ⊢
  obtain ⟨s, hfold, hfinish⟩ := ok_of_bind_ok h
  rw [Stage.run_append, hfold]
  refine Stage.run_cons_of_error ?_ []
  cases s with
  | holding v fs n =>
      obtain ⟨⟨a, m, fs'⟩, hunwind, hfinish⟩ := ok_of_bind_ok hfinish
      rw [Stage.step, hunwind]
      cases fs' with
      | nil => rfl
      | cons f fs' => contradiction
  | outset | awaiting _ _ | stray => contradiction

/-- A formula is read up to the end of its source. -/
theorem length_lt_pulls {items : List (Except ParseError Token)} {e : Expr}
    (h : (whole.run items).1 = .ok e) : items.length < whole.pulls items := by
  refine Nat.lt_of_not_le fun hle => ?_
  have hitems (i : Nat) (x : ParseError) :
      (items.take (whole.pulls items))[i]? ≠ some (.error x) := by
    intro hi
    rw [List.getElem?_take] at hi
    split at hi
    · next hlt => simp [(Reader.run_of_error_item hi hlt).2] at h
    · contradiction
  obtain ⟨ts, hts⟩ := exists_map_ok hitems
  obtain ⟨hrun, hpulls⟩ := Reader.run_of_take_isPrefix hle (List.prefix_refl _)
  have hlength : whole.pulls (items.take (whole.pulls items)) ≤
      (items.take (whole.pulls items)).length := by
    rw [hpulls, List.length_take]
    omega
  have hmore := Reader.run_append_of_pulls_le hlength [.ok .closeParen]
  rw [hrun, h, hts] at hmore
  rw [h, hts] at hrun
  have hrefused : reading (ts ++ [.closeParen]) = _ := reading_append_closeParen hrun
  rw [reading, List.map_append] at hrefused
  have hboth := hmore.symm.trans hrefused
  contradiction

section Text
variable {s : Scanner}

/-- A text is read the same wherever it stands. -/
theorem run_rest (r : Reader Expr) (s : Scanner) :
    (r.run s).1 = (r.run (Scanner.ofText (String.ofList s.rest))).1 := by
  have hanswers := Scanner.answers_place (r.pulls (Scanner.ofText (String.ofList s.rest))) s.rest
    s.position 0
  refine (r.run_congr ?_).1
  simpa [Scanner.ofText] using hanswers

theorem after_ofText (text : String) (n : Nat) :
    ∃ front, text = front ++ String.ofList (after n (Scanner.ofText text)).rest ∧
      (after n (Scanner.ofText text)).position = front.utf8ByteSize := by
  obtain ⟨us, hrest, hposition⟩ := Scanner.after_passes n (Scanner.ofText text)
  refine ⟨String.ofList us, ?_, ?_⟩
  · rw [← String.ofList_append, ← hrest]
    exact String.ofList_toList.symm
  · rw [utf8ByteSize_ofList, hposition]
    exact Nat.zero_add _

/-- Behind a formula the scanner stands at the end of the text. -/
theorem position_after_pulls {text front : String} {e : Expr}
    (htext : text = front ++ String.ofList s.rest) (hposition : s.position = front.utf8ByteSize)
    (h : (whole.run s).1 = .ok e) :
    (after (whole.pulls s) s).position = text.utf8ByteSize := by
  have hpulls : s.tokens.length < whole.pulls s := by
    rw [← (whole.run_congr (Scanner.answers_tokens _ s)).2]
    exact length_lt_pulls (Reader.run_tokens whole s ▸ h)
  obtain ⟨us, hrest, hafter⟩ := Scanner.after_passes (whole.pulls s) s
  rw [Scanner.rest_after _ s hpulls, List.append_nil] at hrest
  rw [hafter, hposition, htext, String.utf8ByteSize_append, utf8ByteSize_ofList, hrest]

end Text

theorem ofTokens_lazy :
    (∀ items items' : List (Except ParseError Token), whole.pulls items ≤ items.length →
      items.take (whole.pulls items) <+: items' →
        (Expr.ofTokens items').1 = (Expr.ofTokens items).1 ∧
          whole.pulls items' = whole.pulls items) ∧
    (∀ (items : List (Except ParseError Token)) (i : Nat) (x : ParseError),
      items[i]? = some (.error x) → i < whole.pulls items →
        whole.pulls items = i + 1 ∧ (Expr.ofTokens items).1 = .error x) ∧
    (∀ (ts : List Token) (x : ParseError) (rest : List (Except ParseError Token)),
      (Expr.ofTokens (ts.map Except.ok ++ .error x :: rest)).1 =
        if ts.length < whole.pulls (ts.map Except.ok : List (Except ParseError Token)) then
          .error x
        else (Expr.ofTokens (ts.map Except.ok : List (Except ParseError Token))).1) ∧
    ∀ (text : String) (n : Nat) (s : Scanner), s = after n (Scanner.ofText text) →
      (∃ front back, text = front ++ back ∧ s.position = front.utf8ByteSize ∧
        (Expr.ofTokens s).1 = Expr.ofText back) ∧
      (Expr.ofTokens s).1 = (Expr.ofTokens s.tokens).1 ∧
      (Expr.ofTokens s).2 = after (whole.pulls s) s ∧
      ∀ e, (Expr.ofTokens s).1 = .ok e → (Expr.ofTokens s).2.position = text.utf8ByteSize := by
  refine ⟨fun _ _ => Reader.run_of_take_isPrefix, fun _ _ _ => Reader.run_of_error_item, ?_, ?_⟩
  · intro ts x rest
    split
    · next hlt => exact Reader.run_append_error_of_lt_pulls hlt
    · next hle => exact Reader.run_append_of_pulls_le (by simpa using hle) _
  · rintro text n s rfl
    obtain ⟨front, htext, hposition⟩ := after_ofText text n
    refine ⟨⟨front, _, htext, hposition, run_rest whole _⟩, Reader.run_tokens whole _,
      whole.run_snd _, fun e h => ?_⟩
    rw [Expr.ofTokens, whole.run_snd]
    exact position_after_pulls htext hposition h

/-- A parenthesis where none is open is refused before anything behind it is heard. -/
theorem ofTokens_lazy_misplaced :
    (Expr.ofTokens ([.ok (.name (.var "x")), .ok .closeParen, .error .decimalComma] :
        List (Except ParseError Token))).1 = .error (.unexpectedToken ")") ∧
      whole.pulls ([.ok (.name (.var "x")), .ok .closeParen, .error .decimalComma] :
        List (Except ParseError Token)) = 2 ∧
      (Expr.ofTokens ([.ok (.name (.var "x")), .error .decimalComma, .ok .closeParen] :
        List (Except ParseError Token))).1 = .error .decimalComma := by
  have hanswer : (Expr.ofTokens ([.ok (.name (.var "x")), .ok .closeParen] :
      List (Except ParseError Token))).1 = .error (.unexpectedToken ")") := rfl
  have hpulls : whole.pulls ([.ok (.name (.var "x")), .ok .closeParen] :
      List (Except ParseError Token)) = 2 := rfl
  obtain ⟨h, h'⟩ := ofTokens_lazy.1 [.ok (.name (.var "x")), .ok .closeParen]
    [.ok (.name (.var "x")), .ok .closeParen, .error .decimalComma] (Nat.le_of_eq hpulls)
    ⟨[.error .decimalComma], rfl⟩
  exact ⟨h.trans hanswer, h'.trans hpulls,
    (ofTokens_lazy.2.1 [.ok (.name (.var "x")), .error .decimalComma, .ok .closeParen] 1 _ rfl
      (by decide)).2⟩

end Formula
