import Formula.Proofs.Expr.RoundTrip
import Formula.Proofs.Token.Spacing

/-!
Tokens written out with blanks between them. The text of a token ends where a blank follows, and so
a scan gives the tokens back, each where it was written.
-/

namespace Formula

/-- A token that has a text to be scanned from: a sign of its own level, a name made of letters, or
a finite number without a sign. -/
def Token.Writable : Token → Prop
  | name node => (∃ x, node = .var x) ∧ node.Writable
  | number node => (∃ x, node = .constant x) ∧ node.Writable
  | t => t.Ordinary

/-- The tokens written out, each behind its own blanks, and blanks at the end. -/
def spread : List (String × Token) → String → String
  | [], blanks => blanks
  | (gap, t) :: ts, blanks => gap ++ (t.text ++ spread ts blanks)

/-- The tokens in their places, if the first blanks stand at `p`. -/
def spreadLexemes : Nat → List (String × Token) → List Lexeme
  | _, [] => []
  | p, (gap, t) :: ts =>
    { token := t, position := p + gap.utf8ByteSize } ::
      spreadLexemes (p + gap.utf8ByteSize + t.text.utf8ByteSize) ts

theorem map_token_spreadLexemes (p : Nat) (ts : List (String × Token)) :
    (spreadLexemes p ts).map Lexeme.token = ts.map Prod.snd := by
  induction ts generalizing p with
  | nil => rfl
  | cons first ts ih => rw [spreadLexemes, List.map_cons, List.map_cons, ih]

theorem Apart.of_isBlank {rest : List Char} (h : ∀ c ∈ rest.head?, isBlank c) : Apart rest :=
  fun c hc => not_digit_alpha_of_isBlank (h c hc)

theorem Token.Writable.spells {t : Token} (ht : t.Writable) {rest : List Char}
    (hrest : ∀ c ∈ rest.head?, isBlank c) : t.Spells t.text.toList rest := by
  cases t with
  | openParen | closeParen | powOp => rfl
  | sumOp symbol => exact ⟨String.toList_singleton symbol, ht⟩
  | prodOp symbol =>
      refine ⟨String.toList_singleton symbol, ht.imp_left fun hstar => ⟨hstar, ?_⟩⟩
      intro hhead
      exact absurd (hrest _ hhead) (by decide)
  | name node =>
      obtain ⟨⟨x, rfl⟩, hx⟩ := ht
      exact Expr.name_spells hx (.of_isBlank hrest)
  | number node =>
      obtain ⟨⟨x, rfl⟩, hx⟩ := ht
      exact Expr.number_spells hx (.of_isBlank hrest)

section Spread
variable {ts : List (String × Token)} {blanks : String}

theorem head_spread_isBlank (hts : ∀ r ∈ ts, ∀ c ∈ r.1.toList, isBlank c)
    (hgaps : ∀ r ∈ ts, r.1 ≠ "") (hblanks : ∀ c ∈ blanks.toList, isBlank c) :
    ∀ c ∈ (spread ts blanks).toList.head?, isBlank c := by
  intro c hc
  cases ts with
  | nil => exact hblanks c (List.mem_of_mem_head? hc)
  | cons first ts =>
      have hne : first.1.toList ≠ [] := mt String.toList_eq_nil_iff.mp (hgaps _ List.mem_cons_self)
      obtain ⟨d, more, hgap⟩ := List.exists_cons_of_ne_nil hne
      rw [spread, String.toList_append, hgap] at hc
      obtain rfl : d = c := by simpa using hc
      exact hts _ List.mem_cons_self d (hgap ▸ List.mem_cons_self)

/-- What is written out is scanned, in its place. -/
theorem items_spread (hts : ∀ r ∈ ts, (∀ c ∈ r.1.toList, isBlank c) ∧ r.2.Writable)
    (hgaps : ∀ r ∈ ts.tail, r.1 ≠ "") (hblanks : ∀ c ∈ blanks.toList, isBlank c) (p : Nat) :
    Scanner.items ⟨(spread ts blanks).toList, p⟩ = (spreadLexemes p ts).map .ok := by
  induction ts generalizing p with
  | nil =>
      obtain ⟨t, hnext⟩ := Scanner.next_blank hblanks p
      rw [spread, Scanner.items_eq_tour, Scanner.tour_none hnext]
      rfl
  | cons first ts ih =>
      obtain ⟨gap, t⟩ := first
      obtain ⟨⟨hgap, ht⟩, hmore⟩ := List.forall_mem_cons.mp hts
      have hhead := head_spread_isBlank (fun r hr => (hmore r hr).1) hgaps hblanks
      rw [spread, String.toList_append, String.toList_append,
        Scanner.items_spells hgap (ht.spells hhead), width_toList, width_toList,
        ih hmore (fun r hr => hgaps r (List.mem_of_mem_tail hr))]
      rfl

end Spread

/-- Tokens that are written out with blanks between them are scanned in their places, and the text
is read as the list of the tokens is. -/
theorem ofText_spread (ts : List (String × Token)) (blanks : String)
    (hts : ∀ r ∈ ts, (∀ c ∈ r.1.toList, isBlank c) ∧ r.2.Writable)
    (hgaps : ∀ r ∈ ts.tail, r.1 ≠ "") (hblanks : ∀ c ∈ blanks.toList, isBlank c) :
    (Scanner.ofText (spread ts blanks)).items = (spreadLexemes 0 ts).map .ok ∧
      Expr.ofText (spread ts blanks) =
        (Expr.ofTokens (ts.map fun r => (.ok r.2 : Except ParseError Token))).1 := by
  have hitems : (Scanner.ofText (spread ts blanks)).items = (spreadLexemes 0 ts).map .ok :=
    items_spread hts hgaps hblanks 0
  refine ⟨hitems, ?_⟩
  have htokens : (Scanner.ofText (spread ts blanks)).tokens =
      ts.map fun r => (.ok r.2 : Except ParseError Token) := by
    rw [Scanner.tokens, hitems, List.map_map]
    calc (spreadLexemes 0 ts).map (Except.map Lexeme.token ∘ Except.ok)
        = ((spreadLexemes 0 ts).map Lexeme.token).map Except.ok := by rw [List.map_map]; rfl
      _ = ts.map fun r => .ok r.2 := by rw [map_token_spreadLexemes, List.map_map]; rfl
  rw [Expr.ofText_eq, htokens]

/-- Two stars that stand apart. -/
def stars : List (String × Token) :=
  [("", .number (.constant 2.5)), (" ", .prodOp '*'), ("\n", .prodOp '*'),
    ("\t ", .name (.var "x"))]

theorem writable_stars :
    ∀ r ∈ stars, (∀ c ∈ r.1.toList, isBlank c) ∧ r.2.Writable := by
  intro r hr
  simp only [stars, List.mem_cons, List.not_mem_nil, or_false] at hr
  obtain rfl | rfl | rfl | rfl := hr
  · exact ⟨by simp, ⟨2.5, rfl⟩, by decide, by decide⟩
  · exact ⟨List.all_eq_true.mp rfl, .inl rfl⟩
  · exact ⟨List.all_eq_true.mp rfl, .inl rfl⟩
  · exact ⟨List.all_eq_true.mp rfl, ⟨"x", rfl⟩, by decide, List.all_eq_true.mp rfl⟩

theorem ofText_spread_stars :
    spread stars " " = "2.5 *\n*\t x " ∧
      (Scanner.ofText (spread stars " ")).items =
        [.ok { token := .number (.constant 2.5), position := 0 },
          .ok { token := .prodOp '*', position := 4 },
          .ok { token := .prodOp '*', position := 6 },
          .ok { token := .name (.var "x"), position := 9 }] ∧
      Expr.ofText (spread stars " ") =
        (Expr.ofTokens (stars.map fun r => (.ok r.2 : Except ParseError Token))).1 := by
  have htext : (Expr.constant 2.5).text = "2.5" := by decide +kernel
  have hsize : (Expr.constant 2.5).text.utf8ByteSize = 3 := by
    rw [htext]
    rfl
  have hgaps : ∀ r ∈ stars.tail, r.1 ≠ "" := by simp [stars]
  obtain ⟨hitems, hread⟩ := ofText_spread stars " " writable_stars hgaps (by simp [isBlank])
  refine ⟨?_, ?_, hread⟩
  · simp only [stars, spread, Token.text, htext]
    rfl
  · rw [hitems]
    simp only [stars, spreadLexemes, Token.text, hsize]
    rfl

end Formula
