import Formula.Proofs.Token.Stream

/-!
Blanks between tokens. The spans that tile a text are those that a scan of it gives, so a text may
be changed by changing its tiling: blanks that are put in behind a token move the tokens after them
and leave all else as it was. They cannot carry that token on, and the tokens before it see nothing
of them: a token looks at no more than the first character behind it, unless this is a point or a
comma, and no token begins with these.
-/

namespace Formula

/-- A lexeme in a text where `n` bytes were put in at `p`. -/
def Lexeme.pushed (p n : Nat) (l : Lexeme) : Lexeme :=
  if p ≤ l.position then { l with position := l.position + n } else l

/-- A span `n` bytes further on. -/
def Span.moved (n : Nat) (s : Span) : Span where
  lexeme := { s.lexeme with position := s.lexeme.position + n }
  stop := s.stop + n

/-- A span in a text where `n` bytes were put in at `p`. -/
def Span.pushed (p n : Nat) (s : Span) : Span := if p ≤ s.lexeme.position then s.moved n else s

theorem Span.lexeme_pushed (p n : Nat) (s : Span) :
    (s.pushed p n).lexeme = s.lexeme.pushed p n := by
  rw [Span.pushed, Lexeme.pushed]
  split <;> rfl

theorem Lexeme.token_pushed (p n : Nat) (l : Lexeme) : (l.pushed p n).token = l.token := by
  rw [Lexeme.pushed]
  split <;> rfl

theorem head_isBlank {w : List Char} (hw : ∀ c ∈ w, isBlank c) (hne : w ≠ [])
    (rest : List Char) : ∃ b more, w ++ rest = b :: more ∧ isBlank b := by
  obtain ⟨b, w, rfl⟩ := List.exists_cons_of_ne_nil hne
  exact ⟨b, w ++ rest, rfl, hw b List.mem_cons_self⟩

namespace Token.Spells
variable {t : Token} {c : Char} {us rest : List Char}

/-- A token does not look beyond the character behind it, unless that may belong to a number. -/
theorem change_rest (h : t.Spells us (c :: rest)) (hpoint : c ≠ '.') (hcomma : c ≠ ',')
    (rest' : List Char) : t.Spells us (c :: rest') := by
  cases t with
  | openParen | closeParen | powOp => exact h
  | sumOp symbol => exact h
  | prodOp symbol => exact h
  | name node => exact h
  | number node =>
      obtain ⟨whole, fraction, x, hnode, hx, hwhole, hstop, hform⟩ := h
      refine ⟨whole, fraction, x, hnode, hx, hwhole, hstop, hform.imp_right fun hform => ?_⟩
      refine ⟨hform.1, hform.2.1, ?_⟩
      intro mark d after heq hmark
      obtain ⟨rfl, -⟩ := List.cons.inj heq
      exact absurd hmark (not_or.mpr ⟨hpoint, hcomma⟩)

/-- A token ends where a blank is put in behind it. -/
theorem blank_behind (h : t.Spells us rest) {w : List Char} (hw : ∀ c ∈ w, isBlank c) :
    t.Spells us (w ++ rest) := by
  by_cases hne : w = []
  · rwa [hne, List.nil_append]
  obtain ⟨b, more, heq, hb⟩ := head_isBlank hw hne rest
  rw [heq]
  cases t with
  | openParen | closeParen | powOp => exact h
  | sumOp symbol => exact h
  | prodOp symbol =>
      refine ⟨h.1, h.2.imp_left fun hstar => ⟨hstar.1, ?_⟩⟩
      rintro ⟨⟩
      contradiction
  | name node =>
      refine ⟨h.1, h.2.1, h.2.2.1, ?_⟩
      rintro c ⟨⟩
      exact (not_digit_alpha_of_isBlank hb).2
  | number node =>
      obtain ⟨whole, fraction, x, hnode, hx, hwhole, -, hform⟩ := h
      refine ⟨whole, fraction, x, hnode, hx, hwhole, ?_, hform.imp_right fun hform => ?_⟩
      · rintro c ⟨⟩
        exact (not_digit_alpha_of_isBlank hb).1
      · refine ⟨hform.1, hform.2.1, ?_⟩
        intro mark d after hmore hmark
        obtain ⟨rfl, -⟩ := List.cons.inj hmore
        obtain rfl | rfl := hmark <;> contradiction

theorem head_ne (h : t.Spells (c :: us) rest) : c ≠ '.' ∧ c ≠ ',' := by
  have hscan := h.scan
  constructor <;> rintro rfl <;> contradiction

end Token.Spells

/-- A token and the blanks before it begin with a character that carries no number on. -/
theorem exists_head {blanks us rest : List Char} {t : Token} (hblank : ∀ b ∈ blanks, isBlank b)
    (h : t.Spells us rest) : ∃ c more, blanks ++ us = c :: more ∧ c ≠ '.' ∧ c ≠ ',' := by
  by_cases hne : blanks = []
  · obtain ⟨c, us, rfl⟩ := List.exists_cons_of_ne_nil h.ne_nil
    exact ⟨c, us, by rw [hne]; rfl, h.head_ne⟩
  · obtain ⟨b, more, heq, hb⟩ := head_isBlank hblank hne us
    refine ⟨b, more, heq, ?_⟩
    obtain rfl | rfl | rfl := isBlank_cases hb <;> decide

namespace Scanner

theorem next_blank {cs : List Char} (hblank : ∀ c ∈ cs, isBlank c) (p : Nat) :
    ∃ t, next ⟨cs, p⟩ = (.ok none, t) := by
  have hstop : ∀ d ∈ ([] : List Char).head?, ¬ isBlank d := by simp
  refine ⟨⟨[], p + width cs⟩, ?_⟩
  rw [← List.append_nil cs, next, skipBlanks_append hblank hstop, List.append_nil]

end Scanner

namespace Tiles
variable {p : Nat} {cs : List Char} {spans : List Span} {failure : Option ParseError}
variable {post : List Char}

/-- No two tilings of a text differ in their spans, and a scan finds them. -/
theorem tour_eq (h : Tiles p cs spans failure post) :
    Scanner.tour ⟨cs, p⟩ = (spans, failure) := by
  induction h with
  | @done p cs blank =>
      obtain ⟨t, hnext⟩ := Scanner.next_blank blank p
      exact Scanner.tour_none hnext
  | @failed p blanks c rest x blank stop fits =>
      obtain ⟨t, hnext⟩ := Scanner.next_fits blank stop fits p
      exact Scanner.tour_error hnext
  | @span p blanks us rest t spans failure post blank spells more ih =>
      rw [Scanner.tour_some (Scanner.next_spells blank spells p), ih]

theorem items_eq (h : Tiles p cs spans failure post) :
    Scanner.items ⟨cs, p⟩ =
      spans.map (fun span => .ok span.lexeme) ++ failure.toList.map .error := by
  rw [Scanner.items_eq_tour, h.tour_eq]

/-- Texts whose spans differ by what was put in. -/
theorem items_pushed {cs' post' : List Char} {q n : Nat} (h : Tiles p cs spans failure post)
    (h' : Tiles p cs' (spans.map (Span.pushed q n)) failure post') :
    Scanner.items ⟨cs', p⟩ =
      (Scanner.items ⟨cs, p⟩).map (Except.map (Lexeme.pushed q n)) := by
  have hpushed : (fun s : Span => (.ok (s.pushed q n).lexeme : Except ParseError Lexeme)) =
      fun s => Except.map (Lexeme.pushed q n) (.ok s.lexeme) := by
    funext s
    rw [Span.lexeme_pushed, Except.map]
  have herror : Except.map (Lexeme.pushed q n) ∘ Except.error =
      (Except.error : ParseError → Except ParseError Lexeme) := rfl
  rw [h.items_eq, h'.items_eq, List.map_append, List.map_map, List.map_map, List.map_map, herror]
  exact congrArg (spans.map · ++ _) hpushed

theorem shift (h : Tiles p cs spans failure post) (n : Nat) :
    Tiles (p + n) cs (spans.map (Span.moved n)) failure post := by
  induction h with
  | done blank => exact .done blank
  | failed blank stop fits => exact .failed blank stop fits
  | @span p blanks us rest t spans failure post blank spells more ih =>
      have hposition : p + n + width blanks = p + width blanks + n := by omega
      have hstop : p + width blanks + n + width us = p + width blanks + width us + n := by omega
      have hspan := Tiles.span (p := p + n) blank spells (by rwa [hposition, hstop])
      rwa [hposition, hstop] at hspan

/-- Blanks in front of a text. -/
theorem lead (h : Tiles p cs spans failure post) {w : List Char} (hw : ∀ c ∈ w, isBlank c) :
    Tiles p (w ++ cs) (spans.map (Span.moved (width w))) failure post := by
  have hblanks {blanks : List Char} (blank : ∀ b ∈ blanks, isBlank b) :
      ∀ b ∈ w ++ blanks, isBlank b := List.forall_mem_append.mpr ⟨hw, blank⟩
  cases h with
  | done blank => exact .done (hblanks blank)
  | failed blank stop fits =>
      rw [← List.append_assoc]
      exact .failed (hblanks blank) stop fits
  | @span p blanks us rest t spans failure post blank spells more =>
      have hposition : p + width (w ++ blanks) = p + width blanks + width w := by
        rw [width_append]
        omega
      have hstop : p + width blanks + width w + width us =
          p + width blanks + width us + width w := by omega
      have hspan := Tiles.span (p := p) (hblanks blank) spells
        (by rw [hposition, hstop]; exact more.shift (width w))
      rwa [hposition, hstop, List.append_assoc] at hspan

/-- The spans behind a place that is not before the beginning are moved. -/
theorem map_pushed (h : Tiles p cs spans failure post) (n : Nat) :
    spans.map (Span.pushed p n) = spans.map (Span.moved n) := by
  apply List.map_congr_left
  intro s hs
  obtain ⟨front, -, -, -, hposition, -⟩ := h.place s hs
  exact if_pos (hposition ▸ Nat.le_add_right _ _)

/-- Blanks behind a token. -/
theorem insert (h : Tiles p cs spans failure post) {s : Span} (hs : s ∈ spans) :
    ∃ c front back, cs = c :: (front ++ back) ∧ s.stop = p + width (c :: front) ∧ c ≠ '.' ∧
      c ≠ ',' ∧ ∀ w : List Char, (∀ b ∈ w, isBlank b) →
        Tiles p (c :: (front ++ (w ++ back))) (spans.map (Span.pushed s.stop (width w)))
          failure post := by
  induction h with
  | done _ | failed _ _ _ => contradiction
  | @span p blanks us rest t spans failure post blank spells more ih =>
      obtain ⟨c, lead, hlead, hpoint, hcomma⟩ := exists_head blank spells
      have hwidth : width blanks + width us = width (c :: lead) := by rw [← width_append, hlead]
      have hpos := width_pos spells.ne_nil
      have hbegin (tail : List Char) : blanks ++ (us ++ tail) = c :: (lead ++ tail) := by
        rw [← List.append_assoc, hlead, List.cons_append]
      -- behind this token the blanks lead what follows; else it keeps the head of what follows
      obtain rfl | hs := List.mem_cons.mp hs
      · refine ⟨c, lead, rest, hbegin rest, ?_, hpoint, hcomma, ?_⟩
        · simp only
          omega
        · intro w hw
          have hspan := Tiles.span blank (spells.blank_behind hw) (more.lead hw)
          rw [hbegin, ← more.map_pushed] at hspan
          rw [List.map_cons, Span.pushed, if_neg (by simp only; omega)]
          exact hspan
      · obtain ⟨d, front, back, rfl, hstop, hd, hd', htiles⟩ := ih hs
        refine ⟨c, lead ++ d :: front, back, ?_, ?_, hpoint, hcomma, ?_⟩
        · rw [hbegin, List.append_assoc, List.cons_append]
        · rw [← List.cons_append, width_append]
          omega
        · intro w hw
          have hspan := Tiles.span blank (spells.change_rest hd hd' _) (htiles w hw)
          rw [hbegin] at hspan
          rw [List.map_cons, Span.pushed, if_neg (by simp only; omega), List.append_assoc,
            List.cons_append]
          exact hspan

end Tiles

theorem Scanner.tokens_of_items_pushed {s s' : Scanner} {p n : Nat}
    (h : s'.items = s.items.map (Except.map (Lexeme.pushed p n))) : s'.tokens = s.tokens := by
  rw [tokens, tokens, h, List.map_map]
  apply List.map_congr_left
  intro item _
  cases item with
  | error x => rfl
  | ok lexeme => exact congrArg Except.ok (lexeme.token_pushed p n)

theorem width_toList (s : String) : width s.toList = s.utf8ByteSize := by
  rw [← utf8ByteSize_ofList, String.ofList_toList]

theorem append_width_inj {us us' vs vs' : List Char} (h : us ++ vs = us' ++ vs')
    (hwidth : width us = width us') : us = us' ∧ vs = vs' := by
  have hnil {us m : List Char} (h : width us = width (us ++ m)) : m = [] := by
    rw [width_append] at h
    by_cases hne : m = []
    · exact hne
    · have := width_pos hne
      omega
  obtain ⟨m, rfl, rfl⟩ | ⟨m, rfl, rfl⟩ := List.append_eq_append_iff.mp h
  · obtain rfl := hnil hwidth
    simp
  · obtain rfl := hnil hwidth.symm
    simp

theorem Scanner.exists_tiles_insert (text : List Char) (p : Nat)
    (hp : p = 0 ∨ ∃ s ∈ (tour ⟨text, 0⟩).1, s.stop = p) :
    ∃ front back, text = front ++ back ∧ width front = p ∧
      ∀ w : List Char, (∀ c ∈ w, isBlank c) →
        items ⟨front ++ (w ++ back), 0⟩ =
          (items ⟨text, 0⟩).map (Except.map (Lexeme.pushed p (width w))) := by
  obtain ⟨post, h⟩ := tour_tiles ⟨text, 0⟩
  change Tiles 0 text _ _ post at h
  obtain rfl | ⟨s, hs, rfl⟩ := hp
  · refine ⟨[], text, rfl, rfl, ?_⟩
    intro w hw
    apply h.items_pushed
    rw [h.map_pushed]
    exact h.lead hw
  · obtain ⟨c, front, back, htext, hstop, -, -, htiles⟩ := h.insert hs
    refine ⟨c :: front, back, htext, by omega, ?_⟩
    intro w hw
    exact h.items_pushed (htiles w hw)

/-- Blanks at the beginning of a text or behind one of its tokens only move the tokens behind
them. -/
theorem ofText_insert_blanks (text : String) (p : Nat)
    (hp : p = 0 ∨ ∃ s ∈ (Scanner.ofText text).tour.1, s.stop = p) :
    (String.Pos.Raw.mk p).IsValid text ∧
      ∀ front back w : String, text = front ++ back → front.utf8ByteSize = p →
        (∀ c ∈ w.toList, isBlank c) →
          (Scanner.ofText (front ++ w ++ back)).items =
              (Scanner.ofText text).items.map (Except.map (Lexeme.pushed p w.utf8ByteSize)) ∧
            Expr.ofText (front ++ w ++ back) = Expr.ofText text := by
  obtain ⟨us, vs, htext, rfl, hinsert⟩ := Scanner.exists_tiles_insert text.toList p hp
  refine ⟨isValid_width htext, ?_⟩
  intro front back w hsplit hfront hw
  rw [← width_toList] at hfront
  obtain ⟨rfl, rfl⟩ : front.toList = us ∧ back.toList = vs :=
    append_width_inj (by rw [← htext, hsplit, String.toList_append]) hfront
  have hnew : Scanner.ofText (front ++ w ++ back) =
      ⟨front.toList ++ (w.toList ++ back.toList), 0⟩ := by
    simp [Scanner.ofText]
  have hitems : (Scanner.ofText (front ++ w ++ back)).items = (Scanner.ofText text).items.map
      (Except.map (Lexeme.pushed (width front.toList) w.utf8ByteSize)) := by
    rw [hnew, ← width_toList]
    exact hinsert w.toList hw
  refine ⟨hitems, ?_⟩
  rw [Expr.ofText_eq, Expr.ofText_eq, Scanner.tokens_of_items_pushed hitems]

/-- Blanks between a power and what cannot be its exponent. -/
theorem ofText_insert_blanks_unknown :
    (∃ s ∈ (Scanner.ofText "2x^$y").tour.1, s.stop = 3) ∧
      (Scanner.ofText "2x^ \t$y").items =
        (Scanner.ofText "2x^$y").items.map (Except.map (Lexeme.pushed 3 2)) ∧
      Expr.ofText "2x^ \t$y" = Expr.ofText "2x^$y" := by
  have hstops : (Scanner.ofText "2x^$y").tour.1.map Span.stop = [1, 2, 3] := by decide +kernel
  have hstop : ∃ s ∈ (Scanner.ofText "2x^$y").tour.1, s.stop = 3 :=
    List.mem_map.mp (hstops ▸ by simp)
  exact ⟨hstop, (ofText_insert_blanks _ 3 (.inr hstop)).2 "2x^" "$y" " \t" rfl rfl
    (List.all_eq_true.mp rfl)⟩

end Formula
