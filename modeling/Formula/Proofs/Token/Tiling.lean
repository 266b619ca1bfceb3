import Formula.Proofs.Token.Spelling
import Formula.Token.Scanner

/-!
A scan of a whole text. The spans of its tokens lie one behind the other and leave only blanks
between them, up to the end of the text or to the first character where no token is spelled; the
error is then the one that fits there. Places are bytes, and each is the width of a part of the
text, so that no character is ever cut.
-/

namespace Formula

theorem width_append (us vs : List Char) : width (us ++ vs) = width us + width vs := by
  induction us with
  | nil => simp [width]
  | cons c us ih => simp [width, ih, Nat.add_assoc]

theorem width_pos {us : List Char} (h : us ≠ []) : 0 < width us := by
  obtain ⟨c, us, rfl⟩ := List.exists_cons_of_ne_nil h
  have := c.utf8Size_pos
  simp only [width]
  omega

theorem utf8ByteSize_ofList (us : List Char) : (String.ofList us).utf8ByteSize = width us := by
  induction us with
  | nil => rfl
  | cons c us ih =>
      rw [← List.singleton_append, String.ofList_append, String.utf8ByteSize_append, ih,
        ← String.singleton_eq_ofList, String.utf8ByteSize_singleton]
      rfl

theorem isValid_width {text : String} {us vs : List Char} (h : text.toList = us ++ vs) :
    (String.Pos.Raw.mk (width us)).IsValid text := by
  refine String.Pos.Raw.isValid_iff_exists_append.mpr ⟨String.ofList us, String.ofList vs, ?_, ?_⟩
  · rw [← String.ofList_append, ← h, String.ofList_toList]
  · rw [← utf8ByteSize_ofList]
    rfl

namespace Scanner

theorem skipBlanks_append {blanks rest : List Char} (hblank : ∀ b ∈ blanks, isBlank b)
    (hstop : ∀ c ∈ rest.head?, ¬ isBlank c) (p : Nat) :
    skipBlanks ⟨blanks ++ rest, p⟩ = ⟨rest, p + width blanks⟩ := by
  simp only [skipBlanks, advance, (span_append hblank hstop).1, List.drop_left, List.take_left]

/-- All that the next token of a scanner can be. -/
theorem next_cases (s : Scanner) :
    (∃ blanks us rest t, s.rest = blanks ++ (us ++ rest) ∧ (∀ b ∈ blanks, isBlank b) ∧
      t.Spells us rest ∧
      s.next = (.ok (some { token := t, position := s.position + width blanks }),
        ⟨rest, s.position + width blanks + width us⟩)) ∨
    (∃ blanks c rest x, s.rest = blanks ++ c :: rest ∧ (∀ b ∈ blanks, isBlank b) ∧ ¬ isBlank c ∧
      x.Fits (c :: rest) ∧ s.next = (.error x, ⟨[], s.position + width s.rest⟩)) ∨
    ((∀ b ∈ s.rest, isBlank b) ∧ s.next = (.ok none, ⟨[], s.position + width s.rest⟩)) := by
  obtain ⟨rest, position⟩ := s
  obtain ⟨blanks, tail, rfl, -, -, hblank, hstop⟩ := span_split isBlank rest
  rw [next, skipBlanks_append hblank hstop]
  cases tail with
  | nil => exact .inr (.inr ⟨by simpa using hblank, by simp⟩)
  | cons c tail =>
      cases hscan : Token.scan c tail with
      | ok r =>
          obtain ⟨t, n⟩ := r
          refine .inl ⟨blanks, c :: tail.take n, tail.drop n, t, by simp, hblank,
            Token.scan_spells hscan, ?_⟩
          simp [hscan, advance]
      | error x =>
          refine .inr (.inl ⟨blanks, c, tail, x, rfl, hblank, hstop c rfl,
            Token.scan_fits hscan, ?_⟩)
          simp [hscan, exhaust, advance, width_append, Nat.add_assoc]

end Scanner

/-- A token in its place: its lexeme and the position of the scanner behind it. -/
structure Span where
  lexeme : Lexeme
  stop : Nat

/-- The spans of all tokens that a scanner gives, and the error that ends them if there is one. -/
def Scanner.tour (s : Scanner) : List Span × Option ParseError :=
  match _h : s.next with
  | (.ok none, _) => ([], none)
  | (.ok (some lexeme), t) => ({ lexeme, stop := t.position } :: t.tour.1, t.tour.2)
  | (.error x, _) => ([], some x)
termination_by s.rest.length
decreasing_by all_goals exact length_next_lt (by assumption)

/-- `Tiles p cs spans failure post`: the characters `cs`, of which the first stands at `p`, are
blanks and the tokens of `spans`, until there are none left or an error fits; `post` is what is
left then. -/
inductive Tiles : Nat → List Char → List Span → Option ParseError → List Char → Prop
  | done {p cs} (blank : ∀ c ∈ cs, isBlank c) : Tiles p cs [] none []
  | failed {p blanks c rest x} (blank : ∀ b ∈ blanks, isBlank b) (stop : ¬ isBlank c)
      (fits : x.Fits (c :: rest)) : Tiles p (blanks ++ c :: rest) [] (some x) (c :: rest)
  | span {p blanks us rest t spans failure post} (blank : ∀ b ∈ blanks, isBlank b)
      (spells : t.Spells us rest)
      (more : Tiles (p + width blanks + width us) rest spans failure post) :
      Tiles p (blanks ++ (us ++ rest))
        ({ lexeme := { token := t, position := p + width blanks },
           stop := p + width blanks + width us } :: spans) failure post

namespace Scanner

theorem tour_none {s t : Scanner} (h : s.next = (.ok none, t)) : s.tour = ([], none) := by
  rw [tour]
  split <;> simp_all

theorem tour_some {s t : Scanner} {lexeme : Lexeme} (h : s.next = (.ok (some lexeme), t)) :
    s.tour = ({ lexeme, stop := t.position } :: t.tour.1, t.tour.2) := by
  rw [tour]
  split <;> simp_all

theorem tour_error {s t : Scanner} {x : ParseError} (h : s.next = (.error x, t)) :
    s.tour = ([], some x) := by
  rw [tour]
  split <;> simp_all

theorem tour_tiles (s : Scanner) :
    ∃ post, Tiles s.position s.rest s.tour.1 s.tour.2 post := by
  obtain ⟨blanks, us, rest, t, hrest, hblank, hspells, hnext⟩ |
    ⟨blanks, c, rest, x, hrest, hblank, hc, hfits, hnext⟩ | ⟨hblank, hnext⟩ := s.next_cases
  · have := length_next_lt hnext
    obtain ⟨post, more⟩ := tour_tiles ⟨rest, s.position + width blanks + width us⟩
    rw [tour_some hnext, hrest]
    exact ⟨post, .span hblank hspells more⟩
  · rw [tour_error hnext, hrest]
    exact ⟨_, .failed hblank hc hfits⟩
  · rw [tour_none hnext]
    exact ⟨_, .done hblank⟩
termination_by s.rest.length

end Scanner

theorem append_cons_cases {us vs front after : List Char} {c : Char}
    (h : us ++ vs = front ++ c :: after) :
    (∃ m, us = front ++ c :: m) ∨ ∃ m, front = us ++ m ∧ vs = m ++ c :: after := by
  obtain ⟨m, hfront, hvs⟩ | ⟨m, hus, hafter⟩ := List.append_eq_append_iff.mp h
  · exact .inr ⟨m, hfront, hvs⟩
  · cases m with
    | nil => exact .inr ⟨[], by simpa using hus.symm, by simpa using hafter.symm⟩
    | cons d m =>
        obtain ⟨rfl, -⟩ := List.cons.inj hafter
        exact .inl ⟨m, hus⟩

namespace Tiles
variable {p : Nat} {cs : List Char} {spans : List Span} {failure : Option ParseError}
variable {post : List Char}

theorem split (h : Tiles p cs spans failure post) : ∃ pre, cs = pre ++ post := by
  induction h with
  | @done p cs _ => exact ⟨cs, by simp⟩
  | @failed p blanks c rest x _ _ _ => exact ⟨blanks, rfl⟩
  | @span p blanks us rest t spans failure post _ _ _ ih =>
      obtain ⟨pre, rfl⟩ := ih
      exact ⟨blanks ++ (us ++ pre), by simp⟩

theorem place (h : Tiles p cs spans failure post) :
    ∀ s ∈ spans, ∃ front us after, cs = front ++ (us ++ after) ∧
      s.lexeme.position = p + width front ∧ s.stop = p + width front + width us ∧
      s.lexeme.token.Spells us after ∧ s.stop + width post ≤ p + width cs := by
  induction h with
  | done _ | failed _ _ _ => simp
  | @span p blanks us rest t spans failure post blank spells more ih =>
      intro s hs
      obtain rfl | hs := List.mem_cons.mp hs
      · refine ⟨blanks, us, rest, rfl, rfl, rfl, spells, ?_⟩
        obtain ⟨pre, rfl⟩ := more.split
        simp only [width_append]
        omega
      · obtain ⟨front, vs, after, rfl, hposition, hstop, hspells, hle⟩ := ih s hs
        refine ⟨blanks ++ (us ++ front), vs, after, by simp, ?_, ?_, hspells, ?_⟩
        all_goals
          simp only [width_append] at hle ⊢
          omega

theorem pairwise (h : Tiles p cs spans failure post) :
    spans.Pairwise (fun s s' => s.stop ≤ s'.lexeme.position) := by
  induction h with
  | done _ | failed _ _ _ => exact .nil
  | @span p blanks us rest t spans failure post blank spells more ih =>
      refine .cons (fun s hs => ?_) ih
      obtain ⟨front, -, -, -, hposition, -⟩ := more.place s hs
      exact hposition ▸ Nat.le_add_right _ _

/-- What no span covers is blank, up to the end. -/
theorem covers (h : Tiles p cs spans failure post) :
    ∀ front c after, cs = front ++ c :: after → width post < width (c :: after) →
      isBlank c ∨ ∃ s ∈ spans, s.lexeme.position ≤ p + width front ∧
        p + width front < s.stop := by
  induction h with
  | done blank => exact fun front c after heq _ => .inl (blank c (by simp [heq]))
  | failed blank stop _ =>
      intro front d after heq hlt
      obtain ⟨m, rfl⟩ | ⟨m, -, heq⟩ := append_cons_cases heq
      · exact .inl (blank d (by simp))
      · rw [heq, width_append] at hlt
        omega
  | @span p blanks us rest t spans failure post blank spells more ih =>
      intro front c after heq hlt
      obtain ⟨m, rfl⟩ | ⟨front, rfl, hinner⟩ := append_cons_cases heq
      · exact .inl (blank c (by simp))
      obtain ⟨m, rfl⟩ | ⟨front, rfl, hrest⟩ := append_cons_cases hinner
      · refine .inr ⟨_, List.mem_cons_self, ?_⟩
        have := width_pos (List.cons_ne_nil c m)
        simp only [width_append]
        omega
      obtain hc | ⟨s, hs, hle, hlt⟩ := ih front c after hrest hlt
      · exact .inl hc
      · refine .inr ⟨s, List.mem_cons_of_mem _ hs, ?_⟩
        simp only [width_append]
        omega

theorem post_nil (h : Tiles p cs spans none post) : post = [] := by
  generalize hnone : none = failure at h
  induction h with
  | done _ => rfl
  | failed _ _ _ => contradiction
  | span _ _ _ ih => exact ih hnone

theorem fits {x : ParseError} (h : Tiles p cs spans (some x) post) :
    ∃ c rest, post = c :: rest ∧ ¬ isBlank c ∧ x.Fits (c :: rest) := by
  generalize hsome : some x = failure at h
  induction h with
  | done _ => contradiction
  | @failed p blanks c rest y _ stop fits =>
      obtain rfl := Option.some.inj hsome
      exact ⟨c, rest, rfl, stop, fits⟩
  | span _ _ _ ih => exact ih hsome

end Tiles

/-- The tokens of a text tile it, each the longest that begins in its place, and an error says what
stands where no token does. -/
theorem ofText_tour_tiles (text : String) :
    ∃ pre post, text.toList = pre ++ post ∧
      (∀ s ∈ (Scanner.ofText text).tour.1,
        s.lexeme.position < s.stop ∧ s.stop ≤ width pre ∧
        (String.Pos.Raw.mk s.lexeme.position).IsValid text ∧
        (String.Pos.Raw.mk s.stop).IsValid text ∧
        ∃ front us after, text.toList = front ++ (us ++ after) ∧
          s.lexeme.position = width front ∧ s.stop = width front + width us ∧
          s.lexeme.token.Spells us after ∧
          ∀ (kind : Kind) n, kind.pattern (us ++ after) = some n → n ≤ us.length) ∧
      (Scanner.ofText text).tour.1.Pairwise (fun s s' => s.stop ≤ s'.lexeme.position) ∧
      (∀ front c after, text.toList = front ++ c :: after → width front < width pre →
        isBlank c ∨ ∃ s ∈ (Scanner.ofText text).tour.1,
          s.lexeme.position ≤ width front ∧ width front < s.stop) ∧
      ((Scanner.ofText text).tour.2 = none → post = []) ∧
      (∀ x, (Scanner.ofText text).tour.2 = some x →
        ∃ c rest, post = c :: rest ∧ ¬ isBlank c ∧ (∀ y : ParseError, y.Fits post ↔ y = x) ∧
          ∀ (t : Token) us after, post = us ++ after → ¬ t.Spells us after) := by
  obtain ⟨post, h⟩ := (Scanner.ofText text).tour_tiles
  obtain ⟨pre, hsplit⟩ := h.split
  change text.toList = pre ++ post at hsplit
  change Tiles 0 text.toList _ _ post at h
  refine ⟨pre, post, hsplit, fun s hs => ?_, h.pairwise, fun front c after heq hlt => ?_,
    fun hnone => ?_, fun x hsome => ?_⟩
  · -- a span ends before what is left, since the widths of both fit into the text
    obtain ⟨front, us, after, heq, hposition, hstop, hspells, hle⟩ := h.place s hs
    have hpos := width_pos hspells.ne_nil
    rw [hsplit, width_append] at hle
    rw [Nat.zero_add] at hposition hstop
    refine ⟨by omega, by omega, ?_, ?_, front, us, after, heq, hposition, hstop, hspells,
      fun _ _ => hspells.longest⟩
    · exact hposition ▸ isValid_width heq
    · rw [hstop, ← width_append]
      exact isValid_width (by rw [heq, List.append_assoc])
  · have hwidth : width (pre ++ post) = width (front ++ c :: after) := by rw [← heq, hsplit]
    simp only [width_append] at hwidth
    simpa using h.covers front c after heq (by omega)
  · rw [hnone] at h
    exact h.post_nil
  · rw [hsome] at h
    obtain ⟨c, rest, rfl, hc, hfits⟩ := h.fits
    refine ⟨c, rest, rfl, hc, fun y => ⟨hfits.unique, fun hy => hy ▸ hfits⟩,
      fun t us after heq => ?_⟩
    rw [heq] at hfits
    exact hfits.not_spells

end Formula
