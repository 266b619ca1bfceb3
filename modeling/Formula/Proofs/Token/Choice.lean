import Formula.Token.Scan

/-!
The first character decides which kind of token matches, but for stars, comparisons and numbers,
where the characters behind it have a say. So the ordered choice among the kinds comes down to a
distinction of the first character, and the kind that it takes is the one with the longest match.
-/

namespace Formula

namespace Token

/-- The number whose first digit is `c`, with the count of characters that it takes from `rest`.
The point belongs to it only if a digit follows. -/
def scanNumber (c : Char) (rest : List Char) : Except ParseError (Token × Nat) :=
  let more := rest.takeWhile Char.isDigit
  let number (fraction : List Char) :=
    number (.constant (Decimal.ofDigits (c :: more) fraction).toFloat)
  match rest.dropWhile Char.isDigit with
  | ',' :: d :: _ => if d.isDigit then .error .decimalComma else .ok (number [], more.length)
  | '.' :: after =>
    match after.takeWhile Char.isDigit with
    | [] => .ok (number [], more.length)
    | fraction => .ok (number fraction, more.length + 1 + fraction.length)
  | _ => .ok (number [], more.length)

/-- The name whose first letter is `c`, with the count of characters that it takes from `rest`. -/
def scanName (c : Char) (rest : List Char) : Token × Nat :=
  let more := rest.takeWhile Char.isAlpha
  (name (.var (String.ofList (c :: more))), more.length)

/-- What begins with `c`, by cases on this character. -/
def dispatch (c : Char) (rest : List Char) : Except ParseError (Token × Nat) :=
  match c with
  | '(' => .ok (openParen, 0)
  | ')' => .ok (closeParen, 0)
  | '+' | '-' => .ok (sumOp c, 0)
  | '*' => if rest.head? = some '*' then .error .doubleStar else .ok (prodOp '*', 0)
  | '/' => .ok (prodOp '/', 0)
  | '^' => .ok (powOp, 0)
  | '<' | '>' | '=' =>
    let symbol := if rest.head? = some '=' then [c, '='] else [c]
    .error (.unsupportedOperator (String.ofList symbol))
  | _ =>
    if c.isDigit then scanNumber c rest
    else if c.isAlpha then .ok (scanName c rest)
    else .error (.unknownSymbol (fragment (c :: rest)))

end Token

theorem span_split (p : Char → Bool) (cs : List Char) :
    ∃ us rest, cs = us ++ rest ∧ cs.takeWhile p = us ∧ cs.dropWhile p = rest ∧
      (∀ c ∈ us, p c) ∧ ∀ c ∈ rest.head?, ¬ p c := by
  refine ⟨cs.takeWhile p, cs.dropWhile p, List.takeWhile_append_dropWhile.symm, rfl, rfl,
    fun c hc => ?_, fun c hc => ?_⟩
  · exact List.all_eq_true.mp List.all_takeWhile c hc
  · have h := List.head?_dropWhile_not p cs
    rw [Option.mem_def.mp hc] at h
    simpa using h

theorem span_append {p : Char → Bool} {us rest : List Char} (h : ∀ c ∈ us, p c)
    (hr : ∀ c ∈ rest.head?, ¬ p c) :
    (us ++ rest).takeWhile p = us ∧ (us ++ rest).dropWhile p = rest := by
  rw [List.takeWhile_append_of_pos h, List.dropWhile_append_of_pos h]
  cases rest with
  | nil => simp
  | cons c rest => simp [hr c rfl]

theorem not_isDigit_of_isAlpha {c : Char} (h : c.isAlpha) : ¬ c.isDigit := by
  have hletter : 65 ≤ c.toNat := by
    obtain h | h := Bool.or_eq_true_iff.mp h
    · exact (of_decide_eq_true h : _ ∧ _).1
    · exact Nat.le_trans (by decide) (of_decide_eq_true (Bool.and_eq_true_iff.mp h).1)
  intro hdigit
  have hle : c.toNat ≤ 57 := (Char.isDigit_iff_toNat.mp hdigit).2
  omega

namespace Pattern
variable {c : Char} {p : Char → Bool} {rest : List Char}

theorem many_cons (h : p c) : many p (c :: rest) = some ((rest.takeWhile p).length + 1) := by
  rw [many, List.takeWhile_cons_of_pos h]
  rfl

theorem many_cons_of_not (h : ¬ p c) : many p (c :: rest) = none := by
  rw [many, List.takeWhile_cons_of_neg h]

theorem oneOf_cons {chars : List Char} (h : c ∈ chars) : oneOf chars (c :: rest) = some 1 := by
  simp [oneOf, h]

theorem oneOf_cons_of_not {chars : List Char} (h : c ∉ chars) : oneOf chars (c :: rest) = none := by
  simp [oneOf, h]

theorem seq_of_some {first : Pattern} {cs : List Char} {n : Nat} (h : first cs = some n)
    (second : Pattern) : seq first second cs = (second (cs.drop n)).map (n + ·) := by
  rw [seq, h, Option.bind_some]

theorem oneOf_eq_some {chars cs : List Char} {n : Nat} (h : oneOf chars cs = some n) :
    ∃ c rest, cs = c :: rest ∧ c ∈ chars ∧ n = 1 := by
  cases cs with
  | nil => contradiction
  | cons c rest =>
      by_cases hc : c ∈ chars
      · rw [oneOf_cons hc] at h
        exact ⟨c, rest, rfl, hc, (Option.some.inj h).symm⟩
      · rw [oneOf_cons_of_not hc] at h
        contradiction

theorem many_eq_some {cs : List Char} {n : Nat} (h : many p cs = some n) :
    ∃ c rest, cs = c :: rest ∧ p c ∧ n = (rest.takeWhile p).length + 1 := by
  cases cs with
  | nil => contradiction
  | cons c rest =>
      by_cases hc : p c
      · rw [many_cons hc] at h
        exact ⟨c, rest, rfl, hc, (Option.some.inj h).symm⟩
      · rw [many_cons_of_not hc] at h
        contradiction

theorem seq_eq_some {first second : Pattern} {cs : List Char} {n : Nat}
    (h : seq first second cs = some n) :
    ∃ i j, first cs = some i ∧ second (cs.drop i) = some j ∧ n = i + j := by
  obtain ⟨i, hi, h⟩ := Option.bind_eq_some_iff.mp h
  obtain ⟨j, hj, rfl⟩ := Option.map_eq_some_iff.mp h
  exact ⟨i, j, hi, hj, rfl⟩

theorem seq_of_none {first : Pattern} {cs : List Char} (h : first cs = none) (second : Pattern) :
    seq first second cs = none := by
  rw [seq, h, Option.bind_none]

end Pattern

namespace Kind
open Pattern
variable {c : Char} {rest : List Char}

/-- The characters that are neither letters nor digits and begin something nevertheless. -/
def operators : List Char := ['(', ')', '+', '-', '*', '/', '^', '<', '>', '=']

theorem pattern_of_not_mem (h : c ∉ operators) {kind : Kind}
    (hkind : kind ∉ [decimalComma, name, number]) : kind.pattern (c :: rest) = none := by
  have hnone {chars : List Char} (hchars : ∀ d ∈ chars, d ∈ operators) :
      oneOf chars (c :: rest) = none :=
    oneOf_cons_of_not fun hmem => h (hchars c hmem)
  cases kind with
  | comparison | doubleStar => exact seq_of_none (hnone (by simp [operators])) _
  | openParen | closeParen | sumOp | prodOp | powOp => exact hnone (by simp [operators])
  | decimalComma | name | number => exact absurd (by decide) hkind

/-- Any other character can only begin a name or a number. -/
theorem first_of_not_mem (h : c ∉ operators) :
    first (c :: rest) = [decimalComma, name, number].findSome? fun kind =>
      (kind.pattern (c :: rest)).map (kind, ·) := by
  have hnone {kind : Kind} (hkind : kind ∉ [decimalComma, name, number]) :
      kind.pattern (c :: rest) = none := pattern_of_not_mem h hkind
  simp [first, inOrder, List.findSome?, hnone]

theorem not_mem_operators (h : c.isDigit ∨ c.isAlpha) : c ∉ operators := by
  intro hmem
  have hall : ∀ d ∈ operators, ¬ (d.isDigit ∨ d.isAlpha) := by simp [operators]
  exact hall c hmem h

theorem first_alpha (h : c.isAlpha) :
    first (c :: rest) = some (name, (rest.takeWhile Char.isAlpha).length + 1) := by
  have hcomma : decimalComma.pattern (c :: rest) = none :=
    seq_of_none (many_cons_of_not (not_isDigit_of_isAlpha h)) _
  have hname : name.pattern (c :: rest) = some _ := many_cons h
  rw [first_of_not_mem (not_mem_operators (.inr h))]
  simp [hcomma, hname]

theorem first_none (hdigit : ¬ c.isDigit) (halpha : ¬ c.isAlpha) (h : c ∉ operators) :
    first (c :: rest) = none := by
  have hcomma : decimalComma.pattern (c :: rest) = none :=
    seq_of_none (many_cons_of_not hdigit) _
  have hnumber : number.pattern (c :: rest) = none := seq_of_none (many_cons_of_not hdigit) _
  have hname : name.pattern (c :: rest) = none := many_cons_of_not halpha
  rw [first_of_not_mem h]
  simp [hcomma, hname, hnumber]

theorem first_comparison (h : c ∈ ['<', '>', '=']) :
    first (c :: rest) = some (comparison, 1 + (oneOf ['='] rest).getD 0) := by
  have hpattern : comparison.pattern (c :: rest) = some (1 + (oneOf ['='] rest).getD 0) := by
    rw [pattern, seq_of_some (oneOf_cons h)]
    rfl
  simp [first, inOrder, hpattern]

theorem first_star (h : rest.head? ≠ some '*') : first ('*' :: rest) = some (prodOp, 1) := by
  have hother {kind : Kind} (hkind : kind ∉ [doubleStar, prodOp]) :
      kind.pattern ('*' :: rest) = none := by
    cases kind with
    | doubleStar | prodOp => exact absurd (by decide) hkind
    | _ => rfl
  have hstars : doubleStar.pattern ('*' :: rest) = none := by
    rw [pattern, seq_of_some (oneOf_cons (List.mem_singleton_self _))]
    cases rest with
    | nil => rfl
    | cons d rest =>
        refine congrArg _ (oneOf_cons_of_not fun hmem => h ?_)
        rw [List.mem_singleton.mp hmem, List.head?_cons]
  have hstar : prodOp.pattern ('*' :: rest) = some 1 := rfl
  simp [first, inOrder, List.findSome?, hother, hstars, hstar]

section Digit
variable {more tail : List Char} (h : c.isDigit) (hmore : ∀ d ∈ more, d.isDigit)
  (htail : ∀ d ∈ tail.head?, ¬ d.isDigit)
include h hmore htail

theorem seq_many_digit (second : Pattern) :
    seq (many Char.isDigit) second (c :: (more ++ tail)) =
      (second tail).map (more.length + 1 + ·) := by
  have hmany : many Char.isDigit (c :: (more ++ tail)) = some (more.length + 1) := by
    rw [many_cons h, (span_append hmore htail).1]
  rw [seq_of_some hmany, List.drop_succ_cons, List.drop_left]

theorem comma_pattern {d : Char} {after : List Char} (hcomma : tail = ',' :: d :: after)
    (hd : d.isDigit) : ∃ n, decimalComma.pattern (c :: (more ++ tail)) = some n ∧
      more.length + 1 ≤ n := by
  subst hcomma
  rw [pattern, seq_many_digit h hmore htail, seq_of_some (oneOf_cons (List.mem_singleton_self _)),
    List.drop_succ_cons, List.drop_zero, many_cons hd]
  exact ⟨_, rfl, Nat.le_add_right _ _⟩

theorem comma_pattern_none (hcomma : ∀ d after, tail = ',' :: d :: after → ¬ d.isDigit) :
    decimalComma.pattern (c :: (more ++ tail)) = none := by
  have hnone : seq (oneOf [',']) (many Char.isDigit) tail = none := by
    cases tail with
    | nil => rfl
    | cons mark tail =>
        by_cases hmark : mark = ','
        · subst hmark
          rw [seq_of_some (oneOf_cons (List.mem_singleton_self _)), List.drop_succ_cons,
            List.drop_zero]
          cases tail with
          | nil => rfl
          | cons d after => rw [many_cons_of_not (hcomma d after rfl), Option.map_none]
        · exact seq_of_none (oneOf_cons_of_not (by simpa using hmark)) _
  rw [pattern, seq_many_digit h hmore htail, hnone, Option.map_none]

theorem number_pattern : number.pattern (c :: (more ++ tail)) =
    some (more.length + 1 + ((seq (oneOf ['.']) (many Char.isDigit)) tail).getD 0) := by
  rw [pattern, seq_many_digit h hmore htail]
  rfl

theorem first_comma {d : Char} {after : List Char} (hcomma : tail = ',' :: d :: after)
    (hd : d.isDigit) :
    ∃ n, first (c :: (more ++ tail)) = some (decimalComma, n) ∧ more.length + 1 ≤ n := by
  obtain ⟨n, hn, hle⟩ := comma_pattern h hmore htail hcomma hd
  refine ⟨n, ?_, hle⟩
  rw [first_of_not_mem (not_mem_operators (.inl h))]
  simp [hn]

/-- A number ends before a comma that no digit follows. -/
theorem first_number (hcomma : ∀ d after, tail = ',' :: d :: after → ¬ d.isDigit) :
    first (c :: (more ++ tail)) =
      some (number, more.length + 1 + ((seq (oneOf ['.']) (many Char.isDigit)) tail).getD 0) := by
  have hname : name.pattern (c :: (more ++ tail)) = none :=
    many_cons_of_not fun halpha => not_isDigit_of_isAlpha halpha h
  rw [first_of_not_mem (not_mem_operators (.inl h))]
  simp [comma_pattern_none h hmore htail hcomma, hname, number_pattern h hmore htail]

end Digit

variable {kind kind' : Kind} {cs : List Char} {n m : Nat}

theorem pattern_pos (h : kind.pattern cs = some n) : 1 ≤ n := by
  cases kind with
  | openParen | closeParen | sumOp | prodOp | powOp =>
      obtain ⟨-, rest, -, -, rfl⟩ := oneOf_eq_some h
      exact Nat.le_refl 1
  | comparison | doubleStar =>
      obtain ⟨i, j, hi, -, rfl⟩ := seq_eq_some h
      obtain ⟨-, rest, -, -, rfl⟩ := oneOf_eq_some hi
      omega
  | decimalComma | number =>
      obtain ⟨i, j, hi, -, rfl⟩ := seq_eq_some h
      obtain ⟨-, rest, -, -, rfl⟩ := many_eq_some hi
      omega
  | name =>
      obtain ⟨-, rest, -, -, rfl⟩ := many_eq_some h
      omega

theorem first_pattern (h : first cs = some (kind, n)) : kind.pattern cs = some n := by
  obtain ⟨kind', -, hkind⟩ := List.exists_of_findSome?_eq_some h
  obtain ⟨m, hm, heq⟩ := Option.map_eq_some_iff.mp hkind
  obtain ⟨rfl, rfl⟩ := Prod.mk.inj heq
  exact hm

/-- The first kind that matches takes no fewer characters than any other. -/
theorem first_longest (h : first cs = some (kind, n)) (h' : kind'.pattern cs = some m) :
    m ≤ n := by
  have same (hfirst : first cs = some (kind', m)) : m ≤ n := by
    obtain ⟨-, rfl⟩ := Prod.mk.inj (Option.some.inj (hfirst.symm.trans h))
    exact Nat.le_refl m
  cases kind' with
  | openParen | closeParen | sumOp | prodOp | powOp =>
      obtain ⟨-, rest, -, -, rfl⟩ := oneOf_eq_some h'
      exact pattern_pos (first_pattern h)
  | comparison => exact same (by simp [first, inOrder, h'])
  | decimalComma =>
      obtain ⟨i, j, hi, -, rfl⟩ := seq_eq_some h'
      obtain ⟨c, rest, rfl, hc, -⟩ := many_eq_some hi
      apply same
      rw [first_of_not_mem (not_mem_operators (.inl hc))]
      simp [h']
  | doubleStar =>
      obtain ⟨i, j, hi, -, rfl⟩ := seq_eq_some h'
      obtain ⟨c, rest, rfl, hc, -⟩ := oneOf_eq_some hi
      obtain rfl := List.mem_singleton.mp hc
      have hcomparison : comparison.pattern ('*' :: rest) = none := rfl
      have hcomma : decimalComma.pattern ('*' :: rest) = none := rfl
      exact same (by simp [first, inOrder, hcomparison, hcomma, h'])
  | name =>
      obtain ⟨c, rest, rfl, hc, rfl⟩ := many_eq_some h'
      exact same (first_alpha hc)
  | number =>
      obtain ⟨i, j, hi, -, -⟩ := seq_eq_some h'
      obtain ⟨c, rest, rfl, hc, -⟩ := many_eq_some hi
      obtain ⟨more, tail, rfl, -, -, hmore, htail⟩ := span_split Char.isDigit rest
      by_cases hcomma : ∀ d after, tail = ',' :: d :: after → ¬ d.isDigit
      · rw [number_pattern hc hmore htail] at h'
        exact same (Option.some.inj h' ▸ first_number hc hmore htail hcomma)
      · -- the number is the part of the pattern before the comma
        simp only [Classical.not_forall, Classical.not_not] at hcomma
        obtain ⟨d, after, rfl, hd⟩ := hcomma
        obtain ⟨k, hk, hle⟩ := first_comma hc hmore htail rfl hd
        obtain ⟨-, rfl⟩ := Prod.mk.inj (Option.some.inj (hk.symm.trans h))
        rw [number_pattern hc hmore htail] at h'
        obtain rfl := Option.some.inj h'
        exact hle

end Kind

namespace Token
open Kind Pattern
variable {c : Char} {rest : List Char}

theorem scan_of_some {kind : Kind} {n : Nat} (h : first (c :: rest) = some (kind, n)) :
    scan c rest = (kind.token ((c :: rest).take n)).map (·, n - 1) := by
  rw [scan, h]

theorem scan_of_none (h : first (c :: rest) = none) :
    scan c rest = .error (.unknownSymbol (fragment (c :: rest))) := by
  rw [scan, h]

theorem scan_alpha (h : c.isAlpha) (rest : List Char) : scan c rest = .ok (scanName c rest) := by
  obtain ⟨more, tail, rfl, htake, -⟩ := span_split Char.isAlpha rest
  rw [scan_of_some (first_alpha h), scanName, htake, List.take_succ_cons, List.take_left]
  rfl

theorem token_whole {whole : List Char} (h : ∀ d ∈ whole, d.isDigit) :
    Kind.token .number whole = .ok (number (.constant (Decimal.ofDigits whole []).toFloat)) := by
  have hnil : ∀ d ∈ ([] : List Char).head?, ¬ d.isDigit := by simp
  obtain ⟨htake, hdrop⟩ := span_append h hnil
  rw [List.append_nil] at htake hdrop
  rw [Kind.token, htake, hdrop]
  rfl

theorem token_point {whole : List Char} (h : ∀ d ∈ whole, d.isDigit) (fraction : List Char) :
    Kind.token .number (whole ++ '.' :: fraction) =
      .ok (number (.constant (Decimal.ofDigits whole fraction).toFloat)) := by
  have hpoint : ∀ d ∈ ('.' :: fraction).head?, ¬ d.isDigit := by simp [Char.isDigit]
  obtain ⟨htake, hdrop⟩ := span_append h hpoint
  rw [Kind.token, htake, hdrop]
  rfl

theorem scan_digit (h : c.isDigit) (rest : List Char) : scan c rest = scanNumber c rest := by
  obtain ⟨more, tail, rfl, htake, hdrop, hmore, htail⟩ := span_split Char.isDigit rest
  have hall : ∀ d ∈ c :: more, d.isDigit := List.forall_mem_cons.mpr ⟨h, hmore⟩
  have hwhole (hcomma : ∀ d after, tail = ',' :: d :: after → ¬ d.isDigit)
      (hpoint : seq (oneOf ['.']) (many Char.isDigit) tail = none) :
      scan c (more ++ tail) =
        .ok (number (.constant (Decimal.ofDigits (c :: more) []).toFloat), more.length) := by
    rw [scan_of_some (first_number h hmore htail hcomma), hpoint, Option.getD_none, Nat.add_zero,
      List.take_succ_cons, List.take_left, token_whole hall]
    rfl
  simp only [scanNumber, htake, hdrop]
  split
  · next d after =>
      split
      · next hd =>
          obtain ⟨n, hn, -⟩ := first_comma h hmore htail rfl hd
          rw [scan_of_some hn]
          rfl
      · next hd =>
          refine hwhole (fun d' after' heq => ?_) (seq_of_none (oneOf_cons_of_not (by decide)) _)
          obtain ⟨rfl, -⟩ := List.cons.inj (List.cons.inj heq).2
          exact hd
  · next after =>
      have hcomma : ∀ d after', '.' :: after = ',' :: d :: after' → ¬ d.isDigit := nofun
      have hpoint : seq (oneOf ['.']) (many Char.isDigit) ('.' :: after) =
          (many Char.isDigit after).map (1 + ·) := seq_of_some rfl _
      obtain ⟨fraction, behind, rfl, hfraction, -⟩ := span_split Char.isDigit after
      rw [many, hfraction] at hpoint
      rw [hfraction]
      cases fraction with
      | nil => exact hwhole hcomma hpoint
      | cons d ds =>
          have hsplit : c :: (more ++ '.' :: (d :: ds ++ behind)) =
              (c :: more ++ '.' :: d :: ds) ++ behind := by simp
          have hlength : more.length + 1 + (1 + (d :: ds).length) =
              (c :: more ++ '.' :: d :: ds).length := by simp; omega
          rw [scan_of_some (first_number h hmore htail hcomma), hpoint, Option.map_some,
            Option.getD_some, hlength, hsplit, List.take_left, token_point hall]
          simp [Except.map, ← Nat.add_assoc, Nat.add_right_comm]
  · next hcomma hpoint =>
      refine hwhole (fun d after heq => absurd heq (hcomma _ _)) ?_
      cases tail with
      | nil => rfl
      | cons mark tail =>
          refine seq_of_none (oneOf_cons_of_not fun hmem => ?_) _
          obtain rfl := List.mem_singleton.mp hmem
          exact hpoint _ rfl

theorem scan_comparison (h : c ∈ ['<', '>', '=']) (rest : List Char) :
    scan c rest = .error (.unsupportedOperator
      (String.ofList (if rest.head? = some '=' then [c, '='] else [c]))) := by
  rw [scan_of_some (first_comparison h)]
  cases rest with
  | nil => rfl
  | cons d rest =>
      by_cases hd : d = '='
      · subst hd
        rfl
      · rw [oneOf_cons_of_not (by simpa using hd), List.head?_cons, if_neg (by simpa using hd)]
        rfl

theorem scan_star (rest : List Char) : scan '*' rest = dispatch '*' rest := by
  by_cases hstar : rest.head? = some '*'
  · obtain ⟨rest, rfl⟩ := List.head?_eq_some_iff.mp hstar
    rfl
  · rw [scan_of_some (first_star hstar)]
    exact (if_neg hstar).symm

theorem dispatch_of_not_mem (h : c ∉ operators) :
    dispatch c rest =
      if c.isDigit then scanNumber c rest
      else if c.isAlpha then .ok (scanName c rest)
      else .error (.unknownSymbol (fragment (c :: rest))) := by
  unfold dispatch
  split
  case h_11 => rfl
  all_goals exact absurd (by decide) h

/-- The ordered choice among the kinds is a distinction of the first character. -/
theorem scan_eq_dispatch (c : Char) (rest : List Char) : scan c rest = dispatch c rest := by
  by_cases hmem : c ∈ operators
  · simp only [operators, List.mem_cons, List.not_mem_nil, or_false] at hmem
    obtain rfl | rfl | rfl | rfl | rfl | rfl | rfl | rfl | rfl | rfl := hmem
    any_goals rfl
    · exact scan_star rest
    all_goals exact scan_comparison (by decide) rest
  · rw [dispatch_of_not_mem hmem]
    split
    · next hdigit => exact scan_digit hdigit rest
    · next hdigit =>
        split
        · next halpha => exact scan_alpha halpha rest
        · next halpha => exact scan_of_none (first_none hdigit halpha hmem)

end Token
end Formula
