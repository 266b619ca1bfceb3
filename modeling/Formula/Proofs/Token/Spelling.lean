import Formula.Proofs.Number.Nearest
import Formula.Proofs.Token.Choice

/-!
What the tokens look like, said without the scan that finds them. `Token.Spells` gives the
characters of each token together with what must not follow, so that no longer token stands in the
same place; `ParseError.Fits` gives the characters that each message is about. The scan finds
exactly the token that is spelled, and answers with exactly the message that fits.
-/

namespace Formula

/-- A run of digits, at least one. -/
def Digits (ds : List Char) : Prop := ds ≠ [] ∧ ∀ c ∈ ds, c.isDigit

/-- The characters `us` are the token, with `rest` behind them. -/
def Token.Spells : Token → List Char → List Char → Prop
  | openParen, us, _ => us = ['(']
  | closeParen, us, _ => us = [')']
  | sumOp symbol, us, _ => us = [symbol] ∧ (symbol = '+' ∨ symbol = '-')
  | prodOp symbol, us, rest =>
    us = [symbol] ∧ (symbol = '*' ∧ rest.head? ≠ some '*' ∨ symbol = '/')
  | powOp, us, _ => us = ['^']
  | name node, us, rest =>
    node = .var (String.ofList us) ∧ us ≠ [] ∧ (∀ c ∈ us, c.isAlpha) ∧
      ∀ c ∈ rest.head?, ¬ c.isAlpha
  | number node, us, rest =>
    ∃ whole fraction x, node = .constant x ∧ Decimal.Denotes whole fraction x ∧ Digits whole ∧
      (∀ c ∈ rest.head?, ¬ c.isDigit) ∧
      (us = whole ++ '.' :: fraction ∧ Digits fraction ∨
        us = whole ∧ fraction = [] ∧
          ∀ mark d after, rest = mark :: d :: after → mark = '.' ∨ mark = ',' → ¬ d.isDigit)

/-- A character that some token or some message about operators begins with. -/
def Begins (c : Char) : Prop :=
  c.isDigit ∨ c.isAlpha ∨ c ∈ ['(', ')', '+', '-', '*', '/', '^', '<', '>', '=']

/-- The error is about the characters that come next. -/
def ParseError.Fits (cs : List Char) : ParseError → Prop
  | unsupportedOperator symbol =>
    ∃ c rest, cs = c :: rest ∧ (c = '<' ∨ c = '>' ∨ c = '=') ∧
      symbol = String.ofList (if rest.head? = some '=' then [c, '='] else [c])
  | decimalComma => ∃ ds d rest, cs = ds ++ ',' :: d :: rest ∧ Digits ds ∧ d.isDigit
  | doubleStar => ∃ rest, cs = '*' :: '*' :: rest
  | unknownSymbol fragment =>
    (∃ c rest, cs = c :: rest ∧ ¬ Begins c) ∧
      fragment = String.ofList (cs.takeWhile (!isBlank ·))
  | _ => False

namespace Token

theorem digits_cons {c : Char} {ds : List Char} (hc : c.isDigit) (h : ∀ d ∈ ds, d.isDigit) :
    Digits (c :: ds) :=
  ⟨List.cons_ne_nil c ds, List.forall_mem_cons.mpr ⟨hc, h⟩⟩

theorem scanNumber_spells {c : Char} {rest : List Char} {t : Token} {n : Nat} (hc : c.isDigit)
    (h : scanNumber c rest = .ok (t, n)) : t.Spells (c :: rest.take n) (rest.drop n) := by
  obtain ⟨more, tail, rfl, htake, hdrop, hmore, htail⟩ := span_split Char.isDigit rest
  have hdigits := digits_cons hc hmore
  have whole (hmark : ∀ mark d after, tail = mark :: d :: after → mark = '.' ∨ mark = ',' →
      ¬ d.isDigit) : (number (.constant (Decimal.ofDigits (c :: more) []).toFloat)).Spells
      (c :: (more ++ tail).take more.length) ((more ++ tail).drop more.length) := by
    rw [List.take_left, List.drop_left]
    exact ⟨c :: more, [], _, rfl, Decimal.denotes_toFloat _ _, hdigits, htail,
      .inr ⟨rfl, rfl, hmark⟩⟩
  simp only [scanNumber, htake, hdrop] at h
  split at h
  · next d after =>
      split at h
      · contradiction
      · next hd =>
          obtain ⟨rfl, rfl⟩ : _ = t ∧ more.length = n := by simpa using h
          refine whole fun mark d' after' heq _ => ?_
          obtain ⟨-, rfl, -⟩ : ',' = mark ∧ d = d' ∧ after = after' := by simpa using heq
          exact hd
  · next after =>
      obtain ⟨fraction, tail, rfl, hf, -, hfraction, htail'⟩ := span_split Char.isDigit after
      rw [hf] at h
      split at h
      · obtain ⟨rfl, rfl⟩ : _ = t ∧ more.length = n := by simpa using h
        refine whole fun mark d' after' heq _ => ?_
        obtain ⟨-, rfl⟩ : '.' = mark ∧ tail = d' :: after' := by simpa using heq
        exact htail' d' rfl
      · next hne =>
          obtain ⟨rfl, rfl⟩ : _ = t ∧ more.length + 1 + fraction.length = n := by simpa using h
          have hsplit : more ++ '.' :: (fraction ++ tail) = (more ++ '.' :: fraction) ++ tail := by
            simp
          have hlength : more.length + 1 + fraction.length = (more ++ '.' :: fraction).length := by
            simp
            omega
          rw [hsplit, hlength, List.take_left, List.drop_left]
          exact ⟨c :: more, fraction, _, rfl, Decimal.denotes_toFloat _ _, hdigits, htail',
            .inl ⟨rfl, hne, hfraction⟩⟩
  · next hcomma hpoint =>
      obtain ⟨rfl, rfl⟩ : _ = t ∧ more.length = n := by simpa using h
      refine whole fun mark d after heq hmark => ?_
      obtain rfl | rfl := hmark
      · exact absurd heq (hpoint _)
      · exact absurd heq (hcomma _ _)

theorem scanName_spells {c : Char} (hc : c.isAlpha) (rest : List Char) :
    (scanName c rest).1.Spells (c :: rest.take (scanName c rest).2)
      (rest.drop (scanName c rest).2) := by
  obtain ⟨more, tail, rfl, htake, -, hmore, htail⟩ := span_split Char.isAlpha rest
  simp only [scanName, htake, List.take_left, List.drop_left]
  exact ⟨rfl, List.cons_ne_nil c more, List.forall_mem_cons.mpr ⟨hc, hmore⟩, htail⟩

theorem scan_spells {c : Char} {rest : List Char} {t : Token} {n : Nat}
    (h : scan c rest = .ok (t, n)) : t.Spells (c :: rest.take n) (rest.drop n) := by
  rw [scan_eq_dispatch] at h
  unfold dispatch at h
  split at h
  · obtain ⟨rfl, rfl⟩ : openParen = t ∧ 0 = n := by simpa using h
    rfl
  · obtain ⟨rfl, rfl⟩ : closeParen = t ∧ 0 = n := by simpa using h
    rfl
  · obtain ⟨rfl, rfl⟩ : sumOp '+' = t ∧ 0 = n := by simpa using h
    exact ⟨rfl, .inl rfl⟩
  · obtain ⟨rfl, rfl⟩ : sumOp '-' = t ∧ 0 = n := by simpa using h
    exact ⟨rfl, .inr rfl⟩
  · split at h
    · contradiction
    · next hstar =>
        obtain ⟨rfl, rfl⟩ : prodOp '*' = t ∧ 0 = n := by simpa using h
        exact ⟨rfl, .inl ⟨rfl, hstar⟩⟩
  · obtain ⟨rfl, rfl⟩ : prodOp '/' = t ∧ 0 = n := by simpa using h
    exact ⟨rfl, .inr rfl⟩
  · obtain ⟨rfl, rfl⟩ : powOp = t ∧ 0 = n := by simpa using h
    rfl
  · contradiction
  · contradiction
  · contradiction
  · split at h
    · next hd => exact scanNumber_spells hd h
    · split at h
      · next ha =>
          obtain ⟨rfl, rfl⟩ : (scanName c rest).1 = t ∧ (scanName c rest).2 = n := by
            simpa [Prod.ext_iff] using h
          exact scanName_spells ha rest
      · contradiction

section Number
variable {c : Char} {more rest : List Char} (hmore : ∀ d ∈ more, d.isDigit)
include hmore

theorem scanNumber_point {fraction : List Char} (hfraction : Digits fraction)
    (hstop : ∀ d ∈ rest.head?, ¬ d.isDigit) :
    scanNumber c (more ++ '.' :: (fraction ++ rest)) =
      .ok (number (.constant (Decimal.ofDigits (c :: more) fraction).toFloat),
        more.length + 1 + fraction.length) := by
  obtain ⟨hne, hdigits⟩ := hfraction
  have hpoint : ∀ d ∈ ('.' :: (fraction ++ rest)).head?, ¬ d.isDigit := by simp [Char.isDigit]
  obtain ⟨htake, hdrop⟩ := span_append hmore hpoint
  simp only [scanNumber, htake, hdrop, (span_append hdigits hstop).1]

theorem scanNumber_whole (hstop : ∀ d ∈ rest.head?, ¬ d.isDigit)
    (hmark : ∀ mark d after, rest = mark :: d :: after → mark = '.' ∨ mark = ',' → ¬ d.isDigit) :
    scanNumber c (more ++ rest) =
      .ok (number (.constant (Decimal.ofDigits (c :: more) []).toFloat), more.length) := by
  obtain ⟨htake, hdrop⟩ := span_append hmore hstop
  simp only [scanNumber, htake, hdrop]
  split
  · next d after => exact if_neg (hmark ',' d after rfl (.inr rfl))
  · next after =>
      have hnil : after.takeWhile Char.isDigit = [] := by
        cases after with
        | nil => rfl
        | cons d after => exact List.takeWhile_cons_of_neg (hmark '.' d after rfl (.inl rfl))
      rw [hnil]
  · rfl

end Number

theorem Spells.scan {t : Token} {c : Char} {us rest : List Char} (h : t.Spells (c :: us) rest) :
    scan c (us ++ rest) = .ok (t, us.length) := by
  cases t with
  | openParen | closeParen | powOp =>
      obtain ⟨rfl, rfl⟩ := List.cons.inj h
      rfl
  | sumOp symbol =>
      obtain ⟨heq, hsymbol⟩ := h
      obtain ⟨rfl, rfl⟩ := List.cons.inj heq
      obtain rfl | rfl := hsymbol <;> rfl
  | prodOp symbol =>
      obtain ⟨heq, hsymbol⟩ := h
      obtain ⟨rfl, rfl⟩ := List.cons.inj heq
      obtain ⟨rfl, hstar⟩ | rfl := hsymbol
      · rw [scan_eq_dispatch]
        exact if_neg hstar
      · rfl
  | name node =>
      obtain ⟨rfl, -, halpha, hstop⟩ := h
      have hus := (List.forall_mem_cons.mp halpha).2
      rw [scan_alpha (halpha c (by simp)), scanName, (span_append hus hstop).1]
  | number node =>
      obtain ⟨whole, fraction, x, rfl, hx, ⟨hne, hwhole⟩, hstop, hform⟩ := h
      obtain rfl := Decimal.denotes_iff.mp hx
      obtain ⟨heq, hfraction⟩ | ⟨rfl, rfl, hmark⟩ := hform
      · obtain ⟨d, more, rfl⟩ := List.exists_cons_of_ne_nil hne
        rw [List.cons_append] at heq
        obtain ⟨rfl, rfl⟩ := List.cons.inj heq
        obtain ⟨hc, hmore⟩ := List.forall_mem_cons.mp hwhole
        rw [scan_digit hc, List.append_assoc, List.cons_append,
          scanNumber_point hmore hfraction hstop, List.length_append, List.length_cons,
          Nat.add_right_comm, Nat.add_assoc]
      · obtain ⟨hc, hus⟩ := List.forall_mem_cons.mp hwhole
        rw [scan_digit hc]
        exact scanNumber_whole hus hstop hmark

theorem Spells.ne_nil {t : Token} {us rest : List Char} (h : t.Spells us rest) : us ≠ [] := by
  cases t with
  | openParen | closeParen | powOp => exact h ▸ List.cons_ne_nil _ _
  | sumOp _ | prodOp _ => exact h.1 ▸ List.cons_ne_nil _ _
  | name _ => exact h.2.1
  | number _ =>
      obtain ⟨whole, fraction, -, -, -, ⟨hne, -⟩, -, ⟨rfl, -⟩ | ⟨rfl, -⟩⟩ := h
      · simp [hne]
      · exact hne

/-- No kind of token takes more characters than are spelled. -/
theorem Spells.longest {t : Token} {us rest : List Char} (h : t.Spells us rest) {kind : Kind}
    {n : Nat} (hkind : kind.pattern (us ++ rest) = some n) : n ≤ us.length := by
  obtain ⟨c, us, rfl⟩ := List.exists_cons_of_ne_nil h.ne_nil
  have hscan := h.scan
  cases hfirst : Kind.first (c :: (us ++ rest)) with
  | none =>
      rw [scan_of_none hfirst] at hscan
      contradiction
  | some choice =>
      obtain ⟨chosen, m⟩ := choice
      have hpos := Kind.pattern_pos (Kind.first_pattern hfirst)
      have hlongest := Kind.first_longest hfirst hkind
      rw [scan_of_some hfirst] at hscan
      cases htoken : chosen.token ((c :: (us ++ rest)).take m) with
      | error x =>
          rw [htoken] at hscan
          contradiction
      | ok t' =>
          rw [htoken] at hscan
          obtain ⟨-, hlength⟩ := Prod.mk.inj (Except.ok.inj hscan)
          rw [List.length_cons]
          omega

/-- At the end of a text a character may be put that does not carry its last token on. -/
theorem Spells.append_cons {t : Token} {us rest : List Char} (h : t.Spells us rest) {c : Char}
    (hc : ¬ c.isDigit ∧ ¬ c.isAlpha ∧ c ≠ '.' ∧ c ≠ ',')
    (hstar : t = .prodOp '*' → rest = [] → c ≠ '*') (after : List Char) :
    t.Spells us (rest ++ c :: after) := by
  obtain ⟨hdigit, halpha, hpoint, hcomma⟩ := hc
  cases t with
  | openParen | closeParen | sumOp _ | powOp => exact h
  | prodOp symbol =>
      refine ⟨h.1, h.2.imp_left fun hprod => ⟨hprod.1, ?_⟩⟩
      cases rest with
      | nil =>
          rintro ⟨⟩
          exact hstar (congrArg Token.prodOp hprod.1) rfl rfl
      | cons d rest => exact hprod.2
  | name node =>
      refine ⟨h.1, h.2.1, h.2.2.1, ?_⟩
      cases rest with
      | nil =>
          rintro d ⟨⟩
          exact halpha
      | cons d rest => exact h.2.2.2
  | number node =>
      obtain ⟨whole, fraction, x, hnode, hx, hwhole, hstop, hform⟩ := h
      refine ⟨whole, fraction, x, hnode, hx, hwhole, ?_, hform.imp_right fun hlast =>
        ⟨hlast.1, hlast.2.1, ?_⟩⟩
      · cases rest with
        | nil =>
            rintro d ⟨⟩
            exact hdigit
        | cons d rest => exact hstop
      · intro mark d behind heq hmark
        cases rest with
        | nil =>
            obtain ⟨rfl, -⟩ := List.cons.inj heq
            exact absurd hmark (not_or.mpr ⟨hpoint, hcomma⟩)
        | cons e rest =>
            obtain ⟨rfl, htail⟩ := List.cons.inj heq
            cases rest with
            | nil =>
                obtain ⟨rfl, -⟩ := List.cons.inj htail
                exact hdigit
            | cons e' rest =>
                obtain ⟨rfl, -⟩ := List.cons.inj htail
                exact hlast.2.2 e e' rest rfl hmark
end Token

theorem Token.scanNumber_fits {c : Char} {rest : List Char} {x : ParseError} (hc : c.isDigit)
    (h : scanNumber c rest = .error x) : x.Fits (c :: rest) := by
  obtain ⟨more, tail, rfl, htake, hdrop, hmore, -⟩ := span_split Char.isDigit rest
  simp only [scanNumber, htake, hdrop] at h
  split at h
  · next d after =>
      split at h
      · next hd =>
          obtain rfl := Except.error.inj h
          exact ⟨c :: more, d, after, rfl, digits_cons hc hmore, hd⟩
      · contradiction
  · split at h <;> contradiction
  · contradiction

theorem Token.scan_fits {c : Char} {rest : List Char} {x : ParseError}
    (h : scan c rest = .error x) : x.Fits (c :: rest) := by
  rw [scan_eq_dispatch] at h
  unfold dispatch at h
  split at h
  any_goals contradiction
  · split at h
    · next hstar =>
        obtain rfl := Except.error.inj h
        obtain ⟨rest, rfl⟩ := List.head?_eq_some_iff.mp hstar
        exact ⟨rest, rfl⟩
    · contradiction
  · obtain rfl := Except.error.inj h
    exact ⟨_, _, rfl, .inl rfl, rfl⟩
  · obtain rfl := Except.error.inj h
    exact ⟨_, _, rfl, .inr (.inl rfl), rfl⟩
  · obtain rfl := Except.error.inj h
    exact ⟨_, _, rfl, .inr (.inr rfl), rfl⟩
  · split at h
    · next hd => exact scanNumber_fits hd h
    · split at h
      · contradiction
      · next hd ha =>
          obtain rfl := Except.error.inj h
          refine ⟨⟨c, rest, rfl, ?_⟩, rfl⟩
          simp_all [Begins]

theorem ParseError.Fits.scan {c : Char} {rest : List Char} {x : ParseError}
    (h : x.Fits (c :: rest)) : Token.scan c rest = .error x := by
  cases x with
  | unsupportedOperator symbol =>
      obtain ⟨d, tail, heq, hd, rfl⟩ := h
      obtain ⟨rfl, rfl⟩ := List.cons.inj heq
      rw [Token.scan_eq_dispatch]
      obtain rfl | rfl | rfl := hd <;> rfl
  | decimalComma =>
      obtain ⟨ds, d, after, heq, ⟨hne, hds⟩, hd⟩ := h
      obtain ⟨e, ds, rfl⟩ := List.exists_cons_of_ne_nil hne
      rw [List.cons_append] at heq
      obtain ⟨rfl, rfl⟩ := List.cons.inj heq
      obtain ⟨hc, hds⟩ := List.forall_mem_cons.mp hds
      have hcomma : ∀ c ∈ (',' :: d :: after).head?, ¬ c.isDigit := by simp [Char.isDigit]
      obtain ⟨htake, hdrop⟩ := span_append hds hcomma
      simp only [Token.scan_digit hc, Token.scanNumber, htake, hdrop]
      exact if_pos hd
  | doubleStar =>
      obtain ⟨tail, heq⟩ := h
      obtain ⟨rfl, rfl⟩ := List.cons.inj heq
      rfl
  | unknownSymbol fragment =>
      obtain ⟨⟨d, tail, heq, hd⟩, rfl⟩ := h
      obtain ⟨rfl, rfl⟩ := List.cons.inj heq
      simp only [Begins, not_or] at hd
      exact Token.scan_of_none (Kind.first_none hd.1 hd.2.1 hd.2.2)
  | _ => exact h.elim

namespace ParseError.Fits

theorem unique {c : Char} {rest : List Char} {x y : ParseError} (h : x.Fits (c :: rest))
    (h' : y.Fits (c :: rest)) : y = x :=
  Except.error.inj (h'.scan.symm.trans h.scan)

/-- No token is spelled where an error fits. -/
theorem not_spells {us rest : List Char} {x : ParseError} {t : Token} (h : x.Fits (us ++ rest)) :
    ¬ t.Spells us rest := by
  intro ht
  obtain ⟨c, us, rfl⟩ := List.exists_cons_of_ne_nil ht.ne_nil
  have hscan : Except.ok (t, us.length) = Except.error x := ht.scan.symm.trans h.scan
  contradiction

end ParseError.Fits
end Formula
