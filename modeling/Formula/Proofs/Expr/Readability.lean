import Formula.Proofs.Expr.RoundTrip
import Formula.Proofs.Number.Identity
import Formula.Proofs.Number.Value

/-!
Both written forms of a formula show which formula it is, however large it is and also where its
text could not be read back. The form of a formula ends at one place only, whatever stands behind
it: a leaf ends with its letters or digits, and an operation with the parenthesis after its right
operand.
-/

namespace Formula

/-- What a formula is, as far as the first character of its text shows it. -/
inductive Shape where
  | number
  | name
  | operation
  deriving DecidableEq, Repr

/-- The shape of the formulas whose text begins with the character. -/
def Shape.ofHead (c : Char) : Shape :=
  if c = '(' then operation else if c.isAlpha then name else number

theorem Operator.between_append_inj {op op' : Operator} {rest rest' : List Char}
    (h : op.between.toList ++ rest = op'.between.toList ++ rest') : op = op' ∧ rest = rest' := by
  cases op <;> cases op' <;> simp_all [between]

theorem Operator.nodeName_inj {op op' : Operator} (h : op.nodeName = op'.nodeName) : op = op' := by
  cases op <;> cases op' <;> first | rfl | simp [nodeName] at h

namespace Expr

/-- A formula whose names are made of letters and whose constants are all as stated. -/
def Plain (p : Float → Prop) : Expr → Prop
  | constant x => p x
  | var name => name ≠ "" ∧ ∀ c ∈ name.toList, c.isAlpha
  | binary _ l r => l.Plain p ∧ r.Plain p

def shape : Expr → Shape
  | constant _ => .number
  | var _ => .name
  | binary _ _ _ => .operation

/-- The word that the outline of a formula begins with. -/
def word : Expr → String
  | constant _ => "Constant"
  | var _ => "Variable"
  | binary op _ _ => op.nodeName

variable {p q : Float → Prop} {a b : Expr}

theorem Plain.mono (hpq : ∀ x, p x → q x) (h : a.Plain p) : a.Plain q := by
  induction a with
  | constant x => exact hpq x h
  | var name => exact h
  | binary op l r ihl ihr => exact ⟨ihl h.1, ihr h.2⟩

theorem name_append_inj {name name' : String} (h : (var name).Plain p) (h' : (var name').Plain p)
    {rest rest' : List Char} (hrest : ∀ c ∈ rest.head?, ¬ c.isAlpha)
    (hrest' : ∀ c ∈ rest'.head?, ¬ c.isAlpha)
    (heq : name.toList ++ rest = name'.toList ++ rest') : name = name' ∧ rest = rest' := by
  obtain ⟨hname, hmore⟩ := span_unique h.2 h'.2 hrest hrest' heq
  exact ⟨String.toList_inj.mp hname, hmore⟩

theorem text_binary (op : Operator) (l r : Expr) (rest : List Char) :
    (binary op l r).text.toList ++ rest =
      '(' :: (l.text.toList ++ (op.between.toList ++ (r.text.toList ++ ')' :: rest))) := by
  simp [text]

theorem shape_ofHead (h : a.Plain (·.isFinite)) :
    ∃ c cs, a.text.toList = c :: cs ∧ Shape.ofHead c = a.shape := by
  cases a with
  | constant x =>
      obtain ⟨whole, fraction, htext, ⟨hne, hwhole⟩, -, -⟩ := Number.pointedText_finite h
      obtain ⟨c, cs, rfl⟩ := List.exists_cons_of_ne_nil hne
      have hc := hwhole c List.mem_cons_self
      rw [text, htext, Number.signText]
      -- a sign of a constant is the first character, where no operator stands
      split
      · exact ⟨'-', _, rfl, rfl⟩
      · refine ⟨_, _, rfl, ?_⟩
        have hopen : c ≠ '(' := by
          rintro rfl
          contradiction
        have halpha : ¬ c.isAlpha := fun hletter => not_isDigit_of_isAlpha hletter hc
        rw [Shape.ofHead, if_neg hopen, if_neg halpha, shape]
  | var name =>
      obtain ⟨hne, hletters⟩ := h
      obtain ⟨c, cs, hname⟩ := List.exists_cons_of_ne_nil (mt String.toList_eq_nil_iff.mp hne)
      have hc := hletters c (hname ▸ List.mem_cons_self)
      have hopen : c ≠ '(' := by
        rintro rfl
        contradiction
      exact ⟨c, cs, hname, by rw [Shape.ofHead, if_neg hopen, if_pos hc, shape]⟩
  | binary op l r =>
      have htext := text_binary op l r []
      rw [List.append_nil] at htext
      exact ⟨'(', _, htext, rfl⟩

theorem shape_eq_of_text (ha : a.Plain (·.isFinite)) (hb : b.Plain (·.isFinite))
    {rest rest' : List Char} (h : a.text.toList ++ rest = b.text.toList ++ rest') :
    a.shape = b.shape := by
  obtain ⟨c, cs, htext, hshape⟩ := shape_ofHead ha
  obtain ⟨d, ds, htext', hshape'⟩ := shape_ofHead hb
  rw [htext, htext'] at h
  obtain rfl := (List.cons.inj h).1
  rw [← hshape, hshape']

/-- Finite constants and names end where no digit and no letter follows. -/
theorem text_append_inj (ha : a.Plain (·.isFinite)) (hb : b.Plain (·.isFinite))
    {rest rest' : List Char} (hrest : Apart rest) (hrest' : Apart rest')
    (h : a.text.toList ++ rest = b.text.toList ++ rest') : a = b ∧ rest = rest' := by
  induction a generalizing b rest rest' with
  | constant x =>
      have hshape := shape_eq_of_text ha hb h
      cases b with
      | constant y =>
          obtain ⟨rfl, hmore⟩ := Number.pointedText_append_inj (isNaN_eq_false ha)
            (isNaN_eq_false hb) (fun c hc => (hrest c hc).1) (fun c hc => (hrest' c hc).1) h
          exact ⟨rfl, hmore⟩
      | var _ | binary _ _ _ => contradiction
  | var name =>
      have hshape := shape_eq_of_text ha hb h
      cases b with
      | var name' =>
          obtain ⟨rfl, hmore⟩ := name_append_inj ha hb (fun c hc => (hrest c hc).2)
            (fun c hc => (hrest' c hc).2) h
          exact ⟨rfl, hmore⟩
      | constant _ | binary _ _ _ => contradiction
  | binary op l r ihl ihr =>
      have hshape := shape_eq_of_text ha hb h
      cases b with
      | constant _ | var _ => contradiction
      | binary op' l' r' =>
          have hclose (more : List Char) : Apart (')' :: more) := by simp [Apart, Char.isDigit]
          rw [text_binary, text_binary] at h
          obtain ⟨rfl, hmiddle⟩ := ihl ha.1 hb.1 (op.apart_between _) (op'.apart_between _)
            (List.cons.inj h).2
          obtain ⟨rfl, hright⟩ := Operator.between_append_inj hmiddle
          obtain ⟨rfl, hmore⟩ := ihr ha.2 hb.2 (hclose _) (hclose _) hright
          exact ⟨rfl, (List.cons.inj hmore).2⟩

theorem outline_constant (x : Float) (rest : List Char) :
    (constant x).outline.toList ++ rest =
      (constant x).word.toList ++ '(' :: ((Number.pointedText x).toList ++ ')' :: rest) := by
  simp [outline, word]

theorem outline_var (name : String) (rest : List Char) :
    (var name).outline.toList ++ rest =
      (var name).word.toList ++ '(' :: '\'' :: (name.toList ++ '\'' :: ')' :: rest) := by
  simp [outline, word]

theorem outline_binary (op : Operator) (l r : Expr) (rest : List Char) :
    (binary op l r).outline.toList ++ rest =
      (binary op l r).word.toList ++
        '(' :: (l.outline.toList ++ ',' :: ' ' :: (r.outline.toList ++ ')' :: rest)) := by
  simp [outline, word]

theorem isAlpha_word (e : Expr) : ∀ c ∈ e.word.toList, c.isAlpha := by
  cases e with
  | constant _ | var _ => simp [word]
  | binary op _ _ => cases op <;> simp [word, Operator.nodeName]

theorem word_append_inj {rest rest' : List Char}
    (h : a.word.toList ++ '(' :: rest = b.word.toList ++ '(' :: rest') :
    a.word = b.word ∧ rest = rest' := by
  have hopen (more : List Char) : ∀ c ∈ ('(' :: more).head?, ¬ c.isAlpha := by simp
  obtain ⟨hword, hmore⟩ := span_unique a.isAlpha_word b.isAlpha_word (hopen _) (hopen _) h
  exact ⟨String.toList_inj.mp hword, (List.cons.inj hmore).2⟩

theorem shape_eq_of_word_eq (h : a.word = b.word) : a.shape = b.shape := by
  cases a with
  | constant _ =>
      cases b with
      | constant _ => rfl
      | var _ => simp [word] at h
      | binary op _ _ => cases op <;> simp [word, Operator.nodeName] at h
  | var _ =>
      cases b with
      | constant _ => simp [word] at h
      | var _ => rfl
      | binary op _ _ => cases op <;> simp [word, Operator.nodeName] at h
  | binary op _ _ =>
      cases b with
      | constant _ | var _ => cases op <;> simp [word, Operator.nodeName] at h
      | binary _ _ _ => rfl

theorem outline_begins (e : Expr) (rest : List Char) :
    ∃ more, e.outline.toList ++ rest = e.word.toList ++ '(' :: more := by
  cases e with
  | constant x => exact ⟨_, outline_constant x rest⟩
  | var name => exact ⟨_, outline_var name rest⟩
  | binary op l r => exact ⟨_, outline_binary op l r rest⟩

theorem shape_eq_of_outline {rest rest' : List Char}
    (h : a.outline.toList ++ rest = b.outline.toList ++ rest') : a.shape = b.shape := by
  obtain ⟨more, hmore⟩ := a.outline_begins rest
  obtain ⟨more', hmore'⟩ := b.outline_begins rest'
  rw [hmore, hmore'] at h
  exact shape_eq_of_word_eq (word_append_inj h).1

/-- An outline ends with its last parenthesis, whatever follows it. -/
theorem outline_append_inj (ha : a.Plain (·.isNaN = false)) (hb : b.Plain (·.isNaN = false))
    {rest rest' : List Char} (h : a.outline.toList ++ rest = b.outline.toList ++ rest') :
    a = b ∧ rest = rest' := by
  induction a generalizing b rest rest' with
  | constant x =>
      have hshape := shape_eq_of_outline h
      cases b with
      | constant y =>
          have hclose (more : List Char) : ∀ c ∈ (')' :: more).head?, ¬ c.isDigit := by
            simp [Char.isDigit]
          rw [outline_constant, outline_constant] at h
          obtain ⟨rfl, hmore⟩ := Number.pointedText_append_inj ha hb (hclose _) (hclose _)
            (word_append_inj h).2
          exact ⟨rfl, (List.cons.inj hmore).2⟩
      | var _ | binary _ _ _ => contradiction
  | var name =>
      have hshape := shape_eq_of_outline h
      cases b with
      | var name' =>
          have hquote (more : List Char) : ∀ c ∈ ('\'' :: more).head?, ¬ c.isAlpha := by simp
          rw [outline_var, outline_var] at h
          obtain ⟨rfl, hmore⟩ := name_append_inj ha hb (hquote _) (hquote _)
            (List.cons.inj (word_append_inj h).2).2
          exact ⟨rfl, (List.cons.inj (List.cons.inj hmore).2).2⟩
      | constant _ | binary _ _ _ => contradiction
  | binary op l r ihl ihr =>
      have hshape := shape_eq_of_outline h
      cases b with
      | constant _ | var _ => contradiction
      | binary op' l' r' =>
          rw [outline_binary, outline_binary] at h
          obtain ⟨hword, hinner⟩ := word_append_inj h
          obtain rfl := Operator.nodeName_inj hword
          obtain ⟨rfl, hmiddle⟩ := ihl ha.1 hb.1 hinner
          obtain ⟨rfl, hmore⟩ := ihr ha.2 hb.2 (List.cons.inj (List.cons.inj hmiddle).2).2
          exact ⟨rfl, (List.cons.inj hmore).2⟩

/-- Apart from the zeros, only the same formulas are equal. -/
theorem beq_iff_eq (ha : a.Plain fun x => x.isNaN = false ∧ x ≠ -0.0)
    (hb : b.Plain fun x => x.isNaN = false ∧ x ≠ -0.0) : (a == b) = true ↔ a = b := by
  change a.beq b = true ↔ a = b
  induction a generalizing b with
  | constant x =>
      cases b with
      | constant y =>
          rw [constant.injEq]
          exact Number.beq_iff_eq ha.1 ha.2 hb.2
      | var _ | binary _ _ _ => simp [Expr.beq]
  | var name =>
      cases b with
      | var name' => simp [Expr.beq]
      | constant _ | binary _ _ _ => simp [Expr.beq]
  | binary op l r ihl ihr =>
      cases b with
      | constant _ | var _ => simp [Expr.beq]
      | binary op' l' r' => simp [Expr.beq, ihl ha.1 hb.1, ihr ha.2 hb.2, and_assoc]

/-- Formulas that are outlined alike are the same, and so are formulas with finite constants that
are written alike. -/
theorem eq_of_written_alike (a b : Expr) :
    (a.Plain (·.isNaN = false) → b.Plain (·.isNaN = false) → a.outline = b.outline → a = b) ∧
    (a.Plain (·.isFinite) → b.Plain (·.isFinite) → a.text = b.text → a = b) ∧
    ((a.Plain fun x => x.isNaN = false ∧ x ≠ -0.0) →
      (b.Plain fun x => x.isNaN = false ∧ x ≠ -0.0) →
        ((a == b) = true ↔ a.outline = b.outline)) := by
  have houtline (ha : a.Plain (·.isNaN = false)) (hb : b.Plain (·.isNaN = false))
      (h : a.outline = b.outline) : a = b :=
    (outline_append_inj ha hb (congrArg (·.toList ++ []) h)).1
  refine ⟨houtline, ?_, ?_⟩
  · intro ha hb h
    have hend : Apart [] := by simp [Apart]
    exact (text_append_inj ha hb hend hend (congrArg (·.toList ++ []) h)).1
  · intro ha hb
    rw [beq_iff_eq ha hb]
    constructor
    · intro h
      rw [h]
    · exact houtline (ha.mono fun _ hx => hx.1) (hb.mono fun _ hx => hx.1)

/-- A constant minus `x`. If the constant has a sign or is infinite, its text is read as something
else. -/
def less (x : Float) : Expr := binary .difference (constant x) (var "x")

theorem plain_less {x : Float} (h : p x) : (less x).Plain p :=
  ⟨h, by decide, List.all_eq_true.mp rfl⟩

theorem eq_of_written_alike_less :
    (less (1.0 / 0.0)).outline = "DifferenceOp(Constant(inf), Variable('x'))" ∧
    less (1.0 / 0.0) = less (Float.ofBits 0x7ff0000000000000) ∧
    (less (-2.5)).text = "(-2.5 - x)" ∧ less (-2.5) = less (0.0 - 2.5) ∧
    (less (-2.5) == less (0.0 - 2.5)) = true := by
  have hinf : (less (1.0 / 0.0)).outline = "DifferenceOp(Constant(inf), Variable('x'))" := by
    decide +kernel
  have htext : (less (-2.5)).text = "(-2.5 - x)" := by decide +kernel
  refine ⟨hinf, ?_, htext, ?_, ?_⟩
  · apply (eq_of_written_alike _ _).1 (plain_less (by decide)) (plain_less (by decide))
    rw [hinf]
    decide +kernel
  · apply (eq_of_written_alike _ _).2.1 (plain_less (by decide)) (plain_less (by decide))
    rw [htext]
    decide +kernel
  · apply ((eq_of_written_alike _ _).2.2 (plain_less ⟨by decide, by decide⟩)
      (plain_less ⟨by decide, by decide⟩)).mpr
    decide +kernel

end Expr
end Formula
