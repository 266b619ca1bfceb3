import Formula.Proofs.Expr.Binding
import Formula.Proofs.Expr.Rereading

/-!
What becomes of the tokens of a formula. Each leaf and each operation of the tree stems from one
token, in the order of the text, and each token gives its leaf or its operation, except for
parentheses and for a plus that leads an operand. A minus that leads an operand gives a zero too,
which is the left operand of its difference.
-/

namespace Formula

namespace Token

/-- An operand has to come after the token. -/
def awaits : Token → Bool
  | closeParen | name _ | number _ => false
  | _ => true

/-- The character of a sign. -/
def symbol? : Token → Option Char
  | sumOp symbol | prodOp symbol => some symbol
  | powOp => some '^'
  | _ => none

end Token

/-- A token at its place. -/
structure Spot where
  token : Token
  /-- An operand comes next, so that a sign has none on its left. -/
  leading : Bool

/-- Tokens at their places in a formula, of which the first is leading or not. -/
def spots : Bool → List Token → List Spot
  | _, [] => []
  | leading, t :: ts => ⟨t, leading⟩ :: spots t.awaits ts

/-- Whether an operand has to come behind tokens. -/
def awaiting (leading : Bool) (ts : List Token) : Bool := ts.foldl (fun _ t => t.awaits) leading

namespace Spot

/-- The sign of an operation, which a leading plus is not. -/
def joins (p : Spot) : Bool :=
  match p.token.symbol? with
  | some symbol => !(p.leading && symbol == '+')
  | none => false

theorem joins_of_symbol {p : Spot} {symbol : Char} (h : p.token.symbol? = some symbol) :
    p.joins = !(p.leading && symbol == '+') := by
  rw [joins, h]

/-- The leaf that the token gives. -/
def leaf? (p : Spot) : Option Expr :=
  match p.token with
  | .name e | .number e => some e
  | .sumOp symbol => if p.leading && symbol == '-' then some (.constant 0.0) else none
  | _ => none

/-- The sign gives an operation with its left operand. -/
def Makes (p : Spot) (node : Operator × Expr) : Prop :=
  p.token.symbol? = some node.1.symbol ∧ (p.leading → node.2 = .constant 0.0)

end Spot

namespace Expr

def leaves : Expr → List Expr
  | constant x => [constant x]
  | var name => [var name]
  | binary _ l r => l.leaves ++ r.leaves

/-- The operations with their left operands, from left to right. -/
def nodes : Expr → List (Operator × Expr)
  | constant _ | var _ => []
  | binary op l r => l.nodes ++ (op, l) :: r.nodes

def name? : Expr → Option String
  | var name => some name
  | _ => none

def value? : Expr → Option Float
  | constant x => some x
  | _ => none

/-- The values of the constant leaves, from left to right. -/
def constants (e : Expr) : List Float := e.leaves.filterMap value?

theorem filterMap_name?_leaves (e : Expr) : e.leaves.filterMap name? = e.names := by
  induction e with
  | constant x | var name => rfl
  | binary op l r ihl ihr => rw [leaves, List.filterMap_append, ihl, ihr, names]

theorem length_nodes (e : Expr) : e.nodes.length = e.operations := by
  induction e with
  | constant x | var name => rfl
  | binary op l r ihl ihr =>
      rw [nodes, List.length_append, List.length_cons, ihl, ihr, operations, Nat.add_assoc]

/-- The formula has the leaves and the operations that the tokens give, in their order. -/
structure Keeps (e : Expr) (ps : List Spot) : Prop where
  leaves : e.leaves = ps.filterMap Spot.leaf?
  nodes : List.Forall₂ Spot.Makes (ps.filter Spot.joins) e.nodes

namespace Keeps
variable {e a b : Expr} {ps qs : List Spot} {op : Operator} {p : Spot}

theorem of_leaf (hleaf : p.leaf? = some e) (hjoins : p.joins = false) (hleaves : e.leaves = [e])
    (hnodes : e.nodes = []) : e.Keeps [p] where
  leaves := by simp [hleaf, hleaves]
  nodes := by simp [hjoins, hnodes]

/-- A token that gives nothing may stand before others. -/
theorem cons (hleaf : p.leaf? = none) (hjoins : p.joins = false) (h : e.Keeps ps) :
    e.Keeps (p :: ps) where
  leaves := by rw [List.filterMap_cons_none hleaf, h.leaves]
  nodes := by
    rw [List.filter_cons_of_neg (by simp [hjoins])]
    exact h.nodes

theorem snoc (hleaf : p.leaf? = none) (hjoins : p.joins = false) (h : e.Keeps ps) :
    e.Keeps (ps ++ [p]) where
  leaves := by rw [List.filterMap_append, List.filterMap_cons_none hleaf, h.leaves]; simp
  nodes := by
    rw [List.filter_append, List.filter_cons_of_neg (by simp [hjoins])]
    simpa using h.nodes

theorem binary {t : Token} (ht : t.symbol? = some op.symbol) (ha : a.Keeps ps)
    (hb : b.Keeps qs) : (binary op a b).Keeps (ps ++ ⟨t, false⟩ :: qs) where
  leaves := by
    have hleaf : Spot.leaf? ⟨t, false⟩ = none := by
      cases t <;> simp_all [Spot.leaf?, Token.symbol?]
    rw [List.filterMap_append, List.filterMap_cons_none hleaf, Expr.leaves, ha.leaves, hb.leaves]
  nodes := by
    have hjoins : Spot.joins ⟨t, false⟩ := by rw [Spot.joins_of_symbol ht]; rfl
    rw [List.filter_append, List.filter_cons_of_pos hjoins]
    exact List.rel_append ha.nodes (.cons ⟨ht, nofun⟩ hb.nodes)

theorem minus (h : e.Keeps ps) :
    (Expr.binary .difference (.constant 0.0) e).Keeps (⟨.sumOp '-', true⟩ :: ps) where
  leaves := congrArg (Expr.constant 0.0 :: ·) h.leaves
  nodes := .cons ⟨rfl, fun _ => rfl⟩ h.nodes

end Keeps
end Expr

theorem awaiting_append (leading : Bool) (ts us : List Token) :
    awaiting leading (ts ++ us) = awaiting (awaiting leading ts) us := List.foldl_append

theorem spots_append (leading : Bool) (ts us : List Token) :
    spots leading (ts ++ us) = spots leading ts ++ spots (awaiting leading ts) us := by
  induction ts generalizing leading with
  | nil => rfl
  | cons t ts ih => exact congrArg (_ :: ·) (ih t.awaits)

theorem map_token_spots (leading : Bool) (ts : List Token) :
    (spots leading ts).map Spot.token = ts := by
  induction ts generalizing leading with
  | nil => rfl
  | cons t ts ih => exact congrArg (t :: ·) (ih t.awaits)

namespace Category

/-- A phrase of the category begins with an operand. -/
def leading : Category → Bool
  | sums _ | products _ => false
  | _ => true

/-- The formula on the left, if there is one, has kept the tokens. -/
def Keeps (ps : List Spot) : Category → Prop
  | sums left | products left => left.Keeps ps
  | _ => ps = []

end Category

namespace Derives
variable {c : Category} {ts us : List Token} {e : Expr} {d k : Nat}

/-- No operand is missing at the end of a phrase. -/
theorem awaiting (h : Derives c ts e d k) : Formula.awaiting c.leading ts = false := by
  induction h with
  | sum first more ihfirst ihmore | product first more ihfirst ihmore =>
      rw [awaiting_append]
      exact ihfirst.symm ▸ ihmore
  | sumsDone | productsDone | name | number => rfl
  | sumsNext sign next more ihnext ihmore | productsNext sign next more ihnext ihmore =>
      rw [← List.cons_append, awaiting_append]
      exact ihnext.symm ▸ ihmore
  | plain operand ih | plus operand ih | minus operand ih | base value ih => exact ih
  | raised base power ihbase ihpower =>
      rw [awaiting_append]
      exact ihpower
  | group inner ih => rw [← List.cons_append, awaiting_append]; rfl

theorem spots_operand (h : Derives c ts e d k) (hc : c.leading) (us : List Token) :
    spots true (ts ++ us) = spots true ts ++ spots false us := by
  rw [spots_append, ← hc, h.awaiting]

/-- A phrase keeps its tokens behind those of the formula on its left. -/
theorem keeps (h : Derives c ts e d k) (hts : ∀ t ∈ ts, t.Spelled) {ps : List Spot}
    (hps : c.Keeps ps) : e.Keeps (ps ++ spots c.leading ts) := by
  -- `ps` grows with the formula on the left, from one operand of a sum or product to the next
  induction h generalizing ps with
  | sum first more ihfirst ihmore | product first more ihfirst ihmore =>
      obtain rfl : ps = [] := hps
      obtain ⟨hts, hus⟩ := List.forall_mem_append.mp hts
      simp only [Category.leading, first.spots_operand rfl]
      exact ihmore hus (ihfirst hts rfl)
  | sumsDone | productsDone => rwa [spots, List.append_nil]
  | sumsNext sign next more ihnext ihmore | productsNext sign next more ihnext ihmore =>
      obtain ⟨-, hts⟩ := List.forall_mem_cons.mp hts
      obtain ⟨hts, hus⟩ := List.forall_mem_append.mp hts
      simp only [Category.leading, spots, Token.awaits, next.spots_operand rfl]
      rw [← List.cons_append, ← List.append_assoc]
      exact ihmore hus (.binary rfl hps (ihnext hts rfl))
  | plain operand ih | base value ih => exact ih hts hps
  | plus operand ih =>
      obtain rfl : ps = [] := hps
      exact (ih (List.forall_mem_cons.mp hts).2 rfl).cons rfl rfl
  | minus operand ih =>
      obtain rfl : ps = [] := hps
      exact (ih (List.forall_mem_cons.mp hts).2 rfl).minus
  | raised base power ihbase ihpower =>
      obtain rfl : ps = [] := hps
      obtain ⟨hts, hus⟩ := List.forall_mem_append.mp hts
      simp only [Category.leading, base.spots_operand rfl]
      exact .binary rfl (ihbase hts rfl) (ihpower (List.forall_mem_cons.mp hus).2 rfl)
  | group inner ih =>
      obtain rfl : ps = [] := hps
      have hinner := ih (List.forall_mem_append.mp (List.forall_mem_cons.mp hts).2).1 rfl
      simp only [Category.leading, spots, Token.awaits, inner.spots_operand rfl]
      exact (hinner.snoc rfl rfl).cons rfl rfl
  | name =>
      obtain rfl : ps = [] := hps
      obtain ⟨us, rest, rfl, -⟩ := hts _ List.mem_cons_self
      exact .of_leaf rfl rfl rfl rfl
  | number =>
      obtain rfl : ps = [] := hps
      obtain ⟨us, rest, whole, fraction, x, rfl, -⟩ := hts _ List.mem_cons_self
      exact .of_leaf rfl rfl rfl rfl

end Derives

namespace Token

/-- The name of a variable token. -/
def name? : Token → Option String
  | name node => node.name?
  | _ => none

end Token

/-- The value of a constant token, and zero for a leading minus. -/
def Spot.value? (p : Spot) : Option Float :=
  match p.token with
  | .number node => node.value?
  | .sumOp symbol => if p.leading && symbol == '-' then some 0.0 else none
  | _ => none

section Spelled
variable {p : Spot} (h : p.token.Spelled)
include h

theorem bind_leaf?_name? : p.leaf?.bind Expr.name? = p.token.name? := by
  obtain ⟨t, leading⟩ := p
  cases t with
  | sumOp symbol =>
      simp only [Spot.leaf?]
      split <;> rfl
  | number node =>
      obtain ⟨us, rest, whole, fraction, x, rfl, -⟩ := h
      rfl
  | _ => rfl

theorem bind_leaf?_value? : p.leaf?.bind Expr.value? = p.value? := by
  obtain ⟨t, leading⟩ := p
  cases t with
  | sumOp symbol =>
      simp only [Spot.leaf?, Spot.value?]
      split <;> rfl
  | name node =>
      obtain ⟨us, rest, rfl, -⟩ := h
      rfl
  | _ => rfl

end Spelled

namespace Expr

/-- Nothing of the tokens `ts` is lost in the formula, and nothing is there twice or elsewhere. -/
structure Conserves (e : Expr) (ts : List Token) : Prop where
  names : e.names = ts.filterMap Token.name?
  vars : e.vars.Pairwise (· < ·) ∧ ∀ name, name ∈ e.vars ↔ name ∈ ts.filterMap Token.name?
  letters : ∀ name ∈ e.names, name ≠ "" ∧ ∀ c ∈ name.toList, c.isAlpha
  constants : e.constants = (spots true ts).filterMap Spot.value?
  unsigned : ∀ x ∈ e.constants, x.isNaN = false ∧ Number.isNegative x = false
  /-- Each sign but a leading plus has one operation, of its own kind, and a leading minus has one
  whose left operand is zero. -/
  nodes : List.Forall₂ Spot.Makes ((spots true ts).filter Spot.joins) e.nodes
  occurrences : ∀ op ≠ .sum,
    e.nodes.countP (·.1 = op) = ts.countP (·.symbol? = some op.symbol)
  sums : e.nodes.countP (·.1 = .sum) =
    (spots true ts).countP fun p => !p.leading && p.token.symbol? = some '+'
  bounded : e.nodes.length ≤ 1000

namespace Keeps
variable {e : Expr} {ps : List Spot}

theorem filterMap_leaves (h : e.Keeps ps) {α : Type} {f : Expr → Option α} {g : Spot → Option α}
    (hfg : ∀ p ∈ ps, p.leaf?.bind f = g p) : e.leaves.filterMap f = ps.filterMap g := by
  rw [h.leaves, List.filterMap_filterMap]
  exact List.filterMap_congr hfg

theorem countP_nodes (h : e.Keeps ps) (op : Operator) :
    e.nodes.countP (·.1 = op) =
      ps.countP fun p => decide (p.token.symbol? = some op.symbol) && p.joins := by
  have hsame (p : Spot) (node : Operator × Expr) (hp : p.Makes node) :
      decide (p.token.symbol? = some op.symbol) = true ↔ decide (node.1 = op) = true := by
    rw [hp.1, decide_eq_true_iff, decide_eq_true_iff, Option.some_inj, Operator.symbol_inj]
  have hnodes := List.rel_filter (fun p node => hsame p node) h.nodes
  rw [List.countP_eq_length_filter, ← hnodes.length_eq, ← List.countP_eq_length_filter,
    List.countP_filter]

end Keeps

section Typeable
variable {e : Expr} (h : e.Typeable)
include h

theorem Typeable.letters : ∀ name ∈ e.names, name ≠ "" ∧ ∀ c ∈ name.toList, c.isAlpha := by
  induction e with
  | constant x => exact nofun
  | var name => exact List.forall_mem_singleton.mpr h
  | binary op l r ihl ihr => exact List.forall_mem_append.mpr ⟨ihl h.1, ihr h.2⟩

theorem Typeable.unsigned : ∀ x ∈ e.constants, x.isNaN = false ∧ Number.isNegative x = false := by
  induction e with
  | constant x => exact List.forall_mem_singleton.mpr h
  | var name => exact nofun
  | binary op l r ihl ihr =>
      rw [constants, leaves, List.filterMap_append]
      exact List.forall_mem_append.mpr ⟨ihl h.1, ihr h.2⟩

end Typeable

theorem Keeps.conserves {e : Expr} {ts : List Token} (h : e.Keeps (spots true ts))
    (hts : ∀ t ∈ ts, t.Spelled) (he : e.Typeable) (hbounded : e.operations ≤ maxOperations) :
    e.Conserves ts := by
  have hspelled (p : Spot) (hp : p ∈ spots true ts) : p.token.Spelled :=
    hts _ (map_token_spots true ts ▸ List.mem_map_of_mem hp)
  have hnames : e.names = ts.filterMap Token.name? :=
    calc e.names = e.leaves.filterMap name? := e.filterMap_name?_leaves.symm
      _ = (spots true ts).filterMap (Token.name? ∘ Spot.token) :=
          h.filterMap_leaves fun p hp => bind_leaf?_name? (hspelled p hp)
      _ = ts.filterMap Token.name? := by rw [← List.filterMap_map, map_token_spots]
  exact {
    names := hnames
    vars := ⟨e.pairwise_vars, fun name => by rw [mem_vars, hnames]⟩
    letters := he.letters
    constants := h.filterMap_leaves fun p hp => bind_leaf?_value? (hspelled p hp)
    unsigned := he.unsigned
    nodes := h.nodes
    occurrences := by
      intro op hop
      rw [h.countP_nodes]
      conv => rhs; rw [← map_token_spots true ts, List.countP_map]
      refine List.countP_congr fun p _ => ?_
      simp only [Function.comp_apply, Bool.and_eq_true, decide_eq_true_iff]
      refine and_iff_left_of_imp fun hsymbol => ?_
      have hplus : op.symbol ≠ '+' := fun heq => hop (Operator.symbol_inj.mp heq)
      simp [Spot.joins_of_symbol hsymbol, hplus]
    sums := by
      rw [h.countP_nodes]
      refine List.countP_congr fun p _ => ?_
      simp only [Bool.and_eq_true, decide_eq_true_iff]
      rw [and_comm]
      change _ ∧ p.token.symbol? = some '+' ↔ _
      refine and_congr_left fun hsymbol => ?_
      simp [Spot.joins_of_symbol hsymbol]
    bounded := e.length_nodes ▸ hbounded
  }

/-- Nothing of a text is lost, doubled or moved in what it is read as. -/
theorem ofText_conserves {text : String} {e : Expr} (h : ofText text = .ok e) :
    ∃ ts, (Scanner.ofText text).tokens = ts.map .ok ∧ e.Conserves ts := by
  obtain ⟨ts, d, k, htokens, hderives, hspelled, -⟩ := derives_of_ofText h
  obtain ⟨he, hbounded⟩ := typeable_of_ofText h
  have hkeeps : e.Keeps (spots true ts) := hderives.keeps hspelled rfl
  exact ⟨ts, htokens, hkeeps.conserves hspelled he hbounded⟩

theorem ofText_conserves_signs :
    ∃ two, ofText "2*-x++y" = .ok (binary .sum (binary .product (constant two)
        (binary .difference (constant 0.0) (var "x"))) (var "y")) ∧
      ∃ ts, (Scanner.ofText "2*-x++y").tokens = ts.map .ok ∧
        Conserves (binary .sum (binary .product (constant two)
          (binary .difference (constant 0.0) (var "x"))) (var "y")) ts := by
  have hdigits : Digits ['2'] := ⟨by simp, by simp [Char.isDigit]⟩
  have hspells : (Token.number (constant (Decimal.ofDigits ['2'] []).toFloat)).Spells ['2']
      "*-x++y".toList :=
    ⟨['2'], [], _, rfl, Decimal.denotes_toFloat _ _, hdigits, by simp [Char.isDigit],
      .inr ⟨rfl, rfl, by simp [Char.isDigit]⟩⟩
  have hrest : Scanner.tokens ⟨"*-x++y".toList, 1⟩ = [.prodOp '*', .sumOp '-',
      .name (.var "x"), .sumOp '+', .sumOp '+', .name (.var "y")].map .ok := by cbv
  have htokens : (Scanner.ofText "2*-x++y").tokens =
      (_ :: [Token.prodOp '*', .sumOp '-', .name (.var "x"), .sumOp '+', .sumOp '+',
        .name (.var "y")]).map .ok :=
    (Scanner.tokens_spells_first hspells 0).trans (congrArg _ hrest)
  have hread : ofText "2*-x++y" = .ok _ := (ofText_of_tokens htokens).trans rfl
  exact ⟨_, hread, ofText_conserves hread⟩

end Expr
end Formula
