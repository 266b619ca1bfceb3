import Formula.Cache
import Formula.Evaluation

/-!
A memo of the formulas that were read most recently. A text that is in its cache is not read again:
the formula of the last reading is handed out once more, and its serial number shows that it is the
same one. Texts that are no formula leave no trace. Which cache it is does not matter to the memo.
-/

namespace Formula

/-- A formula with the serial number of the reading that made it. -/
structure Shared where
  serial : Nat
  expr : Expr

structure Memo (κ : Type := Recent Shared) [Cache Shared κ] where
  /-- How many formulas are kept; with 0 every text is read anew. -/
  capacity : Nat := 100
  cache : Option κ := if capacity = 0 then none else some (Cache.new capacity)
  /-- How many formulas have been made, which is the next serial number. -/
  made : Nat := 0

namespace Memo

variable {κ : Type} [Cache Shared κ]

/-- The texts and their formulas, the most recently used in front. -/
def entries (m : Memo κ) : List (String × Shared) := m.cache.elim [] Cache.entries

/-- How many formulas are kept now. -/
def size (m : Memo κ) : Nat := m.cache.elim 0 Cache.size

/-- Forgets all formulas. Serial numbers go on. -/
def clear (m : Memo κ) : Memo κ := { m with cache := m.cache.map Cache.clear }

/-- Makes the formula of a text, which is kept if there is a cache. -/
def make (m : Memo κ) (text : String) : Except ParseError Shared × Memo κ :=
  match Expr.ofText text with
  | .ok expr =>
    let shared : Shared := { serial := m.made, expr }
    (.ok shared,
      { m with cache := m.cache.map (Cache.put · text shared), made := m.made + 1 })
  | .error e => (.error e, m)

/-- The formula of a text, the kept one if there is one. -/
def read (m : Memo κ) (text : String) : Except ParseError Shared × Memo κ :=
  match m.cache with
  | none => m.make text
  | some cache =>
    match Cache.get cache text with
    | (some shared, cache) => (.ok shared, { m with cache := some cache })
    | (none, cache) => make { m with cache := some cache } text

/-- The value of a text, whose formula is kept even if it has no value. -/
def evaluate (m : Memo κ) (text : String) (bindings : Bindings) :
    Except Failure Float × Memo κ :=
  let (shared, m) := m.read text
  (evaluateRead (shared.map Shared.expr) bindings, m)

end Memo
end Formula
