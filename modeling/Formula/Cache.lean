/-!
Stores of a limited number of values, each under a text. `Cache` says what a store can do, and
`LawfulCache` what it is relied on for: the values stand in the order of their last use, a value
that is asked for comes to the front, and a new one puts out the one used longest ago when there is
no room for both. A plain list is such a store.
-/

namespace Formula

class Cache (α : outParam Type) (κ : Type) where
  /-- An empty store with room for so many values. -/
  new : Nat → κ
  /-- For how many values there is room. -/
  capacity : κ → Nat
  /-- All texts with their values, the most recently used in front. -/
  entries : κ → List (String × α)
  /-- How many values are stored. -/
  size : κ → Nat
  /-- The value of a text, if it has one, and the store after this use of it. -/
  get : κ → String → Option α × κ
  put : κ → String → α → κ
  clear : κ → κ

/-- The laws of a store that forgets what was used longest ago. -/
class LawfulCache (κ : Type) {α : Type} [Cache α κ] : Prop where
  capacity_new {n : Nat} (h : 0 < n) : Cache.capacity (Cache.new n : κ) = n
  entries_new {n : Nat} (h : 0 < n) : Cache.entries (Cache.new n : κ) = []
  size_eq (c : κ) : Cache.size c = (Cache.entries c).length
  get_present {c : κ} {key : String} {value : α}
    (h : (Cache.entries c).lookup key = some value) :
    (Cache.get c key).1 = some value ∧
      Cache.entries (Cache.get c key).2 =
        (key, value) :: (Cache.entries c).filter (·.1 != key)
  get_absent {c : κ} {key : String} (h : (Cache.entries c).lookup key = none) :
    (Cache.get c key).1 = none ∧ Cache.entries (Cache.get c key).2 = Cache.entries c
  capacity_get (c : κ) (key : String) : Cache.capacity (Cache.get c key).2 = Cache.capacity c
  /-- What is over the capacity at the far end goes. -/
  put_absent {c : κ} {key : String} (h : (Cache.entries c).lookup key = none) (value : α) :
    Cache.entries (Cache.put c key value) =
      ((key, value) :: Cache.entries c).take (Cache.capacity c)
  capacity_put (c : κ) (key : String) (value : α) :
    Cache.capacity (Cache.put c key value) = Cache.capacity c
  entries_clear (c : κ) : Cache.entries (Cache.clear c) = []
  capacity_clear (c : κ) : Cache.capacity (Cache.clear c) = Cache.capacity c

/-- A store that is the list of its entries. -/
structure Recent (α : Type) where
  capacity : Nat
  entries : List (String × α)

namespace Recent

variable {α : Type} {c : Recent α} {key : String} {value : α}

/-- The entry of a text that is there comes to the front. -/
def get (c : Recent α) (key : String) : Option α × Recent α :=
  match c.entries.lookup key with
  | some value => (some value, { c with entries := (key, value) :: c.entries.filter (·.1 != key) })
  | none => (none, c)

/-- The entry of a text stands in front, whether or not it has had one before. -/
def put (c : Recent α) (key : String) (value : α) : Recent α :=
  { c with entries := ((key, value) :: c.entries.filter (·.1 != key)).take c.capacity }

theorem get_eq_some (h : c.entries.lookup key = some value) :
    c.get key =
      (some value, { c with entries := (key, value) :: c.entries.filter (·.1 != key) }) := by
  rw [get, h]

theorem get_eq_none (h : c.entries.lookup key = none) : c.get key = (none, c) := by
  rw [get, h]

theorem capacity_get (c : Recent α) (key : String) : (c.get key).2.capacity = c.capacity := by
  rw [get]
  split <;> rfl

theorem put_eq (h : c.entries.lookup key = none) (value : α) :
    c.put key value = { c with entries := ((key, value) :: c.entries).take c.capacity } := by
  have hother : c.entries.filter (·.1 != key) = c.entries := by
    refine List.filter_eq_self.mpr fun p hp => ?_
    have hne : key ≠ p.1 := by simpa using List.lookup_eq_none_iff.mp h p hp
    exact bne_iff_ne.mpr hne.symm
  rw [put, hother]

instance : Cache α (Recent α) where
  new capacity := { capacity, entries := [] }
  capacity := capacity
  entries := entries
  size c := c.entries.length
  get := get
  put := put
  clear c := { c with entries := [] }

instance : LawfulCache (Recent α) where
  capacity_new _ := rfl
  entries_new _ := rfl
  size_eq _ := rfl
  get_present h := ⟨congrArg Prod.fst (get_eq_some h), congrArg (·.2.entries) (get_eq_some h)⟩
  get_absent h := ⟨congrArg Prod.fst (get_eq_none h), congrArg (·.2.entries) (get_eq_none h)⟩
  capacity_get := capacity_get
  put_absent h value := congrArg entries (put_eq h value)
  capacity_put _ _ _ := rfl
  entries_clear _ := rfl
  capacity_clear _ := rfl

end Recent
end Formula
