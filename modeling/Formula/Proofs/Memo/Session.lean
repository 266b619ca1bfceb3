import Formula.Memo

/-!
A memo in use, with any cache that keeps the laws. Whatever has been asked of it before, and however
much it keeps, it answers as if every text were read anew: each entry holds what reading its text
gives, and no request breaks that.
-/

namespace Formula

/-- What can be asked of a memo. -/
inductive Request where
  | read (text : String)
  | evaluate (text : String) (bindings : Bindings)
  | clear

/-- What is answered, with a formula given as an `α`. -/
inductive Reply (α : Type) where
  | formula (result : Except ParseError α)
  | value (result : Except Failure Float)
  | cleared

namespace Reply

def map {α β : Type} (f : α → β) : Reply α → Reply β
  | formula result => formula (result.map f)
  | value result => value result
  | cleared => cleared

end Reply

namespace Request

/-- The text that a request has read. -/
def text : Request → Option String
  | read text | evaluate text _ => some text
  | clear => none

def answer : Request → Reply Expr
  | read text => .formula (Expr.ofText text)
  | evaluate text bindings => .value (Formula.evaluate text bindings)
  | clear => .cleared

end Request

namespace Memo

section Requests
variable {κ : Type} [Cache Shared κ]

def perform (m : Memo κ) : Request → Reply Shared × Memo κ
  | .read text => ((m.read text).map .formula id)
  | .evaluate text bindings => ((m.evaluate text bindings).map .value id)
  | .clear => (.cleared, m.clear)

/-- One request after the other, with the answers in their order. -/
def run (m : Memo κ) : List Request → List (Reply Shared) × Memo κ
  | [] => ([], m)
  | q :: qs => ((m.perform q).1 :: ((m.perform q).2.run qs).1, ((m.perform q).2.run qs).2)

/-- What there is to a memo, whatever its cache is like. There is room for as many formulas as are
to be kept, and no cache if these are none. -/
structure Holds (m : Memo κ) (capacity : Nat) (entries : List (String × Shared)) (made : Nat) :
    Prop where
  room : m.cache.elim 0 Cache.capacity = capacity
  capacity_eq : m.capacity = capacity
  entries_eq : m.entries = entries
  made_eq : m.made = made

theorem Holds.self {m : Memo κ} {capacity made : Nat} {kept : List (String × Shared)}
    (h : m.Holds capacity kept made) : m.Holds m.capacity m.entries m.made :=
  ⟨h.room.trans h.capacity_eq.symm, rfl, rfl, rfl⟩

/-- Every entry holds what its text is read as. -/
structure Faithful (m : Memo κ) : Prop where
  holds : m.Holds m.capacity m.entries m.made
  reads : ∀ text shared, (text, shared) ∈ m.entries → Expr.ofText text = .ok shared.expr

end Requests

variable {κ : Type} [Cache Shared κ] {m : Memo κ} {c : κ} {text : String} {shared : Shared}
  {e : Expr}

theorem read_of_none (hc : m.cache = none) (text : String) : m.read text = m.make text := by
  rw [Memo.read, hc]

theorem read_of_hit (hc : m.cache = some c) (hget : (Cache.get c text).1 = some shared) :
    m.read text = (.ok shared, { m with cache := some (Cache.get c text).2 }) := by
  simp only [Memo.read, hc]
  split
  · next found cache heq =>
      obtain rfl : found = shared := by simpa [heq] using hget
      rw [heq]
  · next heq => simp [heq] at hget

theorem read_of_miss (hc : m.cache = some c) (hget : (Cache.get c text).1 = none) :
    m.read text = make { m with cache := some (Cache.get c text).2 } text := by
  simp only [Memo.read, hc]
  split
  · next heq => simp [heq] at hget
  · next heq => rw [heq]

theorem make_of_error {x : ParseError} (hx : Expr.ofText text = .error x) :
    m.make text = (.error x, m) := by
  rw [make, hx]

theorem entries_of_some (hc : m.cache = some c) : m.entries = Cache.entries c := by
  rw [entries, hc, Option.elim]

theorem Faithful.of_lookup (h : m.Faithful) (hl : m.entries.lookup text = some shared) :
    Expr.ofText text = .ok shared.expr := by
  obtain ⟨before, after, heq, -⟩ := List.lookup_eq_some_iff.mp hl
  exact h.reads text shared (by simp [heq])

section Lawful
variable [LawfulCache κ]

theorem holds_empty (capacity : Nat) : ({ capacity } : Memo κ).Holds capacity [] 0 := by
  by_cases hzero : capacity = 0
  · refine ⟨?_, rfl, ?_, rfl⟩
    · simp [hzero]
    · simp [entries, hzero]
  · have hpos : 0 < capacity := Nat.pos_of_ne_zero hzero
    refine ⟨?_, rfl, ?_, rfl⟩
    · simp [hzero, LawfulCache.capacity_new hpos]
    · simp [entries, hzero, LawfulCache.entries_new hpos]

section Holds
variable {capacity made : Nat} {kept : List (String × Shared)}

theorem Holds.clear (h : m.Holds capacity kept made) : m.clear.Holds capacity [] made := by
  obtain ⟨hroom, hcapacity, -, hmade⟩ := h
  cases hc : m.cache with
  | none =>
      rw [hc] at hroom
      exact ⟨by rwa [Memo.clear, hc], hcapacity, by rw [entries, Memo.clear, hc]; rfl, hmade⟩
  | some c =>
      rw [hc] at hroom
      refine ⟨?_, hcapacity, ?_, hmade⟩
      · rw [Memo.clear, hc]
        exact (LawfulCache.capacity_clear c).trans hroom
      · rw [entries, Memo.clear, hc]
        exact LawfulCache.entries_clear c

/-- A formula that is made takes the next number, and the front if there is room for any. -/
theorem Holds.make (h : m.Holds capacity kept made) (hl : kept.lookup text = none)
    (he : Expr.ofText text = .ok e) :
    (m.make text).1 = .ok ⟨made, e⟩ ∧
      (m.make text).2.Holds capacity (((text, ⟨made, e⟩) :: kept).take capacity) (made + 1) := by
  obtain ⟨hroom, hcapacity, rfl, rfl⟩ := h
  rw [Memo.make, he]
  refine ⟨rfl, ?_⟩
  cases hc : m.cache with
  | none =>
      obtain rfl : 0 = capacity := by rwa [hc] at hroom
      exact ⟨rfl, hcapacity, by simp [entries], rfl⟩
  | some c =>
      obtain rfl : Cache.capacity c = capacity := by rwa [hc] at hroom
      rw [entries_of_some hc] at hl ⊢
      exact ⟨LawfulCache.capacity_put c text _, hcapacity, LawfulCache.put_absent hl _, rfl⟩

/-- An entry that is there is handed out and comes to the front. -/
theorem Holds.read_present (h : m.Holds capacity kept made) (hl : kept.lookup text = some shared) :
    (m.read text).1 = .ok shared ∧
      (m.read text).2.Holds capacity ((text, shared) :: kept.filter (·.1 != text)) made := by
  obtain ⟨hroom, hcapacity, rfl, rfl⟩ := h
  cases hc : m.cache with
  | none => simp [entries, hc] at hl
  | some c =>
      obtain rfl : Cache.capacity c = capacity := by rwa [hc] at hroom
      rw [entries_of_some hc] at hl ⊢
      obtain ⟨hget, hentries⟩ := LawfulCache.get_present hl
      rw [read_of_hit hc hget]
      exact ⟨rfl, LawfulCache.capacity_get c text, hcapacity, hentries, rfl⟩

/-- Where there is none, the text is read, by a memo whose cache has been asked in vain. -/
theorem Holds.read_absent (h : m.Holds capacity kept made) (hl : kept.lookup text = none) :
    ∃ m' : Memo κ, m'.Holds capacity kept made ∧ m.read text = m'.make text := by
  obtain ⟨hroom, hcapacity, rfl, rfl⟩ := h
  cases hc : m.cache with
  | none => exact ⟨m, ⟨hroom, hcapacity, rfl, rfl⟩, read_of_none hc text⟩
  | some c =>
      obtain rfl : Cache.capacity c = capacity := by rwa [hc] at hroom
      rw [entries_of_some hc] at hl ⊢
      obtain ⟨hget, hentries⟩ := LawfulCache.get_absent hl
      exact ⟨{ m with cache := some (Cache.get c text).2 },
        ⟨LawfulCache.capacity_get c text, hcapacity, hentries, rfl⟩, read_of_miss hc hget⟩

/-- All that reading a text can do: hand out an entry, make one, or leave no trace. -/
theorem Holds.read_cases (h : m.Holds capacity kept made) (text : String) :
    (∃ shared, kept.lookup text = some shared ∧ (m.read text).1 = .ok shared ∧
      (m.read text).2.Holds capacity ((text, shared) :: kept.filter (·.1 != text)) made) ∨
    (∃ e, kept.lookup text = none ∧ Expr.ofText text = .ok e ∧
      (m.read text).1 = .ok ⟨made, e⟩ ∧
      (m.read text).2.Holds capacity (((text, ⟨made, e⟩) :: kept).take capacity) (made + 1)) ∨
    (∃ x, kept.lookup text = none ∧ Expr.ofText text = .error x ∧
      (m.read text).1 = .error x ∧ (m.read text).2.Holds capacity kept made) := by
  cases hl : kept.lookup text with
  | some shared => exact .inl ⟨shared, rfl, h.read_present hl⟩
  | none =>
      obtain ⟨m', h', hread⟩ := h.read_absent hl
      rw [hread]
      cases he : Expr.ofText text with
      | ok e => exact .inr (.inl ⟨e, rfl, rfl, h'.make hl he⟩)
      | error x =>
          rw [make_of_error he]
          exact .inr (.inr ⟨x, rfl, rfl, rfl, h'⟩)

end Holds

theorem Faithful.read (h : m.Faithful) (text : String) : (m.read text).2.Faithful := by
  obtain ⟨shared, hl, -, hr⟩ | ⟨e, -, he, -, hr⟩ | ⟨x, -, -, -, hr⟩ := h.holds.read_cases text
  · refine ⟨hr.self, fun t s hs => ?_⟩
    rw [hr.entries_eq] at hs
    obtain heq | hs := List.mem_cons.mp hs
    · obtain ⟨rfl, rfl⟩ := Prod.mk.inj heq
      exact h.of_lookup hl
    · exact h.reads t s (List.mem_filter.mp hs).1
  · refine ⟨hr.self, fun t s hs => ?_⟩
    rw [hr.entries_eq] at hs
    obtain heq | hs := List.mem_cons.mp (List.mem_of_mem_take hs)
    · obtain ⟨rfl, rfl⟩ := Prod.mk.inj heq
      exact he
    · exact h.reads t s hs
  · exact ⟨hr.self, hr.entries_eq ▸ h.reads⟩

theorem Faithful.perform (h : m.Faithful) (q : Request) : (m.perform q).2.Faithful := by
  cases q with
  | read text | evaluate text _ => exact h.read text
  | clear =>
      have hr := h.holds.clear
      exact ⟨hr.self, fun t s hs => absurd (hr.entries_eq ▸ hs) List.not_mem_nil⟩

theorem Faithful.map_read (h : m.Faithful) (text : String) :
    (m.read text).1.map Shared.expr = Expr.ofText text := by
  obtain ⟨shared, hl, hr, -⟩ | ⟨e, -, he, hr, -⟩ | ⟨x, -, hx, hr, -⟩ := h.holds.read_cases text
  · rw [hr, h.of_lookup hl]
    rfl
  · rw [hr, he]
    rfl
  · rw [hr, hx]
    rfl

theorem Faithful.map_perform (h : m.Faithful) (q : Request) :
    (m.perform q).1.map Shared.expr = q.answer := by
  cases q with
  | read text => exact congrArg Reply.formula (h.map_read text)
  | evaluate text bindings =>
      change Reply.value (evaluateRead ((m.read text).1.map Shared.expr) bindings) = _
      rw [h.map_read text]
      rfl
  | clear => rfl

theorem Faithful.run (h : m.Faithful) (qs : List Request) : (m.run qs).2.Faithful := by
  induction qs generalizing m with
  | nil => exact h
  | cons q qs ih => exact ih (h.perform q)

theorem Faithful.map_run (h : m.Faithful) (qs : List Request) :
    (m.run qs).1.map (Reply.map Shared.expr) = qs.map Request.answer := by
  induction qs generalizing m with
  | nil => rfl
  | cons q qs ih =>
      rw [Memo.run, List.map_cons, List.map_cons, h.map_perform q, ih (h.perform q)]

theorem Faithful.perform_of_error (h : m.Faithful) {q : Request} {x : ParseError}
    (ht : q.text = some text) (hx : Expr.ofText text = .error x) :
    (m.perform q).2.Holds m.capacity m.entries m.made := by
  have hread : (m.read text).2.Holds m.capacity m.entries m.made := by
    obtain ⟨shared, hl, -⟩ | ⟨e, -, he, -⟩ | ⟨y, -, -, -, hr⟩ := h.holds.read_cases text
    · rw [h.of_lookup hl] at hx
      contradiction
    · rw [he] at hx
      contradiction
    · exact hr
  cases q with
  | read t | evaluate t _ =>
      obtain rfl : t = text := Option.some.inj ht
      exact hread
  | clear => contradiction

theorem faithful_empty (capacity : Nat) : ({ capacity } : Memo κ).Faithful := by
  have h : ({ capacity } : Memo κ).Holds capacity [] 0 := holds_empty capacity
  exact ⟨h.self, fun _ _ hs => absurd (h.entries_eq ▸ hs) List.not_mem_nil⟩

/-- The memo cannot be told from reading every text anew, however much it keeps. -/
theorem run_transparent (capacity : Nat) (qs : List Request) :
    (run ({ capacity } : Memo κ) qs).1.map (Reply.map Shared.expr) = qs.map Request.answer ∧
    (∀ text shared, (text, shared) ∈ (run ({ capacity } : Memo κ) qs).2.entries →
      Expr.ofText text = .ok shared.expr) ∧
    ∀ q text x, q.text = some text → Expr.ofText text = .error x →
      ((run ({ capacity } : Memo κ) qs).2.perform q).2.entries =
        (run ({ capacity } : Memo κ) qs).2.entries := by
  have h : ({ capacity } : Memo κ).Faithful := faithful_empty capacity
  exact ⟨h.map_run qs, (h.run qs).reads, fun _ _ _ ht hx =>
    ((h.run qs).perform_of_error ht hx).entries_eq⟩

end Lawful

/-- With room for one formula, the second text puts out the first, which is then read anew. -/
theorem run_transparent_crowded :
    (run ({ capacity := 1 } : Memo) [.read "a", .evaluate "b" [], .read "a"]).1.map
        (Reply.map Shared.expr) =
          [.formula (.ok (.var "a")), .value (.error (.evaluation (.unboundVariable "b"))),
            .formula (.ok (.var "a"))] ∧
      ((run ({ capacity := 1 } : Memo) [.read "a", .evaluate "b" []]).2.perform
        (.read "$")).2.entries = [("b", ⟨1, .var "b"⟩)] := by
  have hunknown : Expr.ofText "$" = .error (.unknownSymbol "$") := rfl
  refine ⟨(run_transparent 1 _).1.trans rfl, ?_⟩
  exact ((run_transparent 1 [.read "a", .evaluate "b" []]).2.2 _ "$" _ rfl hunknown).trans rfl

end Memo
end Formula
