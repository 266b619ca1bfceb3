import Formula.Proofs.Memo.Session
import Mathlib.Data.Finset.Card

/-!
What a memo keeps. A request uses a text if it reads it and the text is a formula, whatever comes of
its evaluation. The texts of the entries are always the first of those that have been used since the
memo was last cleared, each once and in the order of its last use: a hit moves a text to the front,
and what is dropped at the capacity was used before all that stay.
-/

namespace Formula

section Distinct
variable {α : Type} [DecidableEq α]

/-- Dropping elements of a list and dropping its repetitions can be done in either order. -/
theorem eraseDups_filter (l : List α) (p : α → Bool) :
    (l.filter p).eraseDups = l.eraseDups.filter p := by
  match l with
  | [] => rfl
  | a :: l =>
      have hlength : (l.filter (!· == a)).length < (a :: l).length :=
        Nat.lt_succ_of_le (List.length_filter_le _ l)
      have ih := eraseDups_filter (l.filter (!· == a)) p
      rw [List.eraseDups_cons]
      by_cases ha : p a
      · rw [List.filter_cons_of_pos ha, List.filter_cons_of_pos ha, List.eraseDups_cons,
          List.filter_comm, ih]
      · rw [List.filter_cons_of_neg ha, List.filter_cons_of_neg ha, ← ih, List.filter_filter]
        congr 1
        refine List.filter_congr fun b _ => ?_
        by_cases hb : b = a
        · simp [hb, ha]
        · simp [hb]
termination_by l.length
decreasing_by exact hlength

theorem eraseDups_cons_filter (a : α) (l : List α) :
    (a :: l).eraseDups = a :: l.eraseDups.filter (· != a) := by
  rw [List.eraseDups_cons, eraseDups_filter]
  rfl

theorem nodup_eraseDups (l : List α) : l.eraseDups.Nodup := by
  induction l with
  | nil => exact .nil
  | cons a l ih =>
      rw [eraseDups_cons_filter]
      exact .cons (by simp) (ih.filter _)

theorem length_eraseDups (l : List α) : l.eraseDups.length = l.toFinset.card := by
  rw [← List.toFinset_card_of_nodup (nodup_eraseDups l)]
  congr 1
  ext a
  simp

theorem take_filter_of_not_mem {l : List α} {a : α} {n : Nat} (h : a ∉ l.take n) :
    (l.filter (· != a)).take n = l.take n := by
  induction l generalizing n with
  | nil => rfl
  | cons b l ih =>
      cases n with
      | zero => rfl
      | succ n =>
          rw [List.take_succ_cons, List.mem_cons, not_or] at h
          have hb : b ≠ a := fun hb => h.1 hb.symm
          rw [List.filter_cons_of_pos (by simpa using hb), List.take_succ_cons, ih h.2,
            List.take_succ_cons]

/-- Without one of the first, the element behind them counts. -/
theorem take_filter_of_mem {l : List α} (hl : l.Nodup) {a : α} {n : Nat}
    (h : a ∈ l.take (n + 1)) :
    (l.filter (· != a)).take n = (l.take (n + 1)).filter (· != a) := by
  induction l generalizing n with
  | nil => simp
  | cons b l ih =>
      obtain ⟨hb, hl⟩ := List.nodup_cons.mp hl
      rw [List.take_succ_cons]
      by_cases hba : b = a
      · subst hba
        have hnone : b ∉ l.take n := fun hmem => hb (List.mem_of_mem_take hmem)
        rw [List.filter_cons_of_neg (by simp), List.filter_cons_of_neg (by simp),
          take_filter_of_not_mem hnone, List.filter_eq_self.mpr]
        exact fun c hc => by simpa using fun hcb : c = b => hnone (hcb ▸ hc)
      · have hmem : a ∈ l.take n := by
          rw [List.take_succ_cons] at h
          exact (List.mem_cons.mp h).resolve_left (Ne.symm hba)
        cases n with
        | zero => contradiction
        | succ n =>
            rw [List.filter_cons_of_pos (by simpa using hba), List.take_succ_cons, ih hl hmem,
              List.filter_cons_of_pos (by simpa using hba)]

/-- An element that is among the first `n` comes to the front of them. -/
theorem take_front_of_mem {l : List α} (hl : l.Nodup) {a : α} {n : Nat} (h : a ∈ l.take n) :
    (a :: l.filter (· != a)).take n = a :: (l.take n).filter (· != a) := by
  cases n with
  | zero => contradiction
  | succ n => rw [List.take_succ_cons, take_filter_of_mem hl h]

/-- An element that is not among the first `n` puts the last of them out. -/
theorem take_front_of_not_mem {l : List α} {a : α} {n : Nat} (h : a ∉ l.take n) :
    (a :: l.filter (· != a)).take n = (a :: l.take n).take n := by
  cases n with
  | zero => rfl
  | succ n =>
      have hless : a ∉ l.take n := fun hmem =>
        h (List.take_subset_take_left l (Nat.le_succ n) hmem)
      rw [List.take_succ_cons, List.take_succ_cons, take_filter_of_not_mem hless, List.take_take,
        Nat.min_eq_left (Nat.le_succ n)]

end Distinct

namespace Request

/-- The text that a request uses: it is read, and it is a formula. -/
def used (q : Request) : Option String := q.text.filter fun text => (Expr.ofText text).isOk

def isClear : Request → Bool
  | clear => true
  | _ => false

theorem used_of_ok {q : Request} {text : String} {e : Expr} (ht : q.text = some text)
    (h : Expr.ofText text = .ok e) : q.used = some text := by
  rw [used, ht, Option.filter_some, h]
  rfl

theorem used_of_error {q : Request} {text : String} {x : ParseError} (ht : q.text = some text)
    (h : Expr.ofText text = .error x) : q.used = none := by
  rw [used, ht, Option.filter_some, h]
  rfl

/-- A request either clears the memo or reads a text. -/
theorem isClear_or_text (q : Request) : q = .clear ∨ q.isClear = false ∧ ∃ t, q.text = some t := by
  cases q with
  | read t | evaluate t _ => exact .inr ⟨rfl, t, rfl⟩
  | clear => exact .inl rfl

end Request

/-- The texts that have been used since the last request to clear, the latest use first. -/
def usesSinceClear (qs : List Request) : List String :=
  (qs.reverse.takeWhile (!·.isClear)).filterMap Request.used

theorem usesSinceClear_clear (qs : List Request) : usesSinceClear (qs ++ [.clear]) = [] := by
  simp [usesSinceClear, Request.isClear]

theorem usesSinceClear_append (qs : List Request) {rs : List Request} (h : .clear ∉ rs) :
    usesSinceClear (qs ++ rs) = (rs.filterMap Request.used).reverse ++ usesSinceClear qs := by
  have hkept : ∀ q ∈ rs.reverse, (!q.isClear) = true := by
    intro q hq
    cases q with
    | read _ | evaluate _ _ => rfl
    | clear => exact absurd (List.mem_reverse.mp hq) h
  rw [usesSinceClear, List.reverse_append, List.takeWhile_append_of_pos hkept,
    List.filterMap_append, List.filterMap_reverse]
  rfl

theorem usesSinceClear_snoc (qs : List Request) {q : Request} (h : q ≠ .clear) :
    usesSinceClear (qs ++ [q]) = q.used.toList ++ usesSinceClear qs := by
  have hclear : .clear ∉ [q] := fun hmem => h (List.mem_singleton.mp hmem).symm
  rw [usesSinceClear_append qs hclear]
  cases hq : q.used <;> simp [hq]

theorem usesSinceClear_used (qs : List Request) {q : Request} {text : String}
    (h : q.used = some text) : usesSinceClear (qs ++ [q]) = text :: usesSinceClear qs := by
  have hq : q ≠ .clear := by
    rintro rfl
    contradiction
  rw [usesSinceClear_snoc qs hq, h]
  rfl

namespace Memo

section Texts
variable {κ : Type} [Cache Shared κ]

/-- The texts that are kept, the most recently used in front. -/
def texts (m : Memo κ) : List String := m.entries.map Prod.fst

theorem lookup_eq_none_iff {m : Memo κ} {text : String} :
    m.entries.lookup text = none ↔ text ∉ m.texts := by
  rw [List.lookup_eq_none_iff, texts, List.mem_map]
  constructor
  · rintro h ⟨p, hp, rfl⟩
    simpa using h p hp
  · intro h p hp
    simpa using fun heq : text = p.1 => h ⟨p, hp, heq.symm⟩

theorem mem_of_lookup {m : Memo κ} {text : String} {shared : Shared}
    (h : m.entries.lookup text = some shared) : (text, shared) ∈ m.entries := by
  obtain ⟨before, after, heq, -⟩ := List.lookup_eq_some_iff.mp h
  simp [heq]

theorem texts_front (shared : Shared) (m : Memo κ) (text : String) :
    ((text, shared) :: m.entries.filter (·.1 != text)).map Prod.fst =
      text :: m.texts.filter (· != text) := by
  rw [List.map_cons, texts, List.filter_map]
  rfl

theorem perform_snd {m : Memo κ} {q : Request} {text : String} (h : q.text = some text) :
    (m.perform q).2 = (m.read text).2 := by
  cases q with
  | read t | evaluate t _ =>
      obtain rfl := Option.some.inj h
      rfl
  | clear => contradiction

end Texts

variable {κ : Type} [Cache Shared κ] [LawfulCache κ] {m : Memo κ}

/-- All that a request can do to a memo: clear it, leave it, move an entry to the front, or put a
new one there. -/
theorem Faithful.perform_cases (h : m.Faithful) (q : Request) :
    (q = .clear ∧ (m.perform q).2.Holds m.capacity [] m.made) ∨
    (q ≠ .clear ∧ q.used = none ∧ (m.perform q).2.Holds m.capacity m.entries m.made) ∨
    (∃ text shared, q.used = some text ∧ m.entries.lookup text = some shared ∧
      (m.perform q).2.Holds m.capacity
        ((text, shared) :: m.entries.filter (·.1 != text)) m.made) ∨
    (∃ text e, q.used = some text ∧ text ∉ m.texts ∧
      (m.perform q).2.Holds m.capacity
        (((text, ⟨m.made, e⟩) :: m.entries).take m.capacity) (m.made + 1)) := by
  obtain rfl | ⟨hclear, text, ht⟩ := q.isClear_or_text
  · exact .inl ⟨rfl, h.holds.clear⟩
  · rw [perform_snd ht]
    obtain ⟨shared, hl, -, hr⟩ | ⟨e, hl, he, -, hr⟩ | ⟨x, -, hx, -, hr⟩ := h.holds.read_cases text
    · exact .inr (.inr (.inl ⟨text, shared, Request.used_of_ok ht (h.of_lookup hl), hl, hr⟩))
    · exact .inr (.inr (.inr ⟨text, e, Request.used_of_ok ht he, lookup_eq_none_iff.mp hl, hr⟩))
    · refine .inr (.inl ⟨?_, Request.used_of_error ht hx, hr⟩)
      rintro rfl
      contradiction

theorem Faithful.capacity_perform (h : m.Faithful) (q : Request) :
    (m.perform q).2.capacity = m.capacity := by
  obtain ⟨-, hr⟩ | ⟨-, -, hr⟩ | ⟨_, _, -, -, hr⟩ | ⟨_, _, -, -, hr⟩ := h.perform_cases q
  all_goals exact hr.capacity_eq

/-- The memo has been through the requests `qs`, and keeps what was used last in them. -/
structure Tracks (capacity : Nat) (qs : List Request) (m : Memo κ) : Prop where
  faithful : m.Faithful
  capacity_eq : m.capacity = capacity
  texts_eq : m.texts = (usesSinceClear qs).eraseDups.take capacity

theorem tracks_empty (capacity : Nat) : Tracks capacity [] ({ capacity } : Memo κ) where
  faithful := faithful_empty capacity
  capacity_eq := rfl
  texts_eq := by
    have h : ({ capacity } : Memo κ).Holds capacity [] 0 := holds_empty capacity
    rw [texts, h.entries_eq]
    exact List.take_nil.symm

theorem Tracks.perform {capacity : Nat} {qs : List Request} (h : Tracks capacity qs m)
    (q : Request) : Tracks capacity (qs ++ [q]) (m.perform q).2 := by
  refine ⟨h.faithful.perform q, (h.faithful.capacity_perform q).trans h.capacity_eq, ?_⟩
  have htexts := h.texts_eq
  obtain ⟨rfl, hr⟩ | ⟨hq, hused, hr⟩ | ⟨text, s, hused, hl, hr⟩ | ⟨text, e, hused, hnone, hr⟩ :=
    h.faithful.perform_cases q
  · rw [texts, hr.entries_eq, usesSinceClear_clear]
    exact List.take_nil.symm
  · rw [texts, hr.entries_eq, usesSinceClear_snoc qs hq, hused]
    exact htexts
  · have hmem : text ∈ m.texts := List.mem_map_of_mem (mem_of_lookup hl)
    rw [texts, hr.entries_eq, usesSinceClear_used qs hused, eraseDups_cons_filter, texts_front,
      htexts]
    rw [htexts] at hmem
    exact (take_front_of_mem (nodup_eraseDups _) hmem).symm
  · rw [texts, hr.entries_eq, usesSinceClear_used qs hused, eraseDups_cons_filter, List.map_take,
      h.capacity_eq]
    change (text :: m.texts).take capacity = _
    rw [htexts] at hnone ⊢
    exact (take_front_of_not_mem hnone).symm

theorem Tracks.run {capacity : Nat} {qs : List Request} (h : Tracks capacity qs m)
    (rs : List Request) : Tracks capacity (qs ++ rs) (m.run rs).2 := by
  induction rs generalizing m qs with
  | nil => rwa [List.append_nil]
  | cons q rs ih =>
      have hrest := ih (h.perform q)
      rwa [List.append_assoc] at hrest

theorem size_eq (m : Memo κ) : m.size = m.entries.length := by
  cases hc : m.cache with
  | none => rw [size, entries, hc]; rfl
  | some c => rw [size, entries, hc]; exact LawfulCache.size_eq c

/-- A memo keeps the texts that were used last, each once, and no more than its capacity. -/
theorem entries_run_recent (capacity : Nat) (qs : List Request) :
    (run ({ capacity } : Memo κ) qs).2.entries.map Prod.fst =
        (usesSinceClear qs).eraseDups.take capacity ∧
      ((run ({ capacity } : Memo κ) qs).2.entries.map Prod.fst).Nodup ∧
      (run ({ capacity } : Memo κ) qs).2.size =
        min capacity (usesSinceClear qs).toFinset.card := by
  have htracks : Tracks capacity qs (run ({ capacity } : Memo κ) qs).2 :=
    (tracks_empty capacity).run qs
  have htexts : (run ({ capacity } : Memo κ) qs).2.texts = _ := htracks.texts_eq
  refine ⟨htexts, ?_, ?_⟩
  · change (run ({ capacity } : Memo κ) qs).2.texts.Nodup
    rw [htexts]
    exact (nodup_eraseDups _).sublist (List.take_sublist _ _)
  · rw [size_eq, ← List.length_map Prod.fst, ← length_eraseDups, ← List.length_take]
    exact congrArg List.length htexts

/-- The second use of `a` saves it from the third text, which puts out `b`. -/
theorem entries_run_recent_third :
    (run ({ capacity := 2 } : Memo) [.read "a", .read "b", .evaluate "a" [], .read "$",
        .read "c"]).2.entries.map Prod.fst = ["c", "a"] ∧
      (run ({ capacity := 2 } : Memo) [.read "a", .read "b", .evaluate "a" [], .read "$",
        .read "c"]).2.size = 2 := by
  have huses : usesSinceClear [.read "a", .read "b", .evaluate "a" [], .read "$", .read "c"] =
      ["c", "a", "b", "a"] := rfl
  have h := @entries_run_recent (Recent Shared) _ _ 2
    [.read "a", .read "b", .evaluate "a" [], .read "$", .read "c"]
  rw [huses] at h
  exact ⟨h.1.trans (by decide), h.2.2.trans (by decide)⟩

end Memo
end Formula
