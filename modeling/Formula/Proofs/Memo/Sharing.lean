import Mathlib
import Formula.Proofs.Memo.Recency

/-!
When two readings of a text give the very same formula. A serial number is given once, so a formula
that has left the memo never comes back, even if its text is read anew. It stays from one reading to
the next exactly if its text is among the most recently used ones all the way, that is, if never as
many other texts as the memo can hold are used between two uses of it that follow each other.
-/

namespace Formula

section Position
variable {α : Type} [DecidableEq α]

/-- An element stands behind the distinct elements that come before it. -/
theorem mem_take_eraseDups_iff {us vs : List α} {a : α} {n : Nat} (h : a ∉ us) :
    a ∈ (us ++ a :: vs).eraseDups.take n ↔ us.toFinset.card < n := by
  obtain ⟨ws, hsplit⟩ : ∃ ws, (us ++ a :: vs).eraseDups = us.eraseDups ++ a :: ws := by
    rw [List.eraseDups_append, List.removeAll, List.filter_cons_of_pos (by simpa using h),
      List.eraseDups_cons]
    exact ⟨_, rfl⟩
  have hnone : a ∉ us.eraseDups.take n := fun hmem =>
    h (List.mem_eraseDups.mp (List.mem_of_mem_take hmem))
  rw [hsplit, List.take_append, List.mem_append, length_eraseDups]
  constructor
  · rintro (hmem | hmem)
    · exact absurd hmem hnone
    · have hne : n - us.toFinset.card ≠ 0 := by
        intro hzero
        simp [hzero] at hmem
      omega
  · intro hlt
    obtain ⟨k, hk⟩ : ∃ k, n - us.toFinset.card = k + 1 := ⟨n - us.toFinset.card - 1, by omega⟩
    rw [hk, List.take_succ_cons]
    exact .inr List.mem_cons_self

end Position

namespace Memo

section Run
variable {κ : Type} [Cache Shared κ] {m : Memo κ} {text : String} {shared : Shared}

theorem run_append_snd (m : Memo κ) (qs rs : List Request) :
    (m.run (qs ++ rs)).2 = ((m.run qs).2.run rs).2 := by
  induction qs generalizing m with
  | nil => rfl
  | cons q qs ih => exact ih (m.perform q).2

theorem getElem?_run (m : Memo κ) (qs : List Request) (q : Request) (rs : List Request) :
    (m.run (qs ++ q :: rs)).1[qs.length]? = some ((m.run qs).2.perform q).1 := by
  induction qs generalizing m with
  | nil => rfl
  | cons p qs ih => exact ih (m.perform p).2

/-- The serial numbers of all entries have been given. -/
def Numbered (m : Memo κ) : Prop :=
  ∀ text shared, (text, shared) ∈ m.entries → shared.serial < m.made

/-- The formula with that number was made for the text at some time, and is no longer there. -/
def Forgotten (text : String) (serial : Nat) (m : Memo κ) : Prop :=
  serial < m.made ∧ ∀ shared, (text, shared) ∈ m.entries → shared.serial ≠ serial

theorem Tracks.nodup {capacity : Nat} {qs : List Request} (h : Tracks capacity qs m) :
    m.texts.Nodup :=
  h.texts_eq ▸ (nodup_eraseDups _).sublist (List.take_sublist _ _)

theorem eq_of_mem_entries (h : m.texts.Nodup) {s : Shared} (hs : (text, s) ∈ m.entries)
    (hshared : (text, shared) ∈ m.entries) : s = shared :=
  (Prod.mk.inj (List.inj_on_of_nodup_map h hs hshared rfl)).2

end Run

variable {κ : Type} [Cache Shared κ] [LawfulCache κ] {m : Memo κ} {text : String} {shared : Shared}

/-- An entry was there before the request, or it is new and has the next serial number. -/
theorem Faithful.mem_entries_perform (h : m.Faithful) {q : Request}
    (hmem : (text, shared) ∈ (m.perform q).2.entries) :
    (text, shared) ∈ m.entries ∨
      text ∉ m.texts ∧ shared.serial = m.made ∧ (m.perform q).2.made = m.made + 1 := by
  obtain ⟨-, hr⟩ | ⟨-, -, hr⟩ | ⟨t, s, -, hl, hr⟩ | ⟨t, e, -, hnone, hr⟩ := h.perform_cases q
  · rw [hr.entries_eq] at hmem
    contradiction
  · rw [hr.entries_eq] at hmem
    exact .inl hmem
  · rw [hr.entries_eq] at hmem
    obtain heq | hmem := List.mem_cons.mp hmem
    · rw [heq]
      exact .inl (mem_of_lookup hl)
    · exact .inl (List.mem_filter.mp hmem).1
  · rw [hr.entries_eq] at hmem
    obtain heq | hmem := List.mem_cons.mp (List.mem_of_mem_take hmem)
    · obtain ⟨rfl, rfl⟩ := Prod.mk.inj heq
      exact .inr ⟨hnone, rfl, hr.made_eq⟩
    · exact .inl hmem

theorem Faithful.made_le_perform (h : m.Faithful) (q : Request) :
    m.made ≤ (m.perform q).2.made := by
  obtain ⟨-, hr⟩ | ⟨-, -, hr⟩ | ⟨_, _, -, -, hr⟩ | ⟨_, _, -, -, hr⟩ := h.perform_cases q
  all_goals
    have := hr.made_eq
    omega

/-- What a request keeps, a run keeps. -/
theorem Faithful.keeps_run (h : m.Faithful) {P : Memo κ → Prop}
    (step : ∀ ⦃m⦄ (q : Request), m.Faithful → P m → P (m.perform q).2) (hm : P m)
    (qs : List Request) : P (m.run qs).2 := by
  induction qs generalizing m with
  | nil => exact hm
  | cons q qs ih => exact ih (h.perform q) (step q h hm)

theorem Faithful.made_le_run (h : m.Faithful) (qs : List Request) :
    m.made ≤ (m.run qs).2.made :=
  h.keeps_run (P := fun m' => m.made ≤ m'.made)
    (fun _ q h' hle => Nat.le_trans hle (h'.made_le_perform q)) (Nat.le_refl _) qs

theorem Numbered.perform (hm : m.Numbered) (h : m.Faithful) (q : Request) :
    (m.perform q).2.Numbered := by
  intro text shared hmem
  obtain hold | ⟨-, hserial, hmade⟩ := h.mem_entries_perform hmem
  · exact Nat.lt_of_lt_of_le (hm text shared hold) (h.made_le_perform q)
  · omega

theorem Numbered.run (hm : m.Numbered) (h : m.Faithful) (qs : List Request) :
    (m.run qs).2.Numbered :=
  h.keeps_run (fun _ q h' hm' => hm'.perform h' q) hm qs

theorem Forgotten.perform {serial : Nat} (hm : Forgotten text serial m) (h : m.Faithful)
    (q : Request) : Forgotten text serial (m.perform q).2 := by
  refine ⟨Nat.lt_of_lt_of_le hm.1 (h.made_le_perform q), fun shared hmem => ?_⟩
  obtain hold | ⟨-, hserial, -⟩ := h.mem_entries_perform hmem
  · exact hm.2 shared hold
  · have := hm.1
    omega

theorem Forgotten.run {serial : Nat} (hm : Forgotten text serial m) (h : m.Faithful)
    (qs : List Request) : Forgotten text serial (m.run qs).2 :=
  h.keeps_run (fun _ q h' hm' => hm'.perform h' q) hm qs

theorem Forgotten.read {serial : Nat} (hm : Forgotten text serial m) (h : m.Faithful)
    (hr : (m.read text).1 = .ok shared) : shared.serial ≠ serial := by
  obtain ⟨s, hl, hread, -⟩ | ⟨e, -, -, hread, -⟩ | ⟨x, -, -, hread, -⟩ := h.holds.read_cases text
  · rw [hread] at hr
    obtain rfl := Except.ok.inj hr
    exact hm.2 s (mem_of_lookup hl)
  · rw [hread] at hr
    obtain rfl := Except.ok.inj hr
    exact Nat.ne_of_gt hm.1
  · rw [hread] at hr
    contradiction

theorem Tracks.read_of_mem {capacity : Nat} {qs : List Request} (h : Tracks capacity qs m)
    (hmem : (text, shared) ∈ m.entries) : (m.read text).1 = .ok shared := by
  have htext : text ∈ m.texts := List.mem_map_of_mem hmem
  obtain ⟨s, hl, hread, -⟩ | ⟨_, hl, -⟩ | ⟨_, hl, -⟩ := h.faithful.holds.read_cases text
  · rw [hread, eq_of_mem_entries h.nodup (mem_of_lookup hl) hmem]
  · exact absurd htext (lookup_eq_none_iff.mp hl)
  · exact absurd htext (lookup_eq_none_iff.mp hl)

/-- What a reading hands out is numbered, and it is what is kept of the text, if anything is. -/
theorem Numbered.read (hm : m.Numbered) (h : m.Faithful) {e : Expr}
    (he : Expr.ofText text = .ok e) :
    ∃ shared, (m.read text).1 = .ok shared ∧ shared.serial < (m.read text).2.made ∧
      (text ∈ (m.read text).2.texts → (text, shared) ∈ (m.read text).2.entries) := by
  obtain ⟨shared, hl, hread, hr⟩ | ⟨e, hl, -, hread, hr⟩ | ⟨x, -, hx, -, -⟩ :=
    h.holds.read_cases text
  · rw [hread, texts, hr.entries_eq, hr.made_eq]
    exact ⟨shared, rfl, hm text shared (mem_of_lookup hl), fun _ => List.mem_cons_self⟩
  · rw [hread, texts, hr.entries_eq, hr.made_eq]
    refine ⟨_, rfl, Nat.lt_succ_self _, fun hmem => ?_⟩
    obtain ⟨⟨t, s⟩, hentry, rfl⟩ := List.mem_map.mp hmem
    obtain heq | hold := List.mem_cons.mp (List.mem_of_mem_take hentry)
    · exact heq ▸ hentry
    · exact absurd (List.mem_map_of_mem hold) (lookup_eq_none_iff.mp hl)
  · rw [he] at hx
    contradiction

/-- A text that is kept keeps its formula. -/
theorem Tracks.mem_entries_perform {capacity : Nat} {qs : List Request} (h : Tracks capacity qs m)
    (hmem : (text, shared) ∈ m.entries) {q : Request} (hkept : text ∈ (m.perform q).2.texts) :
    (text, shared) ∈ (m.perform q).2.entries := by
  obtain ⟨⟨t, s⟩, hentry, rfl⟩ := List.mem_map.mp hkept
  obtain hold | ⟨hnew, -⟩ := h.faithful.mem_entries_perform hentry
  · obtain rfl := eq_of_mem_entries h.nodup hold hmem
    exact hentry
  · exact absurd (List.mem_map_of_mem hmem) hnew

theorem Tracks.mem_entries_run {capacity : Nat} {qs : List Request} (h : Tracks capacity qs m)
    (hmem : (text, shared) ∈ m.entries) {rs : List Request}
    (hkept : ∀ ps, ps <+: rs → text ∈ (m.run ps).2.texts) :
    (text, shared) ∈ (m.run rs).2.entries := by
  induction rs generalizing m qs with
  | nil => exact hmem
  | cons q rs ih =>
      have hfirst : text ∈ (m.perform q).2.texts := hkept [q] ⟨rs, rfl⟩
      refine ih (h.perform q) (h.mem_entries_perform hmem hfirst) fun ps hps => ?_
      exact hkept (q :: ps) (List.cons_prefix_cons.mpr ⟨rfl, hps⟩)

/-- Once a text has left, its formula is forgotten for good. -/
theorem Faithful.forgotten_run (h : m.Faithful) {serial : Nat} (hserial : serial < m.made)
    {ps rs : List Request} (hps : ps <+: rs) (hleft : text ∉ (m.run ps).2.texts) :
    Forgotten text serial (m.run rs).2 := by
  obtain ⟨more, rfl⟩ := hps
  rw [run_append_snd]
  refine Forgotten.run ⟨?_, fun shared hmem => ?_⟩ (h.run ps) more
  · exact Nat.lt_of_lt_of_le hserial (h.made_le_run ps)
  · exact absurd (List.mem_map_of_mem hmem) hleft

end Memo

section Window
variable {qs : List Request} {text : String} {n : Nat}

/-- The last use of a text among requests that use it. -/
theorem exists_last_use (h : ∃ q ∈ qs, q.used = some text) :
    ∃ front u between, qs = front ++ u :: between ∧ u.used = some text ∧
      ∀ q ∈ between, q.used ≠ some text := by
  induction qs with
  | nil => simp at h
  | cons p qs ih =>
      by_cases hlater : ∃ q ∈ qs, q.used = some text
      · obtain ⟨front, u, between, rfl, hu, hbetween⟩ := ih hlater
        exact ⟨p :: front, u, between, rfl, hu, hbetween⟩
      · obtain ⟨q, hq, hused⟩ := h
        obtain rfl | hq := List.mem_cons.mp hq
        · exact ⟨[], q, qs, rfl, hused, fun r hr hr' => hlater ⟨r, hr, hr'⟩⟩
        · exact absurd ⟨q, hq, hused⟩ hlater

/-- The first use of a text among requests that use it. -/
theorem exists_first_use (h : ∃ q ∈ qs, q.used = some text) :
    ∃ between v back, qs = between ++ v :: back ∧ v.used = some text ∧
      ∀ q ∈ between, q.used ≠ some text := by
  have hreverse : ∃ q ∈ qs.reverse, q.used = some text := by simpa using h
  obtain ⟨front, u, between, hsplit, hu, hbetween⟩ := exists_last_use hreverse
  refine ⟨between.reverse, u, front.reverse, ?_, hu, by simpa using hbetween⟩
  rw [← qs.reverse_reverse, hsplit]
  simp

/-- Between two uses of the text that follow each other, fewer than `n` other texts are used. -/
def UsedWithin (n : Nat) (text : String) (qs : List Request) : Prop :=
  ∀ front u between v back, qs = front ++ u :: (between ++ v :: back) →
    u.used = some text → v.used = some text → (∀ q ∈ between, q.used ≠ some text) →
      (between.filterMap Request.used).toFinset.card < n

/-- A text is among the most recent ones if fewer texts have been used since its last use. -/
theorem mem_recent_iff {front between : List Request} {u : Request} (hu : u.used = some text)
    (hbetween : ∀ q ∈ between, q.used ≠ some text) (hclear : .clear ∉ between) :
    text ∈ (usesSinceClear (front ++ u :: between)).eraseDups.take n ↔
      (between.filterMap Request.used).toFinset.card < n := by
  have hnone : text ∉ (between.filterMap Request.used).reverse := by
    rw [List.mem_reverse, List.mem_filterMap]
    rintro ⟨q, hq, hused⟩
    exact hbetween q hq hused
  rw [List.append_cons, usesSinceClear_append _ hclear, usesSinceClear_used front hu,
    mem_take_eraseDups_iff hnone, List.toFinset_reverse]

theorem clear_not_mem_between {ps front between : List Request} {u : Request}
    (hsplit : Request.read text :: ps = front ++ u :: between) (hclear : .clear ∉ ps) :
    .clear ∉ between := by
  intro hmem
  have hall : Request.clear ∈ Request.read text :: ps := by simp [hsplit, hmem]
  obtain heq | hmem := List.mem_cons.mp hall
  · contradiction
  · exact hclear hmem

/-- A text is used within so few others exactly if it is among the most recent ones all the way. -/
theorem forall_mem_recent_iff (before : List Request) {mid : List Request}
    (hused : (Request.read text).used = some text) :
    (∀ ps, ps <+: mid →
        text ∈ (usesSinceClear (before ++ .read text :: ps)).eraseDups.take n) ↔
      0 < n ∧ .clear ∉ mid ∧ UsedWithin n text (.read text :: (mid ++ [.read text])) := by
  constructor
  · intro h
    have hclear : .clear ∉ mid := by
      intro hclear
      obtain ⟨ps, more, rfl⟩ := List.append_of_mem hclear
      have hkept := h (ps ++ [.clear]) ⟨more, by simp⟩
      rw [← List.cons_append, ← List.append_assoc, usesSinceClear_clear] at hkept
      simp at hkept
    refine ⟨?_, hclear, fun front u between v back hsplit hu hv hbetween => ?_⟩
    · simpa using (mem_recent_iff hused (by simp) (by simp)).mp (h [] List.nil_prefix)
    · obtain ⟨ps, hps, hmid⟩ : ∃ ps, .read text :: ps = front ++ u :: between ∧
          mid ++ [.read text] = ps ++ v :: back := by
        cases front with
        | nil =>
            obtain ⟨rfl, hmid⟩ := List.cons.inj hsplit
            exact ⟨between, rfl, hmid⟩
        | cons f front =>
            obtain ⟨rfl, hmid⟩ := List.cons.inj hsplit
            exact ⟨front ++ u :: between, rfl, by simpa using hmid⟩
      have hmid' : ps <+: mid := by
        refine List.prefix_of_prefix_length_le ⟨v :: back, hmid.symm⟩ (List.prefix_append _ _) ?_
        have := congrArg List.length hmid
        simp only [List.length_append, List.length_cons, List.length_nil] at this
        omega
      have hnone := clear_not_mem_between hps fun hmem => hclear (hmid'.subset hmem)
      have hkept := h ps hmid'
      rwa [hps, ← List.append_assoc, mem_recent_iff hu hbetween hnone] at hkept
  · rintro ⟨-, hclear, hwithin⟩ ps ⟨more, rfl⟩
    obtain ⟨front, u, between, hps, hu, hbetween⟩ :=
      exists_last_use ⟨_, List.mem_cons_self (l := ps), hused⟩
    obtain ⟨between', v, back, hmore, hv, hbetween'⟩ :=
      exists_first_use ⟨_, List.mem_append_right more (List.mem_singleton_self _), hused⟩
    have hnone := clear_not_mem_between hps fun hmem => hclear (List.mem_append_left more hmem)
    have hlt := hwithin front u (between ++ between') v back
      (by rw [List.append_assoc, hmore, ← List.cons_append, hps]; simp) hu hv
      (List.forall_mem_append.mpr ⟨hbetween, hbetween'⟩)
    rw [hps, ← List.append_assoc, mem_recent_iff hu hbetween hnone]
    refine Nat.lt_of_le_of_lt (Finset.card_le_card ?_) hlt
    rw [List.filterMap_append, List.toFinset_append]
    exact Finset.subset_union_left

end Window

namespace Memo

section Shared
variable {κ : Type} [Cache Shared κ] [LawfulCache κ] {m : Memo κ} {text : String}

theorem numbered_empty (capacity : Nat) : ({ capacity } : Memo κ).Numbered := by
  have h : ({ capacity } : Memo κ).Holds capacity [] 0 := holds_empty capacity
  exact fun _ _ hmem => absurd (h.entries_eq ▸ hmem) List.not_mem_nil

/-- The second of two readings gives the formula of the first exactly if its text never leaves. -/
theorem Tracks.read_read_iff {capacity : Nat} {qs : List Request} (h : Tracks capacity qs m)
    (hm : m.Numbered) {e : Expr} (he : Expr.ofText text = .ok e) (mid : List Request) :
    ∃ first second, (m.read text).1 = .ok first ∧
      (((m.read text).2.run mid).2.read text).1 = .ok second ∧
      (second.serial = first.serial ↔
        ∀ ps, ps <+: mid → text ∈ ((m.read text).2.run ps).2.texts) := by
  have hread : Tracks capacity (qs ++ [.read text]) (m.read text).2 := h.perform (.read text)
  have hrun := hread.run mid
  obtain ⟨first, hfirst, hserial, hkept⟩ := hm.read h.faithful he
  obtain ⟨second, hsecond, -⟩ :=
    ((hm.perform h.faithful (.read text)).run hread.faithful mid).read hrun.faithful he
  refine ⟨first, second, hfirst, hsecond, fun heq ps hps => ?_, fun hall => ?_⟩
  · by_contra hleft
    exact (hread.faithful.forgotten_run hserial hps hleft).read hrun.faithful hsecond heq
  · have hmem := hread.mem_entries_run (hkept (hall [] List.nil_prefix)) hall
    have hsame := (hrun.read_of_mem hmem).symm.trans hsecond
    rw [Except.ok.inj hsame]

/-- Of two readings of a text, the second gives the formula of the first exactly if the memo keeps
formulas, was not cleared between them, and never saw too many other texts between two uses of the
text. -/
theorem run_shared_iff (capacity : Nat) (before mid after : List Request) (text : String) (e : Expr)
    (he : Expr.ofText text = .ok e) :
    ∃ first second,
      (run ({ capacity } : Memo κ) (before ++ .read text :: (mid ++ .read text :: after))).1[
          before.length]? = some (.formula (.ok first)) ∧
        (run ({ capacity } : Memo κ) (before ++ .read text :: (mid ++ .read text :: after))).1[
            before.length + mid.length + 1]? = some (.formula (.ok second)) ∧
        (second.serial = first.serial ↔
          0 < capacity ∧ .clear ∉ mid ∧
            UsedWithin capacity text (.read text :: (mid ++ [.read text]))) := by
  have htracks : Tracks capacity before (run ({ capacity } : Memo κ) before).2 :=
    (tracks_empty capacity).run before
  have hempty : ({ capacity } : Memo κ).Numbered := numbered_empty capacity
  have hnumbered := hempty.run (faithful_empty capacity) before
  obtain ⟨first, second, hfirst, hsecond, hiff⟩ := htracks.read_read_iff hnumbered he mid
  refine ⟨first, second, ?_, ?_, ?_⟩
  · rw [getElem?_run]
    exact congrArg (fun reply => some (Reply.formula reply)) hfirst
  · have hreply :=
      getElem?_run ({ capacity } : Memo κ) (before ++ .read text :: mid) (.read text) after
    rw [run_append_snd, List.append_assoc, List.length_append, List.length_cons] at hreply
    exact hreply.trans (congrArg (fun reply => some (Reply.formula reply)) hsecond)
  · rw [hiff, ← forall_mem_recent_iff before (Request.used_of_ok rfl he)]
    refine forall_congr' fun ps => imp_congr_right fun _ => ?_
    have hafter := (htracks.perform (.read text)).run ps
    rw [← List.append_cons] at hafter
    rw [← hafter.texts_eq]
    rfl

end Shared

/-- Two other texts are used between the readings of `a`, but only one at a time: an evaluation
that fails stands between them, and it uses `a` as well. -/
theorem run_shared_iff_refreshed :
    Expr.ofText "a" = .ok (.var "a") ∧
      ∃ first second,
        (run ({ capacity := 2 } : Memo)
            [.read "a", .read "b", .evaluate "a" [], .read "c", .read "a"]).1[0]? =
          some (.formula (.ok first)) ∧
          (run ({ capacity := 2 } : Memo)
              [.read "a", .read "b", .evaluate "a" [], .read "c", .read "a"]).1[4]? =
            some (.formula (.ok second)) ∧
          second.serial = first.serial ∧
          UsedWithin 2 "a" [.read "a", .read "b", .evaluate "a" [], .read "c", .read "a"] := by
  have he : Expr.ofText "a" = .ok (.var "a") := by cbv
  obtain ⟨first, second, hfirst, hsecond, hiff⟩ :=
    @run_shared_iff (Recent Shared) _ _ 2 [] [.read "b", .evaluate "a" [], .read "c"] [] "a" _ he
  have hmade : (run ({ capacity := 2 } : Memo)
      [.read "a", .read "b", .evaluate "a" [], .read "c", .read "a"]).1[0]? =
        some (.formula (.ok ⟨0, .var "a"⟩)) := rfl
  have hkept : (run ({ capacity := 2 } : Memo)
      [.read "a", .read "b", .evaluate "a" [], .read "c", .read "a"]).1[4]? =
        some (.formula (.ok ⟨0, .var "a"⟩)) := rfl
  have hsame : second.serial = first.serial := by
    obtain rfl : _ = first := Except.ok.inj (Reply.formula.inj (Option.some.inj
      (hmade.symm.trans hfirst)))
    obtain rfl : _ = second := Except.ok.inj (Reply.formula.inj (Option.some.inj
      (hkept.symm.trans hsecond)))
    rfl
  exact ⟨he, first, second, hfirst, hsecond, hsame, (hiff.mp hsame).2.2⟩

end Memo
end Formula
