import Mathlib.Data.List.Sort
import Mathlib.Data.List.TakeWhile

/-!
# Sorted views of a collection

An ordered index shows a collection sorted by a key. Code that steps from an element to its
neighbours relies on one fact: every other element is at or beyond one of the two neighbours
(`beyond_neighbour`). Elements with equal keys stand in the order of the collection.

`Ranks` has the element at a place of a sorted list, found by counting: it is at least `m` where no
more elements than its rank are below `m`.
-/

namespace SortedView

open List

variable {α κ : Type*} [LinearOrder κ]

/-- The collection, sorted. -/
def view (key : α → κ) (l : List α) : List α := l.insertionSort fun a b => key a ≤ key b

variable {key : α → κ} {l : List α} {a b x : α}

theorem perm_view (key : α → κ) (l : List α) : (view key l).Perm l := perm_insertionSort _ l

@[simp] theorem mem_view (key : α → κ) : a ∈ view key l ↔ a ∈ l := (perm_view key l).mem_iff

theorem pairwise_view (key : α → κ) (l : List α) : (view key l).Pairwise fun a b =>
    key a ≤ key b := by
  exact pairwise_insertionSort _ l

/-- `begin()`. -/
def first (key : α → κ) (l : List α) : Option α := (view key l).head?

/-- `std::prev(end())`. -/
def last (key : α → κ) (l : List α) : Option α := (view key l).getLast?

theorem first_eq_none : first key l = none ↔ l = [] := by
  rw [first, head?_eq_none_iff, ← length_eq_zero_iff, (perm_view key l).length_eq,
    length_eq_zero_iff]

theorem last_eq_none : last key l = none ↔ l = [] := by
  rw [last, getLast?_eq_none_iff, ← length_eq_zero_iff, (perm_view key l).length_eq,
    length_eq_zero_iff]

theorem first_spec (h : first key l = some a) : a ∈ l ∧ ∀ x ∈ l, key a ≤ key x := by
  rw [first, head?_eq_some_iff] at h
  obtain ⟨rest, hrest⟩ := h
  have hsorted := pairwise_view key l
  rw [hrest, pairwise_cons] at hsorted
  refine ⟨(mem_view key).1 (hrest ▸ mem_cons_self), ?_⟩
  intro x hx
  rw [← mem_view key, hrest] at hx
  rcases mem_cons.1 hx with rfl | hx
  · exact le_rfl
  · exact hsorted.1 x hx

theorem last_spec (h : last key l = some a) : a ∈ l ∧ ∀ x ∈ l, key x ≤ key a := by
  rw [last, getLast?_eq_some_iff] at h
  obtain ⟨front, hfront⟩ := h
  have hsorted := pairwise_view key l
  rw [hfront, pairwise_append] at hsorted
  have hmem : a ∈ view key l := by simp [hfront]
  refine ⟨(mem_view key).1 hmem, ?_⟩
  intro x hx
  rw [← mem_view key, hfront] at hx
  rcases mem_append.1 hx with hx | hx
  · exact hsorted.2.2 x hx a (by simp)
  · rw [mem_singleton.1 hx]

/-! ## Ranges -/

variable {k : κ}

theorem mem_lowerBound : x ∈ (view key l).dropWhile (fun a => key a < k) ↔ x ∈ l ∧ k ≤ key x := by
  rw [← mem_view key (l := l)]
  have hsorted := pairwise_view key l
  generalize view key l = v at hsorted
  induction v with
  | nil => simp
  | cons b v ih =>
    rw [pairwise_cons] at hsorted
    by_cases hb : key b < k
    · rw [dropWhile_cons_of_pos (by simpa using hb), mem_cons]
      refine (ih hsorted.2).trans ?_
      refine and_congr_left fun hx => ⟨.inr, fun h => h.resolve_left fun h => ?_⟩
      rw [h] at hx
      exact absurd hb (not_lt.2 hx)
    · rw [dropWhile_cons_of_neg (by simpa using hb)]
      refine ⟨fun h => ⟨h, ?_⟩, fun h => h.1⟩
      rcases mem_cons.1 h with rfl | h
      · exact not_lt.1 hb
      · exact (not_lt.1 hb).trans (hsorted.1 x h)

theorem head_lowerBound (h : ((view key l).dropWhile fun a => key a < k).head? = some a) :
    a ∈ l ∧ k ≤ key a ∧ ∀ x ∈ l, k ≤ key x → key a ≤ key x := by
  obtain ⟨rest, hrest⟩ := head?_eq_some_iff.1 h
  have hsorted := (pairwise_view key l).sublist (dropWhile_sublist fun a => decide (key a < k))
  have ha := (mem_lowerBound (k := k)).1 (hrest ▸ mem_cons_self (a := a) (l := rest))
  refine ⟨ha.1, ha.2, fun x hx hk => ?_⟩
  have hx' := (mem_lowerBound (k := k)).2 ⟨hx, hk⟩
  rw [hrest] at hsorted hx'
  rcases mem_cons.1 hx' with rfl | hx'
  · exact le_rfl
  · exact (pairwise_cons.1 hsorted).1 x hx'

theorem head_lowerBound_eq_none (h : ((view key l).dropWhile fun a => key a < k).head? = none) :
    ∀ x ∈ l, ¬ k ≤ key x := by
  intro x hx hk
  have hx' := (mem_lowerBound (k := k)).2 ⟨hx, hk⟩
  rw [head?_eq_none_iff.1 h] at hx'
  cases hx'

variable {γ : Type*} {v : List α} {g : α → γ}

theorem mem_takeWhile_least [LinearOrder γ] {c : γ} (hsorted : v.Pairwise fun a b => g a ≤ g b)
    (hc : ∀ a ∈ v, c ≤ g a) : x ∈ v.takeWhile (fun a => g a = c) ↔ x ∈ v ∧ g x = c := by
  induction v with
  | nil => simp
  | cons b v ih =>
    rw [pairwise_cons] at hsorted
    by_cases hb : g b = c
    · rw [takeWhile_cons_of_pos (by simpa using hb), mem_cons,
        ih hsorted.2 fun a ha => hc a (mem_cons_of_mem b ha), mem_cons]
      constructor
      · intro h
        rcases h with rfl | h
        · exact ⟨.inl rfl, hb⟩
        · exact ⟨.inr h.1, h.2⟩
      · intro ⟨h, hx⟩
        exact h.imp_right fun h => ⟨h, hx⟩
    · rw [takeWhile_cons_of_neg (by simpa using hb)]
      refine ⟨fun h => absurd h (by simp), fun ⟨h, hx⟩ => ?_⟩
      have hlt : c < g b := lt_of_le_of_ne (hc b (by simp)) (Ne.symm hb)
      rcases mem_cons.1 h with rfl | h
      · exact absurd hx hb
      · exact absurd hx (hlt.trans_le (hsorted.1 x h)).ne'

theorem pairwise_of_sublist [LinearOrder γ] (hv : v.Sublist (view key l))
    (hg : ∀ a b, key a ≤ key b → g a ≤ g b) : v.Pairwise fun a b => g a ≤ g b :=
  ((pairwise_view key l).sublist hv).imp fun {a b} => hg a b

variable [DecidableEq α]

/-- The elements from `a` on. -/
def since (key : α → κ) (l : List α) (a : α) : List α := (view key l).dropWhile (· ≠ a)

/-- `std::next(it)`. -/
def next (key : α → κ) (l : List α) (a : α) : Option α := (since key l a).tail.head?

/-- `std::prev(it)`. -/
def prev (key : α → κ) (l : List α) (a : α) : Option α := ((view key l).takeWhile (· ≠ a)).getLast?

theorem since_eq_cons (h : a ∈ l) : since key l a = a :: (since key l a).tail := by
  have hmem : a ∈ view key l := (mem_view key).2 h
  rw [since]
  generalize view key l = v at hmem
  induction v with
  | nil => cases hmem
  | cons c v ih =>
    by_cases hc : c = a
    · simp [hc]
    · rw [dropWhile_cons_of_pos (by simpa using hc)]
      exact ih ((mem_cons.1 hmem).resolve_left (Ne.symm hc))

theorem view_split (h : a ∈ l) : view key l =
    (view key l).takeWhile (· ≠ a) ++ a :: (since key l a).tail := by
  rw [← since_eq_cons h, since, takeWhile_append_dropWhile]

theorem next_mem (h : next key l a = some b) : b ∈ l := by
  exact (mem_view key).1 ((dropWhile_sublist _).subset (mem_of_mem_tail (mem_of_mem_head? h)))

theorem prev_mem (h : prev key l a = some b) : b ∈ l := by
  exact (mem_view key).1 ((takeWhile_sublist _).subset (mem_of_mem_getLast? h))

theorem key_le_next (ha : a ∈ l) (h : next key l a = some b) : key a ≤ key b := by
  have hsorted := pairwise_view key l
  rw [view_split ha, pairwise_append, pairwise_cons] at hsorted
  exact hsorted.2.1.1 b (mem_of_mem_head? h)

theorem prev_le_key (ha : a ∈ l) (h : prev key l a = some b) : key b ≤ key a := by
  have hsorted := pairwise_view key l
  rw [view_split ha, pairwise_append] at hsorted
  exact hsorted.2.2 b (mem_of_mem_getLast? h) a (by simp)

theorem next_ne (hl : l.Nodup) (ha : a ∈ l) (h : next key l a = some b) : b ≠ a := by
  have hnodup := (perm_view key l).nodup_iff.2 hl
  rw [view_split ha, nodup_append, nodup_cons] at hnodup
  rintro rfl
  exact hnodup.2.1.1 (mem_of_mem_head? h)

theorem prev_ne (h : prev key l a = some b) : b ≠ a := by
  have := mem_takeWhile_imp (mem_of_mem_getLast? h)
  simpa using this

/-- Another element is at or before the one before, or at or after the one after. -/
theorem beyond_neighbour (key : α → κ) (ha : a ∈ l) (hx : x ∈ l) (hne : x ≠ a) :
    (∃ b, prev key l a = some b ∧ key x ≤ key b) ∨
      (x ∈ since key l a ∧ ∃ b, next key l a = some b ∧ key b ≤ key x) := by
  have hsorted := pairwise_view key l
  rw [← mem_view key, view_split ha, mem_append, mem_cons] at hx
  rw [view_split ha, pairwise_append, pairwise_cons] at hsorted
  obtain ⟨hbefore, ⟨-, hafter⟩, -⟩ := hsorted
  rcases hx with hx | rfl | hx
  · left
    obtain ⟨b, hb⟩ : ∃ b, prev key l a = some b := by
      rw [← Option.ne_none_iff_exists', prev, ne_eq, getLast?_eq_none_iff]
      exact ne_nil_of_mem hx
    refine ⟨b, hb, ?_⟩
    rw [prev, getLast?_eq_some_iff] at hb
    obtain ⟨front, hfront⟩ := hb
    rw [hfront] at hx hbefore
    rw [pairwise_append] at hbefore
    rcases mem_append.1 hx with hx | hx
    · exact hbefore.2.2 x hx b (by simp)
    · rw [mem_singleton.1 hx]
  · exact absurd rfl hne
  · refine .inr ⟨mem_of_mem_tail hx, ?_⟩
    cases hrest : (since key l a).tail with
    | nil =>
      rw [hrest] at hx
      cases hx
    | cons b rest =>
      rw [hrest] at hx hafter
      refine ⟨b, by rw [next, hrest]; rfl, ?_⟩
      rcases mem_cons.1 hx with rfl | hx
      · exact le_rfl
      · exact (pairwise_cons.1 hafter).1 x hx

end SortedView

namespace Ranks

open List

variable {α : Type*} [LinearOrder α] {l : List α} {k : Nat} {x m : α}

/-- The element of rank `k`. -/
def ranked (l : List α) (k : Nat) : Option α := (l.insertionSort (· ≤ ·))[k]?

theorem ranked_isSome (h : k < l.length) : (ranked l k).isSome := by
  simpa [ranked] using h

private theorem countP_sorted {s : List α} (hs : s.Pairwise (· ≤ ·)) (h : s[k]? = some x) :
    m ≤ x ↔ s.countP (· < m) ≤ k := by
  obtain ⟨hk, hx⟩ := List.getElem?_eq_some_iff.1 h
  have hsplit : s = s.take k ++ x :: s.drop (k + 1) := by
    rw [← hx, List.getElem_cons_drop, List.take_append_drop]
  have hlength : (s.take k).length = k := by
    rw [length_take]
    omega
  rw [hsplit, pairwise_append, pairwise_cons] at hs
  obtain ⟨-, ⟨htail, -⟩, hbefore⟩ := hs
  rw [hsplit, countP_append, countP_cons]
  by_cases hm : m ≤ x
  · -- nothing from the rank on is below `m`
    have hzero : (s.drop (k + 1)).countP (· < m) = 0 := by
      rw [countP_eq_zero]
      intro y hy
      simpa using hm.trans (htail y hy)
    have hfirst : (s.take k).countP (· < m) ≤ k := countP_le_length.trans_eq hlength
    simpa [hm, hzero, not_lt.2 hm] using hfirst
  · -- all up to the rank is below `m`
    have hall : (s.take k).countP (· < m) = k := by
      rw [countP_eq_length.2, hlength]
      intro y hy
      simpa using (hbefore y hy x (by simp)).trans_lt (not_le.1 hm)
    simp only [hall, hm, not_le.1 hm, decide_true, if_true, false_iff]
    omega

theorem le_ranked_iff (h : ranked l k = some x) : m ≤ x ↔ l.countP (· < m) ≤ k := by
  rw [← (perm_insertionSort (· ≤ ·) l).countP_eq]
  exact countP_sorted (pairwise_insertionSort (· ≤ ·) l) h

end Ranks
