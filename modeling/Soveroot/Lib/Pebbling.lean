import Mathlib.Algebra.BigOperators.Group.Finset.Piecewise
import Mathlib.Algebra.Order.BigOperators.Group.Finset
import Mathlib.Data.Finset.Card

/-!
# Replaying with bounded storage

A stream of events writes values and reads them again. A value that has been dropped is regained by
replaying its producer, which gives all that the producer wrote. `Run` are the ways through the
stream that keep a bounded number of values between events, by how many replays they make; what a
replay reads is not asked for. At any cut of the stream the values still to be read are kept or
replayed after the cut (`Run.exists_replayed`).
-/

namespace Pebbling

open List Finset

variable {ε α β : Type}

section Run

variable (reads writes : ε → Option α) (producer : α → Option β) (capacity : Nat)

/-- The ways through the events to come, from the values kept to the number of replays. Before an
event some producers are replayed; what is read is kept or comes from one of them, and what is kept
afterwards was kept, or written by the event, or comes from one of them. -/
inductive Run : Finset α → List ε → Nat → Prop
  | done (kept : Finset α) : Run kept [] 0
  | event {kept kept' : Finset α} {e : ε} {es : List ε} {replayed : List β} {n : Nat} :
      (∀ v ∈ reads e, v ∈ kept ∨ ∃ p ∈ replayed, producer v = some p) →
      (∀ v ∈ kept', v ∈ kept ∨ v ∈ writes e ∨ ∃ p ∈ replayed, producer v = some p) →
      kept'.card ≤ capacity → Run kept' es n → Run kept (e :: es) (replayed.length + n)

end Run

variable {reads writes : ε → Option α} {producer : α → Option β} {capacity n : Nat}
  {kept : Finset α} {es es₁ es₂ : List ε}

theorem Run.cut (h : Run reads writes producer capacity kept (es₁ ++ es₂) n)
    (hkept : kept.card ≤ capacity) :
    ∃ kept' m, kept'.card ≤ capacity ∧ m ≤ n ∧ Run reads writes producer capacity kept' es₂ m := by
  induction es₁ generalizing kept n with
  | nil => exact ⟨kept, n, hkept, le_rfl, h⟩
  | cons e es₁ ih =>
    cases h with
    | event _ _ hcard hrest =>
      obtain ⟨kept', m, hkept', hm, hrun⟩ := ih hrest hcard
      exact ⟨kept', m, hkept', by omega, hrun⟩

/-- What is read and not written again is kept now or replayed. -/
theorem Run.replays [DecidableEq α] (h : Run reads writes producer capacity kept es n) :
    ∃ replayed : List β, replayed.length = n ∧ ∀ v, v ∉ kept → (∃ e ∈ es, v ∈ reads e) →
      (∀ e ∈ es, v ∉ writes e) → ∃ p ∈ replayed, producer v = some p := by
  induction h with
  | done kept => exact ⟨[], rfl, fun v _ ⟨e, he, _⟩ => absurd he not_mem_nil⟩
  | @event kept kept' e es now n hread hkeep _ _ ih =>
    obtain ⟨later, hlength, hlater⟩ := ih
    refine ⟨now ++ later, by simp [hlength], ?_⟩
    intro v hv hreads hwrites
    suffices hsome : (∃ p ∈ now, producer v = some p) ∨ ∃ p ∈ later, producer v = some p by
      rcases hsome with ⟨p, hp, hprod⟩ | ⟨p, hp, hprod⟩
      · exact ⟨p, mem_append_left _ hp, hprod⟩
      · exact ⟨p, mem_append_right _ hp, hprod⟩
    obtain ⟨e', he', hread'⟩ := hreads
    rcases mem_cons.1 he' with rfl | he'
    · exact .inl ((hread v hread').resolve_left hv)
    · by_cases hv' : v ∈ kept'
      · -- it has come back before the next event
        rcases hkeep v hv' with hold | hwrite | hnow
        · exact absurd hold hv
        · exact absurd hwrite (hwrites e mem_cons_self)
        · exact .inl hnow
      · exact .inr (hlater v hv' ⟨e', he', hread'⟩
          fun e'' h'' => hwrites e'' (mem_cons_of_mem e h''))

/-- Of the values live at a cut, all but `capacity` have their producers replayed. -/
theorem Run.exists_replayed [DecidableEq α] [DecidableEq β]
    (h : Run reads writes producer capacity kept (es₁ ++ es₂) n)
    (hkept : kept.card ≤ capacity) (live : Finset α)
    (hreads : ∀ v ∈ live, ∃ e ∈ es₂, v ∈ reads e) (hwrites : ∀ v ∈ live, ∀ e ∈ es₂, v ∉ writes e) :
    ∃ lost ⊆ live, live.card ≤ lost.card + capacity ∧ (lost.image producer).card ≤ n := by
  obtain ⟨kept', m, hkept', hm, hrun⟩ := h.cut hkept
  obtain ⟨replayed, rfl, hreplayed⟩ := hrun.replays
  refine ⟨live \ kept', sdiff_subset, ?_, ?_⟩
  · have := card_sdiff_add_card_inter live kept'
    have := card_le_card (inter_subset_right : live ∩ kept' ⊆ kept')
    omega
  · have hsub : (live \ kept').image producer ⊆ (replayed.map some).toFinset := by
      intro q hq
      obtain ⟨v, hv, rfl⟩ := mem_image.1 hq
      obtain ⟨hlive, hnot⟩ := mem_sdiff.1 hv
      obtain ⟨p, hp, hprod⟩ := hreplayed v hnot (hreads v hlive) (hwrites v hlive)
      rw [hprod, mem_toFinset]
      exact mem_map_of_mem hp
    calc ((live \ kept').image producer).card
        ≤ (replayed.map some).toFinset.card := card_le_card hsub
      _ ≤ (replayed.map some).length := toFinset_card_le _
      _ = replayed.length := length_map ..
      _ ≤ n := hm

/-! ## Producers of two values -/

section Pairs

variable [DecidableEq β] (f : α → β)

/-- The values of `s` from one producer. -/
def fiber (s : Finset α) (p : β) : Finset α := s.filter (f · = p)

/-- The producers of two values of `s`. -/
def pairs (s : Finset α) : Finset β := (s.image f).filter fun p => (fiber f s p).card = 2

variable {f} {s t : Finset α}

theorem mem_pairs {p : β} : p ∈ pairs f s ↔ (fiber f s p).card = 2 := by
  rw [pairs, Finset.mem_filter, and_iff_right_iff_imp]
  intro h
  obtain ⟨v, hv⟩ := Finset.card_pos.1 (by omega : 0 < (fiber f s p).card)
  rw [fiber, Finset.mem_filter] at hv
  exact mem_image.2 ⟨v, hv⟩

theorem fiber_subset (h : t ⊆ s) (p : β) : fiber f t p ⊆ fiber f s p :=
  filter_subset_filter _ h

theorem card_fiber_insert [DecidableEq α] {v : α} (hv : v ∉ s) (p : β) :
    (fiber f (insert v s) p).card = (fiber f s p).card + if f v = p then 1 else 0 := by
  unfold fiber
  rw [filter_insert]
  split_ifs
  · exact card_insert_of_notMem fun hmem => hv (mem_of_mem_filter v hmem)
  · rfl

theorem card_pairs_insert [DecidableEq α] {v : α} (hv : v ∉ s) (hlt : (fiber f s (f v)).card < 2) :
    (pairs f (insert v s)).card =
      (pairs f s).card + if (fiber f s (f v)).card = 1 then 1 else 0 := by
  have hnot : f v ∉ pairs f s := fun hmem => by rw [mem_pairs] at hmem; omega
  have hmem : ∀ p, p ∈ pairs f (insert v s) ↔
      p ∈ pairs f s ∨ p = f v ∧ (fiber f s (f v)).card = 1 := by
    intro p
    rw [mem_pairs, mem_pairs, card_fiber_insert hv]
    by_cases hp : f v = p
    · subst hp
      simp only [if_true, true_and]
      omega
    · simp [hp, Ne.symm hp]
  split_ifs with hone
  · rw [← card_insert_of_notMem hnot]
    congr 1
    ext p
    rw [hmem, mem_insert]
    tauto
  · congr 1
    ext p
    rw [hmem]
    tauto

variable (htwo : ∀ p, (fiber f s p).card ≤ 2) (h : t ⊆ s)
include htwo h

theorem card_le_two_mul_image :
    t.card ≤ 2 * (t.image f).card :=
  card_le_mul_card_image t 2 fun p _ =>
    le_trans (card_le_card (fiber_subset h p)) (htwo p)

theorem card_le_add_pairs :
    t.card ≤ (t.image f).card + (pairs f s).card := by
  have hone : ∀ p ∈ t.image f, (fiber f t p).card ≤ 1 + if p ∈ pairs f s then 1 else 0 := by
    intro p _
    have hle := card_le_card (fiber_subset h p : fiber f t p ⊆ fiber f s p)
    have := htwo p
    by_cases hp : p ∈ pairs f s
    · rw [if_pos hp]
      omega
    · have hne : (fiber f s p).card ≠ 2 := fun hc => hp (mem_pairs.2 hc)
      omega
  calc t.card = ∑ p ∈ t.image f, (fiber f t p).card := card_eq_sum_card_image f t
    _ ≤ ∑ p ∈ t.image f, (1 + if p ∈ pairs f s then 1 else 0) := sum_le_sum hone
    _ = (t.image f).card + ((t.image f).filter (· ∈ pairs f s)).card := by
        rw [sum_add_distrib, ← card_eq_sum_ones, card_filter]
    _ ≤ (t.image f).card + (pairs f s).card := by
        refine Nat.add_le_add_left (card_le_card ?_) _
        intro p hp
        exact (mem_filter.1 hp).2

end Pairs

end Pebbling
