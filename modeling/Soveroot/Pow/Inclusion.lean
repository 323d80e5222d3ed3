import Soveroot.Pow.Trace

/-!
# Inclusion of the least recently used caches

`SimulateCache` with two capacities on one trace. `stack` is the list of all words touched so far,
the last touched first. At every event a cache of `capacity` words holds the first `capacity` words
of that list, so the words of the smaller cache are among those of the larger one.
-/

namespace Soveroot.Pow

open Check Paging List

namespace LruState

def stack (written : Nat → Bool) (recent : List Nat) (event : TraceEvent) : List Nat :=
  if event.isWrite ∨ written event.word then event.word :: recent.erase event.word else recent

variable {capacity : Nat} {s : LruState} {l : List Nat}

theorem touch_recent (hcapacity : 0 < capacity) (hs : s.recent = l.take capacity) (word : Nat) :
    (s.touch capacity word).recent = (word :: l.erase word).take capacity := by
  obtain ⟨n, rfl⟩ := Nat.exists_eq_succ_of_ne_zero hcapacity.ne'
  rw [take_succ_cons, take_erase, touch, hs]
  split_ifs with hmem hfull
  · rfl
  · simp [dropLast_eq_take, hfull, take_take]
  · -- the cache has room: it holds the whole list
    have hshort : l.length ≤ n := by
      rw [length_take] at hfull
      omega
    simp [take_of_length_le hshort, take_of_length_le (Nat.le_succ_of_le hshort)]

theorem event_recent (hcapacity : 0 < capacity) (hs : s.recent = l.take capacity)
    (written : Nat → Bool) (event : TraceEvent) :
    (s.event capacity written event).recent = (stack written l event).take capacity := by
  have hcount : (s.countRead event.word).recent = s.recent := by
    unfold countRead
    split_ifs <;> rfl
  unfold LruState.event stack
  by_cases hwrite : event.isWrite
  · rw [if_pos hwrite, if_pos (.inl hwrite)]
    exact touch_recent hcapacity hs _
  · rw [if_neg hwrite]
    by_cases hw : written event.word
    · rw [if_pos hw, if_pos (.inr hw)]
      exact touch_recent hcapacity (hcount.trans hs) _
    · rw [if_neg hw, if_neg (by simp [hwrite, hw])]
      exact hs

theorem eventMiss_anti {held kept : Finset Nat} (h : held ⊆ kept) (written : Nat → Bool)
    (event : TraceEvent) : eventMiss written kept event ≤ eventMiss written held event := by
  unfold eventMiss
  split_ifs with hkept hheld
  · exact le_rfl
  · exact absurd ⟨hkept.1, hkept.2.1, fun hmem => hkept.2.2 (h hmem)⟩ hheld
  · exact Nat.zero_le _
  · exact le_rfl

/-- Two caches that hold the first words of one list do so after every event, and the smaller one
has missed at least as often. -/
theorem run_le {small large : Nat} (hsmall : 0 < small) (hle : small ≤ large)
    (events : List TraceEvent) (written : Nat → Bool) {s s' : LruState}
    (hs : s.recent = l.take small) (hs' : s'.recent = l.take large)
    (hmiss : s'.stats.materializedReadMisses ≤ s.stats.materializedReadMisses) :
    (run small written s events).recent ⊆ (run large written s' events).recent ∧
      (run large written s' events).stats.materializedReadMisses ≤
        (run small written s events).stats.materializedReadMisses := by
  have hsub : s.recent ⊆ s'.recent := by
    rw [hs, hs']
    exact take_subset_take_left _ hle
  induction events generalizing written l s s' with
  | nil => exact ⟨hsub, hmiss⟩
  | cons event events ih =>
    have hlarge := hsmall.trans_le hle
    have hnext := event_recent hsmall hs written event
    have hnext' := event_recent hlarge hs' written event
    refine ih _ hnext hnext' ?_ ?_
    · obtain ⟨-, -, h⟩ := event_spec hsmall (hs ▸ length_take_le _ _) written event
      obtain ⟨-, -, h'⟩ := event_spec hlarge (hs' ▸ length_take_le _ _) written event
      rw [h, h']
      have hheld : s.recent.toFinset ⊆ s'.recent.toFinset := fun w hw =>
        mem_toFinset.2 (hsub (mem_toFinset.1 hw))
      exact Nat.add_le_add hmiss (eventMiss_anti hheld written event)
    · rw [hnext, hnext']
      exact take_subset_take_left _ hle

theorem event_count (written : Nat → Bool) (event : TraceEvent) :
    (s.event capacity written event).stats.materializedReadHits +
        (s.event capacity written event).stats.materializedReadMisses =
      s.stats.materializedReadHits + s.stats.materializedReadMisses +
        if !event.isWrite ∧ written event.word then 1 else 0 := by
  have htouch : ∀ (s : LruState) word,
      (s.touch capacity word).stats.materializedReadHits = s.stats.materializedReadHits ∧
        (s.touch capacity word).stats.materializedReadMisses = s.stats.materializedReadMisses := by
    intro s word
    unfold touch
    split_ifs <;> exact ⟨rfl, rfl⟩
  unfold LruState.event
  by_cases hwrite : event.isWrite
  · simp [hwrite, htouch]
  · by_cases hw : written event.word
    · by_cases hmem : event.word ∈ s.recent <;> simp [hwrite, hw, htouch, countRead, hmem] <;> omega
    · simp [hwrite, hw]

theorem run_count (events : List TraceEvent) (written : Nat → Bool) (s : LruState) :
    (run capacity written s events).stats.materializedReadHits +
        (run capacity written s events).stats.materializedReadMisses =
      s.stats.materializedReadHits + s.stats.materializedReadMisses +
        (accesses written events).countP (!·.isWrite) := by
  induction events generalizing written s with
  | nil => rfl
  | cons event events ih =>
    rw [run, ih, event_count, accesses]
    by_cases hwrite : event.isWrite
    · simp [hwrite]
    · by_cases hw : written event.word
      · simp [hwrite, hw]
        omega
      · simp [hwrite, hw]

end LruState

namespace TraceRecorder

/-- The words `SimulateCache` holds after the first `n` events, the last touched first. -/
def cacheAfter (t : TraceRecorder) (capacity n : Nat) : List Nat :=
  (LruState.run capacity (fun _ => false) ⟨[], ⟨capacity, 0, 0, 0⟩⟩ (t.events.take n)).recent

/-- **Inclusion.** At every event the smaller cache is a subset of the larger one. So misses never
increase with the capacity, and with the hits they are the reads of words written before. -/
theorem simulateCache_inclusion (t : TraceRecorder) {small large : Nat} (hsmall : 0 < small)
    (hle : small ≤ large) (hlarge : large ≤ t.wordCount) :
    (∀ n, t.cacheAfter small n ⊆ t.cacheAfter large n) ∧
      ∃ few many, t.simulateCache small = .ok few ∧ t.simulateCache large = .ok many ∧
        many.materializedReadMisses ≤ few.materializedReadMisses ∧
        ∀ stats ∈ [few, many], stats.materializedReadHits + stats.materializedReadMisses =
          (accesses (fun _ => false) t.events).countP (!·.isWrite) := by
  have hrun : ∀ events, _ := fun events => @LruState.run_le [] _ _ hsmall hle events
    (fun _ => false) ⟨[], ⟨small, 0, 0, 0⟩⟩ ⟨[], ⟨large, 0, 0, 0⟩⟩ take_nil.symm
    take_nil.symm le_rfl
  refine ⟨fun n => (hrun _).1, _, _, ?_, ?_, (hrun t.events).2, ?_⟩
  · rw [simulateCache, checkCapacity_of_le hsmall (hle.trans hlarge), ok_bind]
    rfl
  · rw [simulateCache, checkCapacity_of_le (hsmall.trans_le hle) hlarge, ok_bind]
    rfl
  · simp [LruState.run_count]

theorem simulateCache_inclusion_threeWords :
    threeWords.cacheAfter 2 3 = [2, 1] ∧ threeWords.cacheAfter 2 3 ⊆ threeWords.cacheAfter 3 3 :=
  ⟨by decide, (threeWords.simulateCache_inclusion (by decide) (by decide) (by decide)).1 3⟩

end TraceRecorder

end Soveroot.Pow
