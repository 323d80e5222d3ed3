import Mathlib

/-!
# Linear probing

A table of `c` slots. A key is looked for from its home on, around, up to the key itself or the
first free slot (`search`). The invariant is that what is in the table is found where it is
(`Findable`), so no key is there twice. Putting a key where its search has found a free slot keeps
the invariant (`Findable.insert`); a search that ends nowhere has seen every slot taken
(`search_nowhere`).
-/

namespace Probing

variable {κ : Type} [DecidableEq κ] {c start n d s s' : Nat} {home : κ → Nat} {tab : Nat → Option κ}
    {k k' : κ}

/-- The slot at a distance from `start`, around. -/
def slotAt (c start d : Nat) : Nat := (start + d) % c

theorem exists_slotAt (start : Nat) (hs : s < c) : ∃ d < c, slotAt c start d = s := by
  refine ⟨(s + (c - start % c)) % c, Nat.mod_lt _ (by omega), ?_⟩
  have hlt := Nat.mod_lt start (show 0 < c by omega)
  have hsplit := Nat.mod_add_div start c
  rw [slotAt, Nat.add_mod_mod, show start + (s + (c - start % c)) = s + c * (start / c + 1) by
    rw [Nat.mul_add, Nat.mul_one]; omega, Nat.add_mul_mod_self_left, Nat.mod_eq_of_lt hs]

inductive Found where
  | key (slot : Nat)
  | free (slot : Nat)
  | nowhere
  deriving DecidableEq

/-- A search over `n` slots from the distance `d` on. -/
def search (c start : Nat) (tab : Nat → Option κ) (k : κ) : (n d : Nat) → Found
  | 0, _ => .nowhere
  | n + 1, d =>
    match tab (slotAt c start d) with
    | none => .free (slotAt c start d)
    | some k' => if k' = k then .key (slotAt c start d) else search c start tab k n (d + 1)

theorem search_key (hc : 0 < c) (h : search c start tab k n d = .key s) : s < c ∧
    tab s = some k := by
  induction n generalizing d with
  | zero => cases h
  | succ n ih =>
    rw [search] at h
    cases htab : tab (slotAt c start d) with
    | none => simp [htab] at h
    | some k' =>
      by_cases hk : k' = k
      · obtain rfl : slotAt c start d = s := by simpa [htab, hk] using h
        exact ⟨Nat.mod_lt _ hc, by rw [htab, hk]⟩
      · exact ih (by simpa [htab, hk] using h)

theorem search_free (hc : 0 < c) (h : search c start tab k n d = .free s) :
    s < c ∧ tab s = none ∧ search c start (Function.update tab s (some k)) k n d = .key s := by
  induction n generalizing d with
  | zero => cases h
  | succ n ih =>
    rw [search] at h ⊢
    cases htab : tab (slotAt c start d) with
    | none =>
      obtain rfl : slotAt c start d = s := by simpa [htab] using h
      exact ⟨Nat.mod_lt _ hc, htab, by simp⟩
    | some k' =>
      have hk : k' ≠ k := by rintro rfl; simp [htab] at h
      obtain ⟨hs, hnone, hfound⟩ := ih (by simpa [htab, hk] using h)
      have hne : slotAt c start d ≠ s := by rintro rfl; simp [hnone] at htab
      exact ⟨hs, hnone, by simpa [hne, htab, hk] using hfound⟩

/-- A search that ends nowhere passes slots with other keys only. -/
theorem search_nowhere (h : search c start tab k c 0 = .nowhere) (hs : s < c) :
    tab s ≠ none ∧ tab s ≠ some k := by
  have hpass : ∀ n d, search c start tab k n d = .nowhere → ∀ e < n,
      tab (slotAt c start (d + e)) ≠ none ∧ tab (slotAt c start (d + e)) ≠ some k := by
    intro n
    induction n with
    | zero => intro d _ e he; omega
    | succ n ih =>
      intro d h e he
      rw [search] at h
      cases htab : tab (slotAt c start d) with
      | none => simp [htab] at h
      | some k' =>
        have hk : k' ≠ k := by rintro rfl; simp [htab] at h
        cases e with
        | zero => simpa [htab] using hk
        | succ e =>
          have := ih (d + 1) (by simpa [htab, hk] using h) e (by omega)
          rwa [Nat.add_assoc, Nat.add_comm 1] at this
  obtain ⟨d, hd, rfl⟩ := exists_slotAt start hs
  simpa using hpass c 0 h d hd

/-- What is in the table is found where it is. -/
def Findable (c : Nat) (home : κ → Nat) (tab : Nat → Option κ) : Prop :=
  ∀ s < c, ∀ k, tab s = some k → search c (home k) tab k c 0 = .key s

namespace Findable

theorem inj (h : Findable c home tab) (hs : s < c) (hs' : s' < c) (hk : tab s = some k)
    (hk' : tab s' = some k) : s = s' :=
  Found.key.inj ((h s hs k hk).symm.trans (h s' hs' k hk'))

theorem search_update (hnone : tab s = none) (h : search c start tab k' n d = .key s') :
    search c start (Function.update tab s (some k)) k' n d = .key s' := by
  induction n generalizing d with
  | zero => cases h
  | succ n ih =>
    rw [search] at h ⊢
    cases htab : tab (slotAt c start d) with
    | none => simp [htab] at h
    | some j =>
      have hne : slotAt c start d ≠ s := by rintro rfl; simp [hnone] at htab
      by_cases hj : j = k'
      · simpa [hne, htab, hj] using h
      · simpa [hne, htab, hj] using ih (by simpa [htab, hj] using h)

theorem insert (h : Findable c home tab) (hc : 0 < c)
    (hfree : search c (home k) tab k c 0 = .free s) :
    Findable c home (Function.update tab s (some k)) := by
  obtain ⟨-, hnone, hfound⟩ := search_free hc hfree
  intro s' hs' k' hk'
  by_cases heq : s' = s
  · subst heq
    obtain rfl : k = k' := by simpa using hk'
    exact hfound
  · exact search_update hnone (h s' hs' k' (by simpa [heq] using hk'))

end Findable

end Probing
