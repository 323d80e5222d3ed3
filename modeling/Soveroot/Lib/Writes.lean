import Mathlib.Data.List.Nodup
import Mathlib.Logic.Function.Basic

/-!
# Lists of writes to a map

A list of writes is applied to a map from the first on. A key then holds the last value written to
it, whatever it held before (`apply_congr`), or what it held before when nothing was written to it
(`apply_of_not_mem`). This is what makes it safe to run a list of writes again on a map to which
only some of them have been applied.
-/

namespace Writes

open Function

variable {κ β : Type} {m m' : κ → β} {ws : List (κ × β)} {k : κ} {v : β}

def keys (ws : List (κ × β)) : List κ := ws.map Prod.fst

@[simp] theorem keys_nil : keys ([] : List (κ × β)) = [] := rfl

@[simp] theorem keys_cons (w : κ × β) (ws : List (κ × β)) : keys (w :: ws) = w.1 :: keys ws := rfl

variable [DecidableEq κ]

def apply (m : κ → β) (ws : List (κ × β)) : κ → β :=
  ws.foldl (fun m w => Function.update m w.1 w.2) m

@[simp] theorem apply_nil (m : κ → β) : apply m [] = m := rfl

@[simp] theorem apply_cons (m : κ → β) (w : κ × β) (ws : List (κ × β)) :
    apply m (w :: ws) = apply (Function.update m w.1 w.2) ws := rfl

theorem apply_append (m : κ → β) (ws ws' : List (κ × β)) :
    apply m (ws ++ ws') = apply (apply m ws) ws' := List.foldl_append

theorem apply_of_not_mem (h : k ∉ keys ws) : apply m ws k = m k := by
  induction ws generalizing m with
  | nil => rfl
  | cons w ws ih =>
    rw [keys_cons, List.mem_cons, not_or] at h
    rw [apply_cons, ih h.2, update_of_ne h.1]

/-- Where something is written, or the maps agreed before, they agree after. -/
theorem apply_congr (h : k ∈ keys ws ∨ m k = m' k) : apply m ws k = apply m' ws k := by
  induction ws generalizing m m' with
  | nil => simpa using h
  | cons w ws ih =>
    rw [apply_cons, apply_cons]
    apply ih
    by_cases hk : k = w.1
    · exact .inr (by rw [hk, update_self, update_self])
    · rw [update_of_ne hk, update_of_ne hk]
      simpa [hk] using h

theorem apply_of_mem (hnodup : (keys ws).Nodup) (h : (k, v) ∈ ws) : apply m ws k = v := by
  induction ws generalizing m with
  | nil => simp at h
  | cons w ws ih =>
    rw [keys_cons, List.nodup_cons] at hnodup
    rw [apply_cons]
    rcases List.mem_cons.1 h with rfl | h
    · rw [apply_of_not_mem hnodup.1, update_self]
    · exact ih hnodup.2 h

theorem apply_map (m : κ → β) (f : κ → β) (ks : List κ) (k : κ) :
    apply m (ks.map fun k => (k, f k)) k = if k ∈ ks then f k else m k := by
  induction ks generalizing m with
  | nil => simp
  | cons k₀ ks ih =>
    rw [List.map_cons, apply_cons, ih]
    by_cases hk : k = k₀
    · subst hk
      simp
    · simp [hk]

/-- Writes that lead from `m` to `m'` also lead there from any mixture of the two. -/
theorem apply_of_mixed {x : κ → β} (h : apply m ws = m') (hx : ∀ k, x k = m k ∨ x k = m' k) :
    apply x ws = m' := by
  funext k
  by_cases hk : k ∈ keys ws
  · rw [← h]
    exact apply_congr (.inl hk)
  · -- nothing is written here, so the two maps agree
    rw [apply_of_not_mem hk]
    rcases hx k with hm | hm'
    · rw [hm, ← h, apply_of_not_mem hk]
    · exact hm'

end Writes
