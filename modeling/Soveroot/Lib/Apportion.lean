import Mathlib.Algebra.BigOperators.Group.List.Basic
import Mathlib.Algebra.Order.BigOperators.Group.List
import Mathlib.Data.List.Sort
import Mathlib.Tactic.Ring

/-!
# Largest-remainder apportionment

A pool is split over weighted claims. Every claim first gets its exact share rounded down; what is
left is handed out one unit at a time, in the order of the remainders. All rests on one count: as
many units are left as the remainders add up to wholes (`leftover_le`).
-/

namespace Apportion

open List

variable {α : Type} (pool whole : Nat) (weight : α → Nat)

def floor (a : α) : Nat := pool * weight a / whole

/-- What rounding down leaves of the exact share, in parts of the whole. -/
def rest (a : α) : Nat := pool * weight a % whole

/-- What rounding down leaves of the pool. -/
def leftover (l : List α) : Nat := pool - (l.map (floor pool whole weight)).sum

theorem floor_add_rest (l : List α) :
    whole * (l.map (floor pool whole weight)).sum + (l.map (rest pool whole weight)).sum =
      pool * (l.map weight).sum := by
  induction l with
  | nil => simp
  | cons a l ih =>
    have hdiv : whole * floor pool whole weight a + rest pool whole weight a = pool * weight a :=
      Nat.div_add_mod _ _
    simp only [map_cons, sum_cons, Nat.mul_add]
    omega

variable {whole} {weight}

section

variable {l : List α} (hwhole : (l.map weight).sum = whole)

include hwhole

theorem leftover_mul :
    whole * leftover pool whole weight l = (l.map (rest pool whole weight)).sum := by
  have h := floor_add_rest pool whole weight l
  rw [hwhole, Nat.mul_comm pool] at h
  rw [leftover, Nat.mul_sub]
  omega

variable (hpos : 0 < whole)

include hpos

theorem sum_floor_le : (l.map (floor pool whole weight)).sum ≤ pool := by
  have h := floor_add_rest pool whole weight l
  rw [hwhole, Nat.mul_comm pool] at h
  exact Nat.le_of_mul_le_mul_left (by omega) hpos

/-- A unit is left for some of the remainders that are not zero. -/
theorem leftover_le :
    leftover pool whole weight l ≤ l.countP fun a => rest pool whole weight a ≠ 0 := by
  have hsum : ∀ l : List α, (l.map (rest pool whole weight)).sum ≤
      whole * l.countP fun a => rest pool whole weight a ≠ 0 := by
    intro l
    induction l with
    | nil => simp
    | cons a l ih =>
      have hlt : rest pool whole weight a < whole := Nat.mod_lt _ hpos
      by_cases ha : rest pool whole weight a = 0
      · simpa [ha] using ih
      · simp only [map_cons, sum_cons, countP_cons, ne_eq, ha,
          not_false_eq_true, decide_true, if_true, Nat.mul_add, Nat.mul_one]
        simp only [ne_eq] at ih
        omega
  refine Nat.le_of_mul_le_mul_left ?_ hpos
  rw [leftover_mul pool hwhole]
  exact hsum l

end

/-! ## The winners -/

variable {pool}

/-- The claims in the order in which units are handed out: larger remainders first, ties in any
order. -/
structure Ranked (pool whole : Nat) (weight : α → Nat) (l ranked : List α) : Prop where
  perm : ranked.Perm l
  nodup : l.Nodup
  sorted : ranked.Pairwise fun a b => rest pool whole weight b ≤ rest pool whole weight a

namespace Ranked

variable {l ranked : List α} (h : Ranked pool whole weight l ranked)

include h

theorem rest_le {n : Nat} {a b : α} (ha : a ∈ ranked.take n) (hb : b ∉ ranked.take n)
    (hl : b ∈ l) : rest pool whole weight b ≤ rest pool whole weight a := by
  have hmem : b ∈ ranked.take n ++ ranked.drop n := by
    rw [take_append_drop]
    exact h.perm.mem_iff.2 hl
  have hdrop : b ∈ ranked.drop n := (mem_append.1 hmem).resolve_left hb
  have hsorted := h.sorted
  rw [← take_append_drop n ranked, pairwise_append] at hsorted
  exact hsorted.2.2 a ha b hdrop

variable (hwhole : (l.map weight).sum = whole) (hpos : 0 < whole)

include hwhole hpos

/-- A claim whose exact share is a whole number is not rounded up. -/
theorem not_winner_of_exact {a : α}
    (ha : a ∈ ranked.take (leftover pool whole weight l)) : rest pool whole weight a ≠ 0 := by
  intro hzero
  have hcount := leftover_le pool hwhole hpos
  rw [← h.perm.countP_eq, ← take_append_drop (leftover pool whole weight l) ranked,
    countP_append] at hcount
  -- nobody after `a` has a remainder, and `a` has none
  have hdrop : (ranked.drop (leftover pool whole weight l)).countP
      (fun b => rest pool whole weight b ≠ 0) = 0 := by
    have hsorted := h.sorted
    rw [← take_append_drop (leftover pool whole weight l) ranked, pairwise_append]
      at hsorted
    rw [countP_eq_zero]
    intro b hb
    have hle := hsorted.2.2 a ha b hb
    rw [hzero] at hle
    simpa using hle
  have htake : (ranked.take (leftover pool whole weight l)).countP
      (fun b => rest pool whole weight b ≠ 0) <
        (ranked.take (leftover pool whole weight l)).length := by
    refine lt_of_le_of_ne (countP_le_length) fun heq => ?_
    have hall := countP_eq_length.1 heq a ha
    simp [hzero] at hall
  have hlen : (ranked.take (leftover pool whole weight l)).length ≤ leftover pool whole weight l :=
    length_take_le _ _
  omega

theorem length_winners :
    (ranked.take (leftover pool whole weight l)).length = leftover pool whole weight l := by
  rw [length_take, h.perm.length_eq]
  exact Nat.min_eq_left ((leftover_le pool hwhole hpos).trans countP_le_length)

end Ranked

/-! ## The shares -/

variable [DecidableEq α]

/-- What a claim gets when the claims `winners` are rounded up. -/
def share (pool whole : Nat) (weight : α → Nat) (winners : List α) (a : α) : Nat :=
  floor pool whole weight a + if a ∈ winners then 1 else 0

namespace Ranked

variable {l ranked : List α} (h : Ranked pool whole weight l ranked)

include h

/-- **Exactness.** The shares add up to the pool. -/
theorem sum_share (hwhole : (l.map weight).sum = whole) (hpos : 0 < whole) :
    (l.map (share pool whole weight (ranked.take (leftover pool whole weight l)))).sum = pool := by
  have hsplit : ∀ (winners l : List α), (l.map (share pool whole weight winners)).sum =
      (l.map (floor pool whole weight)).sum + l.countP (fun a => a ∈ winners) := by
    intro winners l
    induction l with
    | nil => simp
    | cons a l ih =>
      simp only [map_cons, sum_cons, ih, countP_cons, share, decide_eq_true_eq]
      omega
  have hcount : l.countP (fun a => a ∈ ranked.take (leftover pool whole weight l)) =
      leftover pool whole weight l := by
    have hnodup : ranked.Nodup := h.perm.nodup_iff.2 h.nodup
    have hperm : (l.filter fun a => a ∈ ranked.take (leftover pool whole weight l)).Perm
        (ranked.take (leftover pool whole weight l)) := by
      refine (perm_ext_iff_of_nodup (h.nodup.filter _)
        (hnodup.sublist (take_sublist _ _))).2 fun a => ?_
      rw [mem_filter, decide_eq_true_eq, and_iff_right_iff_imp]
      exact fun ha => h.perm.mem_iff.1 (mem_of_mem_take ha)
    rw [countP_eq_length_filter, hperm.length_eq, h.length_winners hwhole hpos]
  have hle := sum_floor_le pool hwhole hpos
  rw [hsplit, hcount, leftover]
  omega

/-- **Fairness.** More weight never earns less. -/
theorem share_le_share (hpool : 0 < pool) {a b : α} (hb : b ∈ l) (hlt : weight a < weight b)
    (n : Nat) :
    share pool whole weight (ranked.take n) a ≤ share pool whole weight (ranked.take n) b := by
  have hfloor : floor pool whole weight a ≤ floor pool whole weight b :=
    Nat.div_le_div_right (Nat.mul_le_mul_left _ hlt.le)
  rcases hfloor.lt_or_eq with hlower | heq
  · unfold share
    split_ifs <;> omega
  · by_cases ha : a ∈ ranked.take n
    · by_cases hbn : b ∈ ranked.take n
      · simp [share, ha, hbn, heq]
      · -- the shares round down alike, so `b` has the larger remainder and wins before `a`
        have hrest := h.rest_le ha hbn hb
        have hmul : pool * weight a < pool * weight b := Nat.mul_lt_mul_of_pos_left hlt hpool
        have hdiva : whole * floor pool whole weight a + rest pool whole weight a =
          pool * weight a := Nat.div_add_mod _ _
        have hdivb : whole * floor pool whole weight b + rest pool whole weight b =
          pool * weight b := Nat.div_add_mod _ _
        rw [heq] at hdiva
        omega
    · simp only [share, ha, if_false]
      omega

end Ranked

end Apportion
