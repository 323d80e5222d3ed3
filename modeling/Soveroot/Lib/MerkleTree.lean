import Mathlib.Algebra.Group.Nat.Defs
import Mathlib.Data.List.Basic
import Mathlib.Data.Nat.Log
import Mathlib.Tactic.Common

/-!
# Trees of hashes over a list

A row of hashes is combined in pairs to the row above it, where the last one of an odd row is paired
with itself. Two lists can so have the same rows above them. They have not when neither has twins:
equal neighbours that make up a pair (`eq_of_pairUp_eq`).
-/

namespace MerkleTree

variable {α : Type*}

/-- The pairs of a row. -/
@[grind] def pairUp : List α → List (α × α)
  | [] => []
  | [a] => [(a, a)]
  | a :: b :: row => (a, b) :: pairUp row

theorem length_pairUp (row : List α) : (pairUp row).length = (row.length + 1) / 2 := by
  fun_induction pairUp row with
  | case1 => simp
  | case2 a => simp
  | case3 a b row ih =>
    simp only [List.length_cons, ih]
    omega

theorem getElem?_pairUp (row : List α) (i : Nat) :
    (pairUp row)[i]? = row[2 * i]?.map fun a => (a, row[2 * i + 1]?.getD a) := by
  induction i generalizing row with
  | zero =>
    match row with
    | [] => rfl
    | [a] => rfl
    | a :: b :: row => rfl
  | succ i ih =>
    match row with
    | [] => rfl
    | [a] => simp [pairUp, show 2 * (i + 1) = 2 * i + 1 + 1 from rfl]
    | a :: b :: row =>
      rw [pairUp, List.getElem?_cons_succ, ih]
      rfl

/-- Two neighbours that make up a pair are equal. -/
def Twins (row : List α) : Prop := ∃ i a, row[2 * i]? = some a ∧ row[2 * i + 1]? = some a

theorem not_twins_tail {a b : α} {row : List α} (h : ¬ Twins (a :: b :: row)) : a ≠ b ∧
    ¬ Twins row := by
  refine ⟨?_, ?_⟩
  · rintro rfl
    exact h ⟨0, a, rfl, rfl⟩
  · rintro ⟨i, x, hx, hx'⟩
    exact h ⟨i + 1, x, hx, hx'⟩

theorem eq_of_pairUp_eq {row row' : List α} (htwins : ¬ Twins row) (htwins' : ¬ Twins row')
    (h : pairUp row = pairUp row') : row = row' := by
  induction row using pairUp.induct generalizing row' with
  | case1 =>
    match row' with
    | [] => rfl
    | [a] => simp [pairUp] at h
    | a :: b :: row' => simp [pairUp] at h
  | case2 a =>
    match row' with
    | [] => simp [pairUp] at h
    | [b] =>
      simp only [pairUp, List.cons.injEq, Prod.mk.injEq, and_self, and_true] at h
      rw [h]
    | b :: c :: row' =>
      simp only [pairUp, List.cons.injEq, Prod.mk.injEq] at h
      exact absurd (h.1.1.symm.trans h.1.2) (not_twins_tail htwins').1
  | case3 a b row ih =>
    match row' with
    | [] => simp [pairUp] at h
    | [c] =>
      simp only [pairUp, List.cons.injEq, Prod.mk.injEq] at h
      exact absurd (h.1.1.trans h.1.2.symm) (not_twins_tail htwins).1
    | c :: d :: row' =>
      simp only [pairUp, List.cons.injEq, Prod.mk.injEq] at h
      rw [h.1.1, h.1.2, ih (not_twins_tail htwins).2 (not_twins_tail htwins').2 h.2]

/-! ## The rows of a tree -/

variable (node : α → α → α)

def nextRow (row : List α) : List α := (pairUp row).map fun p => node p.1 p.2

theorem length_nextRow (row : List α) : (nextRow node row).length = (row.length + 1) / 2 := by
  rw [nextRow, List.length_map, length_pairUp]

def level (leaves : List α) : Nat → List α
  | 0 => leaves
  | height + 1 => nextRow node (level leaves height)

theorem level_succ (leaves : List α) (height : Nat) :
    level node leaves (height + 1) = level node (nextRow node leaves) height := by
  induction height with
  | zero => rfl
  | succ height ih => rw [level, ih, level]

theorem getElem?_level_succ (leaves : List α) (height i : Nat) :
    (level node leaves (height + 1))[i]? = (level node leaves height)[2 * i]?.map fun a =>
      node a ((level node leaves height)[2 * i + 1]?.getD a) := by
  rw [level, nextRow, List.getElem?_map, getElem?_pairUp, Option.map_map]
  rfl

theorem length_level (leaves : List α) (height : Nat) :
    (level node leaves height).length = (leaves.length + 2 ^ height - 1) / 2 ^ height := by
  induction height with
  | zero => simp [level]
  | succ height ih =>
    have hpos := Nat.two_pow_pos height
    rw [level, length_nextRow, ih, Nat.pow_succ, ← Nat.div_div_eq_div_mul, Nat.div_div_eq_div_mul,
      ← Nat.div_div_eq_div_mul]
    congr 1
    rw [← Nat.add_div_right _ hpos]
    congr 1
    omega

def depth (leaves : List α) : Nat :=
  if leaves.length ≤ 1 then 0 else depth (nextRow node leaves) + 1
  termination_by leaves.length
  decreasing_by
    rw [length_nextRow]
    omega

def TwinFree (leaves : List α) : Prop :=
  ∀ height < depth node leaves, ¬ Twins (level node leaves height)

/-- The pairs that are combined below the root. -/
def Combined (leaves : List α) (p : α × α) : Prop :=
  ∃ height < depth node leaves, p ∈ pairUp (level node leaves height)

variable {node} {leaves : List α}

theorem depth_of_le (h : leaves.length ≤ 1) : depth node leaves = 0 := by
  rw [depth, if_pos h]

theorem depth_of_lt (h : 1 < leaves.length) :
    depth node leaves = depth node (nextRow node leaves) + 1 := by
  rw [depth, if_neg (Nat.not_le.2 h)]

theorem TwinFree.nextRow (h : TwinFree node leaves) (hlt : 1 < leaves.length) :
    ¬ Twins leaves ∧ TwinFree node (nextRow node leaves) := by
  refine ⟨h 0 (by rw [depth_of_lt hlt]; exact Nat.succ_pos _), ?_⟩
  intro height hheight
  rw [← level_succ]
  exact h (height + 1) (by rw [depth_of_lt hlt]; exact Nat.succ_lt_succ hheight)

theorem Combined.of_nextRow {p : α × α} (hlt : 1 < leaves.length)
    (h : Combined node (MerkleTree.nextRow node leaves) p) : Combined node leaves p := by
  obtain ⟨height, hheight, hp⟩ := h
  rw [← level_succ] at hp
  exact ⟨height + 1, by rw [depth_of_lt hlt]; exact Nat.succ_lt_succ hheight, hp⟩

theorem Combined.of_pairUp {p : α × α} (hlt : 1 < leaves.length) (h : p ∈ pairUp leaves) :
    Combined node leaves p :=
  ⟨0, by rw [depth_of_lt hlt]; exact Nat.succ_pos _, h⟩

end MerkleTree
