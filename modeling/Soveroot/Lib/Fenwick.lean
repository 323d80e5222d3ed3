import Mathlib

/-!
# Binary indexed trees

The ways through a binary indexed tree of `n` nodes: `down i` are the nodes whose sum is the prefix
before `i`, and `up n i` those that change with the value under node `i`. In a tree of a power of
two of nodes every way up ends at the last node (`up_two_pow`).
-/

namespace Fenwick

/-- `i & -i`: what `i & (i - 1)` leaves out. -/
def lowbit (i : Nat) : Nat := i - (i &&& (i - 1))

theorem lowbit_bit_true (i : Nat) : lowbit (2 * i + 1) = 1 := by
  have h : (2 * i + 1) &&& (2 * i) = 2 * i := by
    refine Nat.eq_of_testBit_eq fun k => ?_
    rw [Nat.testBit_and]
    cases k with
    | zero => simp
    | succ k => simp [Nat.testBit_succ, show (2 * i + 1) / 2 = i by omega]
  rw [lowbit, Nat.add_sub_cancel, h]
  omega

variable {i : Nat}

theorem lowbit_bit_false (hi : 0 < i) : lowbit (2 * i) = 2 * lowbit i := by
  have h : (2 * i) &&& (2 * i - 1) = 2 * (i &&& (i - 1)) := by
    refine Nat.eq_of_testBit_eq fun k => ?_
    rw [Nat.testBit_and]
    cases k with
    | zero => simp
    | succ k =>
      simp [Nat.testBit_succ, show (2 * i - 1) / 2 = i - 1 by omega, Nat.testBit_and]
  rw [lowbit, h, lowbit]
  omega

variable {m : Nat}

/-- A node below a power of two is followed by one that is not above it. -/
theorem add_lowbit_le (hi : 0 < i) (h : i < 2 ^ m) : 0 < lowbit i ∧ i + lowbit i ≤ 2 ^ m := by
  induction m generalizing i with
  | zero => omega
  | succ m ih =>
    -- an odd node, or twice a smaller one
    obtain ⟨j, rfl | rfl⟩ : ∃ j, i = 2 * j ∨ i = 2 * j + 1 := ⟨i / 2, by omega⟩
    · have := ih (i := j) (by omega) (by omega)
      rw [lowbit_bit_false (by omega)]
      omega
    · rw [lowbit_bit_true]
      omega

/-- `while i > 0: …; i -= i & -i`. -/
def downFrom : Nat → Nat → List Nat
  | 0, _ => []
  | fuel + 1, i => if i = 0 then [] else i :: downFrom fuel (i - lowbit i)

def down (i : Nat) : List Nat := downFrom i i

/-- `while i <= n: …; i += i & -i`. -/
def upFrom : Nat → Nat → Nat → List Nat
  | 0, _, _ => []
  | fuel + 1, n, i => if i ≤ n then i :: upFrom fuel n (i + lowbit i) else []

def up (n i : Nat) : List Nat := upFrom n n i

/-- In a tree of a power of two of nodes, a way up goes upwards, and ends at the last node. -/
theorem upFrom_two_pow (fuel : Nat) (hi : 0 < i) (hle : i ≤ 2 ^ m) (hfuel : 2 ^ m < fuel + i) :
    2 ^ m ∈ upFrom fuel (2 ^ m) i ∧ (upFrom fuel (2 ^ m) i).Nodup ∧
      ∀ j ∈ upFrom fuel (2 ^ m) i, i ≤ j := by
  induction fuel generalizing i with
  | zero => omega
  | succ fuel ih =>
    rw [upFrom, if_pos hle]
    rcases Nat.eq_or_lt_of_le hle with rfl | hlt
    · have hnil : upFrom fuel (2 ^ m) (2 ^ m + lowbit (2 ^ m)) = [] := by
        have hpos := (add_lowbit_le hi (Nat.pow_lt_pow_succ (a := 2) (n := m) (by decide))).1
        cases fuel with
        | zero => rfl
        | succ fuel => rw [upFrom, if_neg (by omega)]
      rw [hnil]
      simp
    · obtain ⟨hpos, hnext⟩ := add_lowbit_le hi hlt
      obtain ⟨hmem, hnodup, hge⟩ := ih (i := i + lowbit i) (by omega) hnext (by omega)
      refine ⟨List.mem_cons_of_mem _ hmem, List.nodup_cons.2 ⟨fun h => ?_, hnodup⟩, ?_⟩
      · have := hge i h
        omega
      · intro j hj
        rcases List.mem_cons.1 hj with rfl | hj
        · exact Nat.le_refl _
        · have := hge j hj
          omega

theorem up_two_pow (hi : 0 < i) (hle : i ≤ 2 ^ m) :
    2 ^ m ∈ up (2 ^ m) i ∧ (up (2 ^ m) i).Nodup := by
  obtain ⟨hmem, hnodup, -⟩ := upFrom_two_pow (2 ^ m) hi hle (by omega)
  exact ⟨hmem, hnodup⟩

end Fenwick
