import Soveroot.Coins.View
import Soveroot.Lib.MerkleTree

/-!
# The root of a list of transactions

`ComputeMerkleRoot` of `src/consensus/merkle.cpp` pairs the last hash of an odd row with itself, so
that a list and the list with its end repeated have one root. It reports equal hashes that it would
combine. When the pairs that two lists combine do not collide, and the trees have as many rows, two
different lists with one root are told apart by that report (`merkle_malleation_detected`).
-/

namespace Soveroot.Merkle

open Py MerkleTree List

/-- `uint256()`. -/
def zero : Digest := .filled 0

/-- `SHA256D64` of one pair, which is also `Hash` of two digests. -/
def sha256D64 (sha256 : HashFn) (left right : Digest) : Digest :=
  sha256 (sha256 (left.bytes ++ right.bytes)).bytes

variable (sha256 : HashFn)

/-- The loop that looks for equal hashes in a row. -/
def mutation : List Digest → Bool
  | a :: b :: hashes => a = b || mutation hashes
  | _ => false

/-- A row with the last hash repeated where the number is odd. -/
def padded (hashes : List Digest) : List Digest :=
  if hashes.length % 2 = 1 then hashes ++ hashes.getLast?.toList else hashes

/-- `SHA256D64` over a row of even length. -/
def hashPairs : List Digest → List Digest
  | a :: b :: hashes => sha256D64 sha256 a b :: hashPairs hashes
  | _ => []

theorem hashPairs_padded (hashes : List Digest) :
    hashPairs sha256 (padded hashes) = nextRow (sha256D64 sha256) hashes := by
  induction hashes using pairUp.induct with
  | case1 => rfl
  | case2 a => rfl
  | case3 a b hashes ih =>
    have hpadded : padded (a :: b :: hashes) = a :: b :: padded hashes := by
      rw [padded, padded]
      simp only [length_cons, Nat.add_assoc, Nat.reduceAdd, Nat.add_mod_right]
      by_cases h : hashes.length % 2 = 1
      · have hne : hashes ≠ [] := by
          rintro rfl
          simp at h
        rw [if_pos h, if_pos h, getLast?_cons_of_ne_nil (by simp), getLast?_cons_of_ne_nil hne]
        rfl
      · rw [if_neg h, if_neg h]
    rw [hpadded, hashPairs, ih]
    rfl

/-- The loop of `ComputeMerkleRoot`. -/
def computeLoop (mutated : Bool) (hashes : List Digest) : Digest × Bool :=
  if 1 < hashes.length then
    computeLoop (mutated || mutation hashes) (hashPairs sha256 (padded hashes))
  else (hashes.headD zero, mutated)
  termination_by hashes.length
  decreasing_by
    rw [hashPairs_padded, length_nextRow]
    omega

/-- `ComputeMerkleRoot`, with what it reports through `mutated`. -/
def computeMerkleRoot (hashes : List Digest) : Digest × Bool := computeLoop sha256 false hashes

/-- The number of rows of the tree. -/
def levels (hashes : List Digest) : Nat :=
  if hashes = [] then 0 else depth (sha256D64 sha256) hashes + 1

/-! ## The root and the report -/

variable {sha256} {hashes : List Digest}

theorem mutation_iff (hashes : List Digest) : mutation hashes = true ↔ Twins hashes := by
  induction hashes using pairUp.induct with
  | case1 => simp [mutation, Twins]
  | case2 a => simp [mutation, Twins]
  | case3 a b hashes ih =>
    rw [mutation, Bool.or_eq_true, decide_eq_true_iff, ih]
    constructor
    · intro h
      rcases h with rfl | ⟨i, x, hx, hx'⟩
      · exact ⟨0, a, rfl, rfl⟩
      · exact ⟨i + 1, x, hx, hx'⟩
    · intro h
      by_contra hnot
      obtain ⟨hne, htwins⟩ := not_or.1 hnot
      obtain ⟨i, x, hx, hx'⟩ := h
      cases i with
      | zero =>
        simp only [getElem?_cons_zero, getElem?_cons_succ, Option.some.injEq,
          Nat.mul_zero] at hx hx'
        exact hne (hx.trans hx'.symm)
      | succ i => exact htwins ⟨i, x, hx, hx'⟩

theorem computeLoop_eq (mutated : Bool) (hashes : List Digest) :
    (computeLoop sha256 mutated hashes).1 =
      (level (sha256D64 sha256) hashes (depth (sha256D64 sha256) hashes)).headD zero ∧
    ((computeLoop sha256 mutated hashes).2 = false ↔
      mutated = false ∧ TwinFree (sha256D64 sha256) hashes) := by
  fun_induction computeLoop sha256 mutated hashes with
  | case1 mutated hashes hlt ih =>
    rw [hashPairs_padded] at ih ⊢
    refine ⟨?_, ?_⟩
    · rw [ih.1, depth_of_lt hlt, level_succ]
    · rw [ih.2, Bool.or_eq_false_iff, ← Bool.not_eq_true (mutation hashes), mutation_iff, and_assoc]
      refine and_congr_right fun _ => ⟨?_, fun h => h.nextRow hlt⟩
      intro ⟨htwins, hfree⟩ height hheight
      cases height with
      | zero => exact htwins
      | succ height =>
        rw [level_succ]
        exact hfree height (by rw [depth_of_lt hlt] at hheight; omega)
  | case2 mutated hashes hle =>
    have hzero : depth (sha256D64 sha256) hashes = 0 := depth_of_le (Nat.not_lt.1 hle)
    refine ⟨by rw [hzero, level], ?_⟩
    simp [TwinFree, hzero]

theorem computeMerkleRoot_fst : (computeMerkleRoot sha256 hashes).1 =
    (level (sha256D64 sha256) hashes (depth (sha256D64 sha256) hashes)).headD zero :=
  (computeLoop_eq false hashes).1

theorem mutated_eq_false_iff :
    (computeMerkleRoot sha256 hashes).2 = false ↔ TwinFree (sha256D64 sha256) hashes :=
  (computeLoop_eq false hashes).2.trans (and_iff_right rfl)

/-! ## Two lists with one root -/

def CollisionFree (sha256 : HashFn) (hashes hashes' : List Digest) : Prop :=
  ∀ p q, Combined (sha256D64 sha256) hashes p → Combined (sha256D64 sha256) hashes' q →
    sha256D64 sha256 p.1 p.2 = sha256D64 sha256 q.1 q.2 → p = q

theorem pairUp_eq_of_nextRow_eq {row row' : List Digest}
    (hinj : ∀ p ∈ pairUp row, ∀ q ∈ pairUp row',
      sha256D64 sha256 p.1 p.2 = sha256D64 sha256 q.1 q.2 → p = q)
    (h : nextRow (sha256D64 sha256) row = nextRow (sha256D64 sha256) row') :
    pairUp row = pairUp row' := by
  rw [nextRow, nextRow] at h
  generalize pairUp row = l at hinj h
  generalize pairUp row' = l' at hinj h
  induction l generalizing l' with
  | nil => exact (map_eq_nil_iff.1 h.symm).symm
  | cons p l ih =>
    cases l' with
    | nil => simp at h
    | cons q l' =>
      rw [map_cons, map_cons, List.cons.injEq] at h
      rw [hinj p (by simp) q (by simp) h.1,
        ih l' (fun p hp q hq => hinj p (by simp [hp]) q (by simp [hq])) h.2]

theorem eq_of_root_eq {hashes hashes' : List Digest}
    (hnil : hashes = [] ↔ hashes' = [])
    (hdepth : depth (sha256D64 sha256) hashes = depth (sha256D64 sha256) hashes')
    (hfree : TwinFree (sha256D64 sha256) hashes) (hfree' : TwinFree (sha256D64 sha256) hashes')
    (hcollision : CollisionFree sha256 hashes hashes')
    (hroot : (computeMerkleRoot sha256 hashes).1 = (computeMerkleRoot sha256 hashes').1) :
    hashes = hashes' := by
  rw [computeMerkleRoot_fst, computeMerkleRoot_fst, ← hdepth] at hroot
  generalize hn : depth (sha256D64 sha256) hashes = n at hdepth hroot
  induction n generalizing hashes hashes' with
  | zero =>
    have hshort : ∀ l : List Digest, depth (sha256D64 sha256) l = 0 → l = [] ∨ ∃ a, l = [a] := by
      intro l hl
      rw [← length_eq_one_iff, ← length_eq_zero_iff]
      by_contra hlt
      rw [depth_of_lt (by omega)] at hl
      cases hl
    rcases hshort hashes hn with rfl | ⟨a, rfl⟩ <;> rcases hshort hashes' hdepth.symm with
      rfl | ⟨b, rfl⟩
    · rfl
    · exact absurd (hnil.1 rfl) (by simp)
    · exact absurd (hnil.2 rfl) (by simp)
    · exact congrArg (fun x => [x]) hroot
  | succ n ih =>
    have hlong : ∀ l : List Digest, depth (sha256D64 sha256) l = n + 1 → 1 < l.length := by
      intro l hl
      by_contra hle
      rw [depth_of_le (Nat.le_of_not_lt hle)] at hl
      cases hl
    have hlt := hlong hashes hn
    have hlt' := hlong hashes' hdepth.symm
    obtain ⟨htwins, hfree⟩ := hfree.nextRow hlt
    obtain ⟨htwins', hfree'⟩ := hfree'.nextRow hlt'
    rw [depth_of_lt hlt'] at hdepth
    rw [depth_of_lt hlt] at hn
    have hne : ∀ l : List Digest, 1 < l.length → nextRow (sha256D64 sha256) l ≠ [] := by
      intro l hl hnil
      have := congrArg length hnil
      rw [length_nextRow, length_nil] at this
      omega
    apply eq_of_pairUp_eq htwins htwins'
    apply pairUp_eq_of_nextRow_eq
    · intro p hp q hq
      exact hcollision p q (.of_pairUp hlt hp) (.of_pairUp hlt' hq)
    · refine ih ?_ hfree hfree' ?_ (by omega) (by omega) ?_
      · exact iff_of_false (hne _ hlt) (hne _ hlt')
      · exact fun p q hp hq => hcollision p q (.of_nextRow hlt hp) (.of_nextRow hlt' hq)
      · rwa [level_succ, level_succ] at hroot

/-- Two different lists whose trees have as many rows and the same root: for one of them
`ComputeMerkleRoot` reports a mutation. -/
theorem merkle_malleation_detected {hashes hashes' : List Digest} (hne : hashes ≠ hashes')
    (hlevels : levels sha256 hashes = levels sha256 hashes')
    (hcollision : CollisionFree sha256 hashes hashes')
    (hroot : (computeMerkleRoot sha256 hashes).1 = (computeMerkleRoot sha256 hashes').1) :
    (computeMerkleRoot sha256 hashes).2 = true ∨ (computeMerkleRoot sha256 hashes').2 = true := by
  by_contra hnot
  rw [not_or, Bool.not_eq_true, Bool.not_eq_true, mutated_eq_false_iff,
    mutated_eq_false_iff] at hnot
  rw [levels, levels] at hlevels
  apply hne
  refine eq_of_root_eq ?_ ?_ hnot.1 hnot.2 hcollision hroot
  · by_cases h : hashes = [] <;> by_cases h' : hashes' = [] <;> simp [h, h'] at hlevels ⊢
  · by_cases h : hashes = [] <;> by_cases h' : hashes' = [] <;> simp [h, h'] at hlevels ⊢
    exact hlevels

def mix : HashFn := fun bytes => Digest.filled (bytes.getD 0 0 * 3 + bytes.getD 32 0 + 1)

theorem depth_mix {a b c : Digest} {hashes : List Digest} (h : hashes.length ≤ 1) :
    depth (sha256D64 mix) (a :: b :: c :: hashes) = 2 := by
  rw [depth_of_lt (by simp), depth_of_lt (by simp [length_nextRow]; omega),
    depth_of_le (by simp [length_nextRow]; omega)]

/-- The last of three hashes repeated. -/
theorem merkle_malleation_detected_three :
    (computeMerkleRoot mix [Digest.filled 0, Digest.filled 1, Digest.filled 2]).2 = true ∨
      (computeMerkleRoot mix [Digest.filled 0, Digest.filled 1, Digest.filled 2,
        Digest.filled 2]).2 = true := by
  have hdepth : depth (sha256D64 mix) [Digest.filled 0, Digest.filled 1, Digest.filled 2] = 2 :=
    depth_mix (by decide)
  have hdepth' : depth (sha256D64 mix) [Digest.filled 0, Digest.filled 1, Digest.filled 2,
    Digest.filled 2] = 2 := depth_mix (by decide)
  refine merkle_malleation_detected (by decide) ?_ ?_ ?_
  · rw [levels, levels, hdepth, hdepth']
    rfl
  · have hdistinct : ∀ i ∈ range 2,
      ∀ p ∈ pairUp (level (sha256D64 mix) [Digest.filled 0, Digest.filled 1, Digest.filled 2] i),
        ∀ j ∈ range 2,
          ∀ q ∈ pairUp (level (sha256D64 mix) [Digest.filled 0, Digest.filled 1, Digest.filled 2,
            Digest.filled 2] j),
          sha256D64 mix p.1 p.2 = sha256D64 mix q.1 q.2 → p = q := by decide +kernel
    intro p q ⟨i, hi, hp⟩ ⟨j, hj, hq⟩
    rw [hdepth] at hi
    rw [hdepth'] at hj
    exact hdistinct i (mem_range.2 hi) p hp j (mem_range.2 hj) q hq
  · rw [computeMerkleRoot_fst, computeMerkleRoot_fst, hdepth, hdepth']
    decide +kernel

end Soveroot.Merkle
