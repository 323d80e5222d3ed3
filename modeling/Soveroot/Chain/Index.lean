import Soveroot.Coins.Chain

/-!
# Block headers in a tree

The rules about difficulty and about soft forks read the headers of a chain. A `CBlockIndex` is here
its chain back to the genesis block with the header fields these rules read; `none` is the null
pointer. `GetAncestor` takes any height, and follows the skip pointers of `Coins.BlockIndex`.
-/

namespace Soveroot.Chain

open Py Coins.BlockIndex

/-- The fields of a `CBlockIndex`. The hash tells blocks apart. -/
structure Fields where
  hash : Digest
  nVersion : UInt32
  nTime : UInt32
  nBits : UInt32
  deriving DecidableEq

/-- A `CBlockIndex`. -/
inductive Index where
  | genesis (fields : Fields)
  | next (pprev : Index) (fields : Fields)
  deriving DecidableEq

namespace Index

def fields : Index → Fields
  | genesis fields => fields
  | next _ fields => fields

def nHeight : Index → Nat
  | genesis _ => 0
  | next pprev _ => pprev.nHeight + 1

def pprev : Index → Option Index
  | genesis _ => none
  | next pprev _ => some pprev

@[simp] theorem nHeight_next (pprev : Index) (fields : Fields) :
    (next pprev fields).nHeight = pprev.nHeight + 1 := rfl

/-- `GetBlockTime`. -/
def blockTime (i : Index) : Int := i.fields.nTime.toNat

/-! ## Ancestors -/

/-- The block at a height below, reached from parent to parent. -/
def back (i : Index) (height : Nat) : Index :=
  match i with
  | genesis _ => i
  | next pprev _ => if pprev.nHeight < height then i else pprev.back height

variable {i j : Index} {height : Nat}

theorem nHeight_back_le (i : Index) (height : Nat) : (i.back height).nHeight ≤ i.nHeight := by
  induction i with
  | genesis fields => exact le_rfl
  | next pprev fields ih =>
    rw [back]
    by_cases h : pprev.nHeight < height
    · rw [if_pos h]
    · rw [if_neg h]
      exact ih.trans (Nat.le_succ _)

theorem back_of_le (h : i.nHeight ≤ height) : i.back height = i := by
  cases i with
  | genesis fields => rfl
  | next pprev fields => exact if_pos h

theorem back_next (h : height ≤ i.nHeight) (fields : Fields) :
    (next i fields).back height = i.back height := if_neg (Nat.not_lt.2 h)

@[simp] theorem nHeight_back (h : height ≤ i.nHeight) : (i.back height).nHeight = height := by
  induction i with
  | genesis fields => exact (Nat.le_zero.1 h).symm
  | next pprev fields ih =>
    by_cases hlt : pprev.nHeight < height
    · rw [back_of_le hlt]
      exact le_antisymm hlt h
    · rw [back_next (Nat.le_of_not_lt hlt), ih (Nat.le_of_not_lt hlt)]

theorem back_back {height' : Nat} (h : height ≤ height') (h' : height' ≤ i.nHeight) :
    (i.back height').back height = i.back height := by
  induction i with
  | genesis fields => rfl
  | next pprev fields ih =>
    by_cases hlt : pprev.nHeight < height'
    · rw [back_of_le (i := next pprev fields) hlt]
    · have hle := Nat.le_of_not_lt hlt
      rw [back_next hle, back_next (h.trans hle), ih hle]

/-! ## With skip pointers -/

/-- The `pskip` of a block on `pprev`, as `BuildSkip` sets it. -/
def skipOn (pprev : Index) : Index := pprev.back (skipHeight (pprev.nHeight + 1))

/-- The loop of `GetAncestor`. -/
def walkTo (height : Nat) (i : Index) : Index :=
  match i with
  | genesis _ => i
  | next pprev _ =>
    let heightSkip := skipHeight (pprev.nHeight + 1)
    let heightSkipPrev := skipHeight pprev.nHeight
    if pprev.nHeight + 1 ≤ height then i
    else if heightSkip = height ∨
        (heightSkip > height ∧ ¬ (heightSkipPrev < heightSkip - 2 ∧ heightSkipPrev ≥ height)) then
      walkTo height pprev.skipOn
    else walkTo height pprev
  termination_by i.nHeight
  decreasing_by
  · exact Nat.lt_succ_of_le (nHeight_back_le pprev _)
  · exact Nat.lt_succ_self _

def getAncestor (i : Index) (height : Int) : Option Index :=
  if height > i.nHeight ∨ height < 0 then none else some (walkTo height.toNat i)

theorem walkTo_eq (i : Index) : walkTo height i = i.back height := by
  fun_induction walkTo height i with
  | case1 fields => rfl
  | case2 pprev fields hle => exact (back_of_le hle).symm
  | case3 pprev fields heightSkip heightSkipPrev hle hskip ih =>
    rw [ih, skipOn, back_next (by omega), back_back (by omega) (skipHeight_le _)]
  | case4 pprev fields heightSkip heightSkipPrev hle hskip ih => rw [ih, back_next (by omega)]

theorem getAncestor_natCast (h : height ≤ i.nHeight) :
    i.getAncestor height = some (i.back height) := by
  rw [getAncestor, if_neg (by omega), walkTo_eq, Int.toNat_natCast]

theorem getAncestor_neg {height : Int} (h : height < 0) : i.getAncestor height = none :=
  if_pos (Or.inr h)

/-- A block is on the chain of another. -/
def OnChain (j i : Index) : Prop := i.back j.nHeight = j ∧ j.nHeight ≤ i.nHeight

theorem onChain_self (i : Index) : OnChain i i := ⟨back_of_le le_rfl, le_rfl⟩

theorem onChain_next {fields : Fields} : OnChain j (next i fields) ↔ j = next i fields ∨
    OnChain j i := by
  constructor
  · intro ⟨hback, hle⟩
    by_cases h : j.nHeight ≤ i.nHeight
    · rw [back_next h] at hback
      exact Or.inr ⟨hback, h⟩
    · rw [back_of_le (Nat.lt_of_not_le h)] at hback
      exact Or.inl hback.symm
  · intro h
    rcases h with rfl | ⟨hback, hle⟩
    · exact onChain_self _
    · exact ⟨by rw [back_next hle, hback], hle.trans (Nat.le_succ _)⟩

end Index

end Soveroot.Chain
