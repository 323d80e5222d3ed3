import Soveroot.Coins.Undo

/-!
# The block tree

A `CBlockIndex` is its chain back to the genesis block; two pointers are equal when the chains are.
`GetAncestor` and `LastCommonAncestor` walk with skip pointers. They are shown to reach what walking
from parent to parent reaches.
-/

namespace Soveroot.Coins

open Py Check Writes

/-- A `CBlockIndex`, with the block that `ReadBlock` is to find for it. -/
inductive BlockIndex where
  | genesis (hash : Digest)
  | next (prev : BlockIndex) (hash : Digest) (block : Block)
  deriving DecidableEq

namespace BlockIndex

def hash : BlockIndex → Digest
  | genesis hash => hash
  | next _ hash _ => hash

def height : BlockIndex → Nat
  | genesis _ => 0
  | next prev _ _ => prev.height + 1

section

variable (prev : BlockIndex) (hash : Digest) (block : Block)

@[simp] theorem hash_next :
    (next prev hash block).hash = hash := rfl

@[simp] theorem height_next :
    (next prev hash block).height = prev.height + 1 := rfl

end

def back (i : BlockIndex) (height : Nat) : BlockIndex :=
  match i with
  | genesis _ => i
  | next prev _ _ => if prev.height < height then i else prev.back height

/-! ## Skip pointers -/

def invertLowestOne (n : Nat) : Nat := n &&& (n - 1)

/-- `GetSkipHeight`. -/
def skipHeight (height : Nat) : Nat :=
  if height < 2 then 0
  else if height &&& 1 ≠ 0 then invertLowestOne (invertLowestOne (height - 1)) + 1
  else invertLowestOne height

/-- The `pskip` of a block on `prev`, as `BuildSkip` sets it. -/
def skipOn (prev : BlockIndex) : BlockIndex := prev.back (skipHeight (prev.height + 1))

theorem height_back_le (i : BlockIndex) (height : Nat) : (i.back height).height ≤ i.height := by
  induction i with
  | genesis hash => exact le_rfl
  | next prev hash block ih =>
    rw [back]
    split_ifs
    · exact le_rfl
    · exact ih.trans (Nat.le_succ _)

/-- The loop of `GetAncestor`. -/
def walkTo (height : Nat) (i : BlockIndex) : BlockIndex :=
  match i with
  | genesis _ => i
  | next prev _ _ =>
    let heightSkip := skipHeight (prev.height + 1)
    let heightSkipPrev := skipHeight prev.height
    if prev.height + 1 ≤ height then i
    else if heightSkip = height ∨
        (heightSkip > height ∧ ¬ (heightSkipPrev < heightSkip - 2 ∧ heightSkipPrev ≥ height)) then
      walkTo height prev.skipOn
    else walkTo height prev
  termination_by i.height
  decreasing_by
  · exact Nat.lt_succ_of_le (height_back_le prev _)
  · exact Nat.lt_succ_self _

def getAncestor (i : BlockIndex) (height : Nat) : Option BlockIndex :=
  if height > i.height then none else some (walkTo height i)

/-- The loops of `LastCommonAncestor` on blocks of one height. -/
def forkOf (pa pb : BlockIndex) : Option BlockIndex :=
  if pa = pb then some pa
  else
    match pa, pb with
    | next pa _ _, next pb _ _ =>
      if pa.skipOn ≠ pb.skipOn then forkOf pa.skipOn pb.skipOn else forkOf pa pb
    | _, _ => none
  termination_by pa.height
  decreasing_by
  · exact Nat.lt_succ_of_le (height_back_le pa _)
  · exact Nat.lt_succ_self _

def lastCommonAncestor (pa pb : BlockIndex) : Option BlockIndex :=
  if pa.height > pb.height then (pa.getAncestor pb.height).bind fun pa => forkOf pa pb
  else if pb.height > pa.height then (pb.getAncestor pa.height).bind fun pb => forkOf pa pb
  else forkOf pa pb

/-! ## Ancestors -/

/-- A block is on the chain of another. -/
inductive Ancestor : BlockIndex → BlockIndex → Prop where
  | self (i : BlockIndex) : Ancestor i i
  | next {i prev : BlockIndex} (h : Ancestor i prev) (hash : Digest) (block : Block) :
      Ancestor i (.next prev hash block)

variable {i j k f pa pb : BlockIndex}

theorem Ancestor.trans (h : Ancestor i j) (h' : Ancestor j k) : Ancestor i k := by
  induction h' with
  | self => exact h
  | next _ hash block ih => exact ih.next hash block

theorem Ancestor.height_le (h : Ancestor i j) : i.height ≤ j.height := by
  induction h with
  | self => exact le_rfl
  | next _ _ _ ih => exact ih.trans (Nat.le_succ _)

theorem ancestor_back (i : BlockIndex) (height : Nat) : Ancestor (i.back height) i := by
  induction i with
  | genesis hash => exact .self _
  | next prev hash block ih =>
    rw [back]
    split_ifs
    · exact .self _
    · exact ih.next hash block

variable {height : Nat}

theorem back_of_le (h : i.height ≤ height) : i.back height = i := by
  cases i with
  | genesis hash => rfl
  | next prev hash block => exact if_pos h

theorem height_back (h : height ≤ i.height) : (i.back height).height = height := by
  induction i with
  | genesis hash => exact (Nat.le_zero.1 h).symm
  | next prev hash block ih =>
    rw [back]
    split_ifs with hlt
    · exact le_antisymm hlt h
    · exact ih (Nat.le_of_not_lt hlt)

theorem back_next_of_le {hash : Digest} {block : Block} (h : height ≤ i.height) :
    (next i hash block).back height = i.back height := if_neg (Nat.not_lt.2 h)

theorem Ancestor.back (h : Ancestor i j) (hle : height ≤ i.height) :
    j.back height = i.back height := by
  induction h with
  | self => rfl
  | next h hash block ih => rw [back_next_of_le (hle.trans h.height_le), ih]

theorem back_back {height' : Nat} (h : height ≤ height') (h' : height' ≤ i.height) :
    (i.back height').back height = i.back height :=
  ((ancestor_back i height').back (by rwa [height_back h'])).symm

theorem Ancestor.back_height (h : Ancestor i j) : j.back i.height = i := by
  rw [h.back le_rfl, back_of_le le_rfl]

theorem Ancestor.of_height_le (h : Ancestor i j) (hk : Ancestor k j) (hle : i.height ≤ k.height) :
    Ancestor i k := by
  have hi := ancestor_back k i.height
  rwa [← hk.back hle, h.back_height] at hi

/-! ## The walks are right -/

theorem skipHeight_le (height : Nat) : skipHeight (height + 1) ≤ height := by
  have hone (n : Nat) : invertLowestOne n ≤ n - 1 := Nat.and_le_right
  simp only [skipHeight]
  split_ifs with hlt hodd
  · exact Nat.zero_le _
  · have h₁ := hone (height + 1 - 1)
    have h₂ := hone (invertLowestOne (height + 1 - 1))
    omega
  · exact hone (height + 1)

theorem walkTo_eq (i : BlockIndex) : walkTo height i = i.back height := by
  fun_induction walkTo height i with
  | case1 hash => rfl
  | case2 prev hash block hle => exact (if_pos hle).symm
  | case3 prev hash block heightSkip heightSkipPrev hle hskip ih =>
    rw [ih, skipOn, back_next_of_le (by omega), back_back (by omega) (skipHeight_le _)]
  | case4 prev hash block heightSkip heightSkipPrev hle hskip ih =>
    rw [ih, back_next_of_le (by omega)]

theorem getAncestor_of_le (h : height ≤ i.height) :
    i.getAncestor height = some (i.back height) := by
  rw [getAncestor, if_neg (Nat.not_lt.2 h), walkTo_eq]

/-- The last block of both chains. -/
structure Fork (pa pb f : BlockIndex) : Prop where
  left : Ancestor f pa
  right : Ancestor f pb
  height_le : ∀ i, Ancestor i pa → Ancestor i pb → i.height ≤ f.height

theorem forkOf_spec (hheight : pa.height = pb.height) (hroot : pa.back 0 = pb.back 0) :
    ∃ f, forkOf pa pb = some f ∧ Fork pa pb f := by
  fun_induction forkOf pa pb with
  | case1 pb => exact ⟨pb, rfl, .self _, .self _, fun i hi _ => hi.height_le⟩
  | case2 pa ha ba pb hb bb hskip hne ih =>
    have heq : pa.height = pb.height := Nat.succ.inj hheight
    have hlea := skipHeight_le pa.height
    have hleb := skipHeight_le pb.height
    have hsa : Ancestor pa.skipOn (next pa ha ba) := (ancestor_back pa _).next ha ba
    have hsb : Ancestor pb.skipOn (next pb hb bb) := (ancestor_back pb _).next hb bb
    have hskips : pa.skipOn.height = pb.skipOn.height := by
      rw [skipOn, skipOn, height_back hlea, height_back hleb, heq]
    obtain ⟨f, hf, hfork⟩ := ih hskips
      (by rw [skipOn, skipOn, back_back (Nat.zero_le _) hlea, back_back (Nat.zero_le _) hleb]
          rwa [back_next_of_le (Nat.zero_le _), back_next_of_le (Nat.zero_le _)] at hroot)
    refine ⟨f, hf, hfork.left.trans hsa, hfork.right.trans hsb, fun i hia hib => ?_⟩
    rcases Nat.le_total i.height pa.skipOn.height with hle | hle
    · exact hfork.height_le i (hia.of_height_le hsa hle) (hib.of_height_le hsb (hskips ▸ hle))
    · -- a block of both chains above the skip pointers would make them one
      refine (hskip ?_).elim
      calc pa.skipOn = (next pa ha ba).back pa.skipOn.height := hsa.back_height.symm
        _ = i.back pb.skipOn.height := by rw [hia.back hle, hskips]
        _ = (next pb hb bb).back pb.skipOn.height := (hib.back (hskips ▸ hle)).symm
        _ = pb.skipOn := hsb.back_height
  | case3 pa ha ba pb hb bb hskip hne ih =>
    obtain ⟨f, hf, hfork⟩ := ih (Nat.succ.inj hheight) hroot
    refine ⟨f, hf, hfork.left.next _ _, hfork.right.next _ _, fun i hia hib => ?_⟩
    have hlt : i.height ≠ (next pa ha ba).height := fun heq => by
      have hta := back_of_le heq.ge
      have htb := back_of_le (hheight ▸ heq).ge
      rw [hia.back_height] at hta
      rw [hib.back_height] at htb
      exact hne (hta.symm.trans htb)
    have hle : i.height ≤ pa.height := Nat.le_of_lt_succ (lt_of_le_of_ne hia.height_le hlt)
    exact hfork.height_le i (hia.of_height_le ((Ancestor.self pa).next _ _) hle)
      (hib.of_height_le ((Ancestor.self pb).next _ _) (Nat.succ.inj hheight ▸ hle))
  | case4 pa pb hne hnot =>
    -- two blocks of height zero are the root of the tree
    match pa, pb with
    | .genesis a, .genesis b => exact (hne hroot).elim
    | .genesis a, .next _ _ _ => simp [height] at hheight
    | .next _ _ _, .genesis b => simp [height] at hheight
    | .next a ha ba, .next b hb bb => exact (hnot a ha ba b hb bb rfl rfl).elim

theorem Fork.symm (h : Fork pa pb f) : Fork pb pa f :=
  ⟨h.right, h.left, fun i hib hia => h.height_le i hia hib⟩

theorem Fork.of_back (hle : pb.height ≤ pa.height) (h : Fork (pa.back pb.height) pb f) :
    Fork pa pb f where
  left := h.left.trans (ancestor_back pa _)
  right := h.right
  height_le i hia hib := h.height_le i
    (hia.of_height_le (ancestor_back pa _) (by rw [height_back hle]; exact hib.height_le)) hib

theorem lastCommonAncestor_spec (hroot : pa.back 0 = pb.back 0) :
    ∃ f, lastCommonAncestor pa pb = some f ∧ Fork pa pb f := by
  rw [lastCommonAncestor]
  split_ifs with hgt hlt
  · obtain ⟨f, hf, hfork⟩ := forkOf_spec (height_back hgt.le)
      (by rw [back_back (Nat.zero_le _) hgt.le, hroot])
    exact ⟨f, by rw [getAncestor_of_le hgt.le, Option.bind_some, hf], hfork.of_back hgt.le⟩
  · obtain ⟨f, hf, hfork⟩ := forkOf_spec (height_back hlt.le).symm
      (by rw [back_back (Nat.zero_le _) hlt.le, hroot])
    exact ⟨f, by rw [getAncestor_of_le hlt.le, Option.bind_some, hf],
      (hfork.symm.of_back hlt.le).symm⟩
  · exact forkOf_spec (by omega) hroot

end BlockIndex

end Soveroot.Coins
