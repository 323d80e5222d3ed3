import Mathlib
import Soveroot.Lib.Check

/-!
# Withholding under a hidden mask

`contrib/pool_research/xor_withholding_model.py`. A worker sees the raw value of a share and chooses
which shares to report. Whether a share is a block shows only after it is combined with a mask whose
low bits are hidden; the model counts over all masks. The fractions of the result are the exact
quotients its floats are rounded from, and `repr` is Python's.

For a fixed raw value, combining with it permutes the masks, so exactly as many masks make it a
block as there are blocks (`card_masks`).
-/

namespace Soveroot.Pool

open Check List

inductive Exn where
  | valueError (text : String)
  | assertionError
  deriving DecidableEq

structure StrategyResult where
  name : String
  selectedShares : Nat
  totalShares : Nat
  hiddenMasks : Nat
  selectedCases : Nat
  blockCases : Nat
  selectedFraction : ℚ
  blockProbabilityGivenSelected : ℚ
  expectedBlockProbability : ℚ

def validateParameters (width clearBits blockBits : Int) : Except Exn Unit := do
  require (2 ≤ width) (.valueError "width must be at least two bits")
  require (0 ≤ clearBits ∧ clearBits < blockBits ∧ blockBits ≤ width)
    (.valueError "require 0 <= clear_bits < block_bits <= width")
  require (width ≤ 20)
    (.valueError "width above 20 is intentionally refused by this exhaustive model")

/-- `1 << bits`, where `bits` is not negative. -/
def shift (bits : Int) : Nat := 2 ^ bits.toNat

def effectiveMask (maskSuffix : Nat) (width clearBits : Int) : Except Exn Nat := do
  require (0 ≤ clearBits ∧ clearBits ≤ width)
    (.valueError "clear_bits must be within the modeled width")
  require (maskSuffix < shift (width - clearBits)) (.valueError "mask suffix does not fit")
  pure maskSuffix

def isShare (rawValue : Nat) (width clearBits : Int) : Bool := rawValue < shift (width - clearBits)

def isBlock (finalValue : Nat) (width blockBits : Int) : Bool :=
  finalValue < shift (width - blockBits)

/-- The inner loop of `analyze_strategy`, over the selected shares. -/
def countBlocks (width clearBits blockBits : Int) (selected : List Nat)
    (blockCases maskSuffix : Nat) :
    Except Exn Nat := do
  let mask ← effectiveMask maskSuffix width clearBits
  selected.foldlM (fun blockCases raw => do
    require (isShare raw width clearBits) .assertionError
    pure (blockCases + if isBlock (raw ^^^ mask) width blockBits then 1 else 0)) blockCases

def analyzeStrategy (repr : String → String) (name : String) (strategy : Nat → Int → Bool)
    (width clearBits blockBits : Int) : Except Exn StrategyResult := do
  validateParameters width clearBits blockBits
  let shares := List.range (shift (width - clearBits))
  let masks := List.range (shift (width - clearBits))
  let selected := shares.filter fun raw => strategy raw (width - clearBits)
  require (selected ≠ []) (.valueError s!"strategy {repr name} selects no shares")
  let blockCases ← masks.foldlM (countBlocks width clearBits blockBits selected) 0
  let selectedCases := selected.length * masks.length
  pure {
    name
    selectedShares := selected.length
    totalShares := shares.length
    hiddenMasks := masks.length
    selectedCases
    blockCases
    selectedFraction := selected.length / shares.length
    blockProbabilityGivenSelected := blockCases / selectedCases
    expectedBlockProbability := 1 / shift (blockBits - clearBits) }

theorem foldlM_add {α ε : Type} {l : List α} {f : Nat → α → Except ε Nat} {g : α → Nat}
    (h : ∀ a ∈ l, ∀ n, f n a = .ok (n + g a)) (n : Nat) :
    l.foldlM f n = .ok (n + (l.map g).sum) := by
  induction l generalizing n with
  | nil => rfl
  | cons a l ih =>
    rw [forall_mem_cons] at h
    rw [foldlM_cons, h.1, ok_bind, ih h.2, map_cons, sum_cons, Nat.add_assoc]

/-! ## Counting masks -/

/-- As many masks below `2 ^ n` take `raw` below `2 ^ m` as there are numbers below `2 ^ m`. -/
theorem card_masks {raw n m : Nat} (hraw : raw < 2 ^ n) (hm : m ≤ n) :
    ((Finset.range (2 ^ n)).filter fun mask => raw ^^^ mask < 2 ^ m).card = 2 ^ m := by
  have hself : ∀ a, raw ^^^ (raw ^^^ a) = a := fun a => by
    rw [← Nat.xor_assoc, Nat.xor_self, Nat.zero_xor]
  rw [← Finset.card_range (2 ^ m)]
  refine Finset.card_nbij' (raw ^^^ ·) (raw ^^^ ·) ?_ ?_ (fun a _ => hself a) fun a _ => hself a
  · simp [Set.MapsTo]
  · intro a ha
    have ha : a < 2 ^ m := by simpa using ha
    have hlt : a < 2 ^ n := ha.trans_le (Nat.pow_le_pow_right (by decide) hm)
    simp [hself, ha, Nat.xor_lt_two_pow hraw hlt]

theorem sum_blocks {n m : Nat} (hm : m ≤ n) (selected : List Nat)
    (h : ∀ raw ∈ selected, raw < 2 ^ n) :
    ∑ mask ∈ Finset.range (2 ^ n),
    (selected.map fun raw => if raw ^^^ mask < 2 ^ m then 1 else 0).sum =
      selected.length * 2 ^ m := by
  induction selected with
  | nil => simp
  | cons raw selected ih =>
    rw [forall_mem_cons] at h
    simp only [map_cons, sum_cons, Finset.sum_add_distrib, ih h.2, length_cons,
      ← Finset.card_filter, card_masks h.1 hm]
    ring

/-- **Withholding cannot be targeted.** Of the cases of every strategy that selects a share the same
part are blocks. -/
theorem withholding_untargeted (repr : String → String) (name : String)
    (strategy : Nat → Int → Bool) {width clearBits blockBits : Int}
    (hvalid : validateParameters width clearBits blockBits = .ok ())
    (hselects : ∃ raw < 2 ^ (width - clearBits).toNat, strategy raw (width - clearBits) = true) :
    ∃ result, analyzeStrategy repr name strategy width clearBits blockBits = .ok result ∧
      result.blockCases * 2 ^ (blockBits - clearBits).toNat = result.selectedCases ∧
      result.blockProbabilityGivenSelected = result.expectedBlockProbability := by
  have hparams := hvalid
  simp only [validateParameters, bind_eq_ok, require_eq_ok, exists_const] at hparams
  obtain ⟨-, ⟨hclear, hblock, hwidth⟩, -⟩ := hparams
  generalize hsel : ((List.range (shift (width - clearBits))).filter
    fun raw => strategy raw (width - clearBits)) = selected
  have hselected : ∀ raw ∈ selected, raw < shift (width - clearBits) := by
    intro raw hraw
    rw [← hsel] at hraw
    exact mem_range.1 (mem_of_mem_filter hraw)
  have hne : selected ≠ [] := by
    obtain ⟨raw, hraw, hstrategy⟩ := hselects
    rw [← hsel]
    exact ne_nil_of_mem (mem_filter.2 ⟨mem_range.2 hraw, hstrategy⟩)
  have hmask : ∀ mask ∈ List.range (shift (width - clearBits)), ∀ cases,
      countBlocks width clearBits blockBits selected cases mask = .ok (cases + (selected.map
        fun raw => if raw ^^^ mask < shift (width - blockBits) then 1 else 0).sum) := by
    intro mask hmask cases
    rw [countBlocks, effectiveMask, require_of_pos ⟨hclear, by omega⟩, ok_bind,
      require_of_pos (mem_range.1 hmask), ok_bind, pure_eq_ok, ok_bind]
    refine foldlM_add (fun raw hraw cases => ?_) _
    rw [require_of_pos (by simpa [isShare] using hselected raw hraw)]
    simp [isBlock]
  have hcases : ((List.range (shift (width - clearBits))).map fun mask => (selected.map fun raw =>
      if raw ^^^ mask < shift (width - blockBits) then 1 else 0).sum).sum =
        selected.length * shift (width - blockBits) := sum_blocks (by omega) selected hselected
  have hpow : shift (width - blockBits) * shift (blockBits - clearBits) =
      shift (width - clearBits) := by
    rw [shift, shift, shift, ← pow_add]
    congr 1
    omega
  refine ⟨?_, ?_, ?_, ?_⟩
  rotate_left
  · rw [analyzeStrategy, hvalid, ok_bind]
    simp only [hsel]
    rw [require_of_pos hne, ok_bind, foldlM_add hmask, hcases, ok_bind, Nat.zero_add]
    rfl
  · rw [length_range, ← hpow, ← Nat.mul_assoc]
    rfl
  · have hpos := length_pos_iff.2 hne
    have hblocks : 0 < shift (width - blockBits) := Nat.two_pow_pos _
    rw [length_range, ← hpow]
    push_cast
    field_simp

theorem withholding_untargeted_even :
    ∃ result, analyzeStrategy id "even" (fun raw _ => raw % 2 == 0) 3 1 2 = .ok result ∧
      result.blockCases * 2 = result.selectedCases := by
  obtain ⟨result, hrun, hcases, -⟩ := @withholding_untargeted id "even"
    (fun raw _ => raw % 2 == 0) 3 1 2 (by decide) ⟨0, by decide, by decide⟩
  exact ⟨result, hrun, hcases⟩

end Soveroot.Pool
