import Mathlib.Data.Nat.Bitwise
import Soveroot.Chain.Index
import Soveroot.Headers.Header
import Soveroot.Lib.Digits

/-!
# The difficulty of the next block

`GetNextWorkRequired` of `src/pow.cpp` computes the `nBits` of the next block from a chain, and
`PermittedDifficultyTransition` bounds them from the `nBits` of the parent alone. Each rounds to
compact form at its own moments, but rounding is monotone and leaves a number that came out of
compact form as it is (`valid_chain_permitted`).
-/

namespace Soveroot.Chain

open Miner Miner.Node Headers Truncation Option

/-- The part of `Consensus::Params` that `GetNextWorkRequired` reads. -/
structure Params extends ConsensusParams where
  enforceBIP94 : Bool
  fPowNoRetargeting : Bool

namespace Params

/-- The timespan of a period, no less than a quarter of the aim and no more than four times it. -/
def limitedTimespan (params : Params) (nActualTimespan : Int) : Int :=
  let nActualTimespan :=
    if nActualTimespan < params.nPowTargetTimespan.tdiv 4 then params.nPowTargetTimespan.tdiv 4
    else nActualTimespan
  if nActualTimespan > params.nPowTargetTimespan * 4 then params.nPowTargetTimespan * 4
  else nActualTimespan

/-- A target multiplied by a timespan, divided by the aim, and no more than the limit. -/
def retarget (params : Params) (nBits : UInt32) (nActualTimespan : Int) : BitVec 256 :=
  let bnNew := (setCompact nBits).1 * BitVec.ofNat 256 (nActualTimespan % 2 ^ 32).toNat /
    BitVec.ofNat 256 (params.nPowTargetTimespan % 2 ^ 64).toNat
  if params.powLimit < bnNew then params.powLimit else bnNew

/-- The height of the first block of the period that ends with `pindexLast`. -/
def nHeightFirst (params : Params) (pindexLast : Index) : Int :=
  pindexLast.nHeight - (params.difficultyAdjustmentInterval - 1)

/-- `CalculateNextWorkRequired`. A null pointer and a division by zero are `none`. -/
def calculateNextWorkRequired (params : Params) (pindexLast : Index) (nFirstBlockTime : Int) :
    Option UInt32 :=
  if params.fPowNoRetargeting then some pindexLast.fields.nBits
  else
    let nActualTimespan := params.limitedTimespan (pindexLast.blockTime - nFirstBlockTime)
    -- the real difficulty is always preserved in the first block of the period
    let pindex :=
      if params.enforceBIP94 then pindexLast.getAncestor (params.nHeightFirst pindexLast)
      else some pindexLast
    if params.nPowTargetTimespan % 2 ^ 64 = 0 then none
    else pindex.map fun pindex => getCompact (params.retarget pindex.fields.nBits nActualTimespan)

/-- The `nBits` of the last block that is not a special minimum difficulty one. -/
def lastRegular (params : Params) (nProofOfWorkLimit : UInt32) : Index → UInt32
  | .genesis fields => fields.nBits
  | .next pprev fields =>
    if (pprev.nHeight + 1 : Int).tmod params.difficultyAdjustmentInterval ≠ 0 ∧
        fields.nBits = nProofOfWorkLimit then
      lastRegular params nProofOfWorkLimit pprev
    else fields.nBits

/-- `GetNextWorkRequired`, for a block with the given time. A failed assertion and a remainder by
zero are `none`. -/
def getNextWorkRequired (params : Params) (pindexLast : Index) (blockTime : Int) : Option UInt32 :=
  let nProofOfWorkLimit := getCompact params.powLimit
  if params.difficultyAdjustmentInterval = 0 then none
  else if (pindexLast.nHeight + 1 : Int).tmod params.difficultyAdjustmentInterval ≠ 0 then
    if params.fPowAllowMinDifficultyBlocks then
      if blockTime > pindexLast.blockTime + params.nPowTargetSpacing * 2 then some nProofOfWorkLimit
      else some (params.lastRegular nProofOfWorkLimit pindexLast)
    else some pindexLast.fields.nBits
  else if params.nHeightFirst pindexLast < 0 then none
  else do
    let pindexFirst ← pindexLast.getAncestor (params.nHeightFirst pindexLast)
    params.calculateNextWorkRequired pindexLast pindexFirst.blockTime

/-- A chain whose genesis block has a target and whose later blocks carry the `nBits` required. -/
def ValidChain (params : Params) : Index → Prop
  | .genesis fields => (deriveTarget fields.nBits params.powLimit).isSome
  | .next pprev fields => ValidChain params pprev ∧
      params.getNextWorkRequired pprev fields.nTime.toNat = some fields.nBits

end Params

/-! ## What compact form keeps -/

/-- The unit of compact form: the mantissa has at most 23 bits, and moves by whole bytes. -/
def compactUnit (size : Nat) : Nat := 8 * (size / 8 - 2)

theorem compactUnit_succ_le (b : Nat) : compactUnit (b + 1) ≤ b := by
  rw [compactUnit]
  omega

/-- A number rounded to compact form. -/
def rounded : Nat → Nat := truncate compactUnit

theorem rounded_mono : Monotone rounded := truncate_mono compactUnit_succ_le

variable {m : Nat}

theorem rounded_denoted (e : Nat) (hm : m < 2 ^ 23) : rounded (denoted e m) = denoted e m := by
  apply truncate_of_dvd
  rw [denoted]
  by_cases he : e ≤ 3
  · rw [if_pos he]
    have hsize : size (m / 256 ^ (3 - e)) ≤ 23 :=
      size_le_iff.2 ((Nat.div_le_self _ _).trans_lt hm)
    rw [show compactUnit (size (m / 256 ^ (3 - e))) = 0 from by rw [compactUnit]; omega,
      Nat.pow_zero]
    exact one_dvd _
  · rw [if_neg he, ← pow_256]
    have hsize : size (m * 2 ^ (8 * (e - 3))) ≤ 23 + 8 * (e - 3) := by
      rw [size_le_iff, Nat.pow_add]
      exact Nat.mul_lt_mul_of_pos_right hm (Nat.two_pow_pos _)
    apply Dvd.dvd.mul_left
    apply Nat.pow_dvd_pow
    rw [compactUnit]
    omega

theorem and_signBit (c : Nat) : c &&& 0x00800000 = 0 ↔ c / 2 ^ 23 % 2 = 0 := by
  rw [show 0x00800000 = 2 ^ 23 from rfl, Nat.and_two_pow, Nat.testBit_eq_decide_div_mod_eq]
  by_cases h : c / 2 ^ 23 % 2 = 1
  · simp
  · simp only [h, decide_false, Bool.toNat_false, Nat.zero_mul, true_iff]
    omega

theorem exponent_mantissa_ofNat {e : Nat} (hm : m < 2 ^ 23) (he : e < 256) :
    exponent (UInt32.ofNat (m ||| e <<< 24)) = e ∧ mantissa (UInt32.ofNat (m ||| e <<< 24)) = m ∧
      ¬ Negative (UInt32.ofNat (m ||| e <<< 24)) := by
  have hsum : m ||| e <<< 24 = e * 2 ^ 24 + m := by
    rw [Nat.or_comm, Nat.shiftLeft_eq, Nat.mul_comm, ← Nat.two_pow_add_eq_or_of_lt (by omega)]
  have hlt : m ||| e <<< 24 < UInt32.size := by
    rw [hsum, UInt32.size]
    omega
  refine ⟨?_, ?_, ?_⟩
  · rw [← shiftRight_toNat, UInt32.toNat_ofNat_of_lt' hlt, hsum, Nat.shiftRight_eq_div_pow]
    omega
  · rw [← and_toNat, UInt32.toNat_ofNat_of_lt' hlt, hsum, show 0x007FFFFF = 2 ^ 23 - 1 from rfl,
      Nat.and_two_pow_sub_one_eq_mod]
    omega
  · rw [← sign_toNat, UInt32.toNat_ofNat_of_lt' hlt, hsum, and_signBit]
    omega

theorem bitLength_eq (n : BitVec 256) : bitLength n = size n.toNat := by
  have hzero : n = 0 ↔ n.toNat = 0 := BitVec.toNat_inj.symm
  simp only [bitLength, size, hzero]

variable {x nSize : Nat}

theorem denoted_small (hsize : nSize = (size x + 7) / 8) (h : nSize ≤ 3) :
    x * 256 ^ (3 - nSize) < 2 ^ 24 ∧
    (x * 256 ^ (3 - nSize) < 2 ^ 23 → denoted nSize (x * 256 ^ (3 - nSize)) = rounded x) ∧
    (2 ^ 23 ≤ x * 256 ^ (3 - nSize) →
      denoted (nSize + 1) (x * 256 ^ (3 - nSize) / 256) = rounded x) := by
  have hlt : x < 2 ^ (8 * nSize) := size_le_iff.1 (by omega)
  have hrounded : size x < 24 → rounded x = x := by
    intro hsmall
    apply truncate_of_dvd
    rw [show compactUnit (size x) = 0 from by rw [compactUnit]; omega]
    exact one_dvd _
  refine ⟨?_, ?_, ?_⟩
  · calc x * 256 ^ (3 - nSize) < 2 ^ (8 * nSize) * 256 ^ (3 - nSize) :=
          mul_lt_mul_of_pos_right hlt (by positivity)
      _ = 2 ^ 24 := by
          rw [← pow_256, ← pow_add]
          congr 1
          omega
  · intro hc
    have hx : x < 2 ^ 23 := (Nat.le_mul_of_pos_right x (by positivity)).trans_lt hc
    have hsx := size_le_iff.2 hx
    rw [denoted, if_pos h, Nat.mul_div_cancel _ (by positivity), hrounded (by omega)]
  · intro hc
    by_cases hthree : nSize = 3
    · have hc' : 2 ^ 23 ≤ x := by simpa [hthree] using hc
      have hsx : ¬ size x ≤ 23 := fun hle => absurd (size_le_iff.1 hle) (not_lt.2 hc')
      rw [hthree, denoted, if_neg (by decide), rounded, truncate,
        show compactUnit (size x) = 8 from by rw [compactUnit]; omega]
      simp
    · obtain ⟨k, hk⟩ : ∃ k, 3 - nSize = k + 1 := ⟨2 - nSize, by omega⟩
      rw [denoted, if_pos (by omega), hk, Nat.pow_succ, ← Nat.mul_assoc,
        Nat.mul_div_cancel _ (by decide),
        show 3 - (nSize + 1) = k from by omega, Nat.mul_div_cancel _ (by positivity),
          hrounded (by omega)]

theorem denoted_large (hsize : nSize = (size x + 7) / 8) (h : 3 < nSize) :
    x / 2 ^ (8 * (nSize - 3)) < 2 ^ 24 ∧
    (x / 2 ^ (8 * (nSize - 3)) < 2 ^ 23 →
      denoted nSize (x / 2 ^ (8 * (nSize - 3))) = rounded x) ∧
    (2 ^ 23 ≤ x / 2 ^ (8 * (nSize - 3)) →
      denoted (nSize + 1) (x / 2 ^ (8 * (nSize - 3)) / 256) = rounded x) := by
  have hlt : x < 2 ^ (8 * nSize) := size_le_iff.1 (by omega)
  refine ⟨?_, ?_, ?_⟩
  · rw [Nat.div_lt_iff_lt_mul (Nat.two_pow_pos _), ← Nat.pow_add]
    rwa [show 24 + 8 * (nSize - 3) = 8 * nSize from by omega]
  · intro hc
    rw [Nat.div_lt_iff_lt_mul (Nat.two_pow_pos _), ← Nat.pow_add, ← size_le_iff] at hc
    rw [denoted, if_neg (by omega), ← pow_256, rounded, truncate,
      show compactUnit (size x) = 8 * (nSize - 3) from by rw [compactUnit]; omega]
  · intro hc
    have hsx : ¬ size x ≤ 23 + 8 * (nSize - 3) := by
      rw [size_le_iff, Nat.pow_add, not_lt]
      exact (Nat.le_div_iff_mul_le (Nat.two_pow_pos _)).1 hc
    rw [denoted, if_neg (by omega), ← pow_256, rounded, truncate, Nat.div_div_eq_div_mul,
      show compactUnit (size x) = 8 * (nSize + 1 - 3) from by rw [compactUnit]; omega,
      show 8 * (nSize + 1 - 3) = 8 * (nSize - 3) + 8 from by omega, Nat.pow_add]

theorem denoted_getCompact (n : BitVec 256) :
    denoted (exponent (getCompact n)) (mantissa (getCompact n)) = rounded n.toNat ∧
      ¬ Negative (getCompact n) := by
  obtain ⟨nSize, hsize⟩ : ∃ nSize, nSize = (size n.toNat + 7) / 8 := ⟨_, rfl⟩
  have hle : nSize ≤ 32 := by
    have := size_le_iff.2 n.isLt
    omega
  -- the first mantissa has at most 24 bits; when it has all of them, it gives up a byte
  suffices h : ∀ c, c < 2 ^ 24 → (c < 2 ^ 23 → denoted nSize c = rounded n.toNat) →
      (2 ^ 23 ≤ c → denoted (nSize + 1) (c / 256) = rounded n.toNat) →
      ∀ result : UInt32,
        result = (if c &&& 0x00800000 ≠ 0 then UInt32.ofNat (c >>> 8 ||| (nSize + 1) <<< 24)
        else UInt32.ofNat (c ||| nSize <<< 24)) →
      denoted (exponent result) (mantissa result) = rounded n.toNat ∧ ¬ Negative result by
    by_cases hsmall : nSize ≤ 3
    · obtain ⟨hlt, hlow, hhigh⟩ := denoted_small hsize hsmall
      apply h _ hlt hlow hhigh
      have hx : n.toNat % 2 ^ 64 = n.toNat := by
        apply Nat.mod_eq_of_lt
        have :=
          (Nat.le_mul_of_pos_right n.toNat (show 0 < 256 ^ (3 - nSize) by positivity)).trans_lt hlt
        omega
      simp only [getCompact, bitLength_eq, ← hsize, if_pos hsmall, hx,
        Nat.shiftLeft_eq _ (8 * _), pow_256]
      split_ifs <;> rfl
    · obtain ⟨hlt, hlow, hhigh⟩ := denoted_large hsize (Nat.lt_of_not_le hsmall)
      apply h _ hlt hlow hhigh
      have hx : (n >>> (8 * (nSize - 3))).toNat % 2 ^ 64 = n.toNat / 2 ^ (8 * (nSize - 3)) := by
        rw [BitVec.toNat_ushiftRight, Nat.shiftRight_eq_div_pow, Nat.mod_eq_of_lt (by omega)]
      simp only [getCompact, bitLength_eq, ← hsize, if_neg hsmall, hx]
      split_ifs <;> rfl
  intro c hlt hlow hhigh result hresult
  have hbit : c &&& 0x00800000 ≠ 0 ↔ 2 ^ 23 ≤ c := by
    rw [ne_eq, and_signBit]
    omega
  by_cases hc : 2 ^ 23 ≤ c
  · obtain ⟨he, hm, hsign⟩ :=
      exponent_mantissa_ofNat (show c / 256 < 2 ^ 23 by omega) (show nSize + 1 < 256 by omega)
    rw [if_pos (hbit.2 hc), Nat.shiftRight_eq_div_pow] at hresult
    rw [hresult, he, hm]
    exact ⟨hhigh hc, hsign⟩
  · obtain ⟨he, hm, hsign⟩ :=
      exponent_mantissa_ofNat (show c < 2 ^ 23 by omega) (show nSize < 256 by omega)
    rw [if_neg (mt hbit.1 hc)] at hresult
    rw [hresult, he, hm]
    exact ⟨hlow (Nat.lt_of_not_le hc), hsign⟩

/-! ## Targets along a chain -/

/-- The number that `nBits` denotes. -/
def target (nBits : UInt32) : Nat := denoted (exponent nBits) (mantissa nBits)

theorem rounded_target (nBits : UInt32) : rounded (target nBits) = target nBits :=
  rounded_denoted _ (mantissa_lt nBits)

/-- A target that is positive or zero and does not exceed the limit. -/
def Sound (powLimit : BitVec 256) (nBits : UInt32) : Prop :=
  ¬ Negative nBits ∧ target nBits ≤ powLimit.toNat

variable {powLimit : BitVec 256} {nBits : UInt32}

theorem Sound.toNat_setCompact (h : Sound powLimit nBits) :
    (setCompact nBits).1.toNat = target nBits := by
  rw [Miner.toNat_setCompact]
  exact Nat.mod_eq_of_lt (h.2.trans_lt powLimit.isLt)

theorem Sound.setCompact_eq (h : Sound powLimit nBits) :
    setCompact nBits = (BitVec.ofNat 256 (target nBits), false, false) := by
  have hvalue : (setCompact nBits).1 = BitVec.ofNat 256 (target nBits) := by
    rw [← h.toNat_setCompact, BitVec.ofNat_toNat, BitVec.setWidth_eq]
  have hflags : (setCompact nBits).2 = (decide (word nBits ≠ 0 ∧ Negative nBits),
      decide (word nBits ≠ 0 ∧ (34 < exponent nBits ∨ (0xff < word nBits ∧ 33 < exponent nBits) ∨
        (0xffff < word nBits ∧ 32 < exponent nBits)))) := rfl
  have hoverflow :
    ¬ (word nBits ≠ 0 ∧ (34 < exponent nBits ∨ (0xff < word nBits ∧ 33 < exponent nBits) ∨
      (0xffff < word nBits ∧ 32 < exponent nBits))) := by
    intro ⟨hword, hover⟩
    exact (overflow_iff nBits ((word_ne_zero_iff nBits).1 hword)).1 hover
      (h.2.trans_lt powLimit.isLt)
  rw [decide_eq_false hoverflow, decide_eq_false (fun hn => h.1 hn.2)] at hflags
  exact Prod.ext hvalue hflags

theorem sound_of_deriveTarget (h : (deriveTarget nBits powLimit).isSome) :
    Sound powLimit nBits := by
  obtain ⟨t, ht⟩ := isSome_iff_exists.1 h
  have hall : deriveTarget nBits (BitVec.allOnes 256) = some t ∧ ¬ powLimit < t := by
    rw [deriveTarget] at ht ⊢
    generalize setCompact nBits = result at ht ⊢
    obtain ⟨value, negative, overflow⟩ := result
    have hlimit : ¬ BitVec.allOnes 256 < value := by
      rw [BitVec.lt_def, BitVec.toNat_allOnes]
      omega
    simp only [ite_none_left_eq_some, not_or, Option.some.injEq] at ht ⊢
    obtain ⟨⟨hnegative, hzero, hoverflow, hle⟩, rfl⟩ := ht
    exact ⟨⟨⟨hnegative, hzero, hoverflow, hlimit⟩, rfl⟩, hle⟩
  obtain ⟨hsign, hvalue, -⟩ := (deriveTarget_eq_some nBits).1 hall.1
  refine ⟨hsign, ?_⟩
  rw [target, hvalue]
  exact BitVec.le_def.1 (BitVec.not_lt.1 hall.2)

theorem sound_getCompact {n : BitVec 256} (h : n ≤ powLimit) : Sound powLimit (getCompact n) := by
  obtain ⟨hvalue, hsign⟩ := denoted_getCompact n
  refine ⟨hsign, ?_⟩
  rw [target, hvalue]
  exact (truncate_le _).trans (BitVec.le_def.1 h)

theorem target_getCompact (n : BitVec 256) : target (getCompact n) = rounded n.toNat :=
  (denoted_getCompact n).1

/-! ## One block -/

namespace Params

/-- No minimum difficulty blocks, and numbers that do not overflow. -/
structure Regular (params : Params) : Prop where
  no_minimum : params.fPowAllowMinDifficultyBlocks = false
  four_le : 4 ≤ params.nPowTargetTimespan
  timespan_lt : params.nPowTargetTimespan < 2 ^ 30
  spacing_le : params.nPowTargetSpacing ≤ params.nPowTargetTimespan
  fits : params.powLimit.toNat * 4 * params.nPowTargetTimespan.toNat < 2 ^ 256

variable {params : Params}

/-- The exact target after a period. -/
def exact (params : Params) (t timespan : Nat) : Nat :=
  min params.powLimit.toNat (t * timespan / params.nPowTargetTimespan.toNat)

theorem exact_mono (t : Nat) : Monotone (params.exact t) := fun _ _ h =>
  min_le_min le_rfl (Nat.div_le_div_right (Nat.mul_le_mul_left t h))

variable {timespan : Nat}

theorem toNat_retarget (hparams : params.Regular) (hs : Sound params.powLimit nBits)
    (h : timespan ≤ 4 * params.nPowTargetTimespan.toNat) :
    (params.retarget nBits timespan).toNat = params.exact (target nBits) timespan := by
  have hfour := hparams.four_le
  have htimespan := hparams.timespan_lt
  obtain ⟨T, hT⟩ := Int.eq_ofNat_of_zero_le (show 0 ≤ params.nPowTargetTimespan by omega)
  rw [hT, Int.toNat_natCast] at h
  have hproduct : target nBits * timespan < 2 ^ 256 := by
    refine lt_of_le_of_lt ?_ hparams.fits
    rw [hT, Int.toNat_natCast, Nat.mul_assoc]
    exact Nat.mul_le_mul hs.2 h
  have hmul : (BitVec.ofNat 256 ((timespan : Int) % 2 ^ 32).toNat).toNat = timespan := by
    rw [BitVec.toNat_ofNat]
    omega
  have hdiv : (BitVec.ofNat 256 (params.nPowTargetTimespan % 2 ^ 64).toNat).toNat = T := by
    rw [BitVec.toNat_ofNat]
    omega
  have hvalue : ((setCompact nBits).1 * BitVec.ofNat 256 ((timespan : Int) % 2 ^ 32).toNat /
      BitVec.ofNat 256 (params.nPowTargetTimespan % 2 ^ 64).toNat).toNat =
      target nBits * timespan / T := by
    rw [BitVec.toNat_udiv, BitVec.toNat_mul, hmul, hdiv, hs.toNat_setCompact,
      Nat.mod_eq_of_lt hproduct]
  rw [retarget, exact, hT, Int.toNat_natCast, ← hvalue, hT]
  by_cases hlimit : params.powLimit < (setCompact nBits).1 *
      BitVec.ofNat 256 ((timespan : Int) % 2 ^ 32).toNat / BitVec.ofNat 256
        ((T : Int) % 2 ^ 64).toNat
  · rw [if_pos hlimit, min_eq_left (BitVec.lt_def.1 hlimit).le]
  · rw [if_neg hlimit, min_eq_right (BitVec.le_def.1 (BitVec.not_lt.1 hlimit))]

theorem retarget_le (nBits : UInt32) (timespan : Int) :
    params.retarget nBits timespan ≤ params.powLimit := by
  rw [retarget]
  split_ifs with h
  · exact BitVec.le_refl _
  · exact BitVec.not_lt.1 h

section

variable (hparams : params.Regular) (hs : Sound params.powLimit nBits)
  (h : timespan ≤ 4 * params.nPowTargetTimespan.toNat)
include hparams hs h

theorem target_retarget :
    target (getCompact (params.retarget nBits timespan)) =
      rounded (params.exact (target nBits) timespan) := by
  rw [target_getCompact, toNat_retarget hparams hs h]

theorem toNat_adjusted :
    (params.adjusted nBits timespan).toNat = rounded (params.exact (target nBits) timespan) := by
  have heq : params.adjusted nBits timespan =
      (setCompact (getCompact (params.retarget nBits timespan))).1 :=
    rfl
  rw [heq, (sound_getCompact (retarget_le nBits timespan)).toNat_setCompact,
    target_retarget hparams hs h]

end

/-- A target between the exact ones after a quarter of the aim and after four times the aim. -/
def Between (params : Params) (t : Nat) (nBits : UInt32) : Prop :=
  rounded (params.exact t (params.nPowTargetTimespan.toNat / 4)) ≤ target nBits ∧
    target nBits ≤ rounded (params.exact t (4 * params.nPowTargetTimespan.toNat))

theorem permitted_of_between (hparams : params.Regular) {height : Int} {old new : UInt32}
    (hheight : height.tmod params.difficultyAdjustmentInterval = 0)
    (hold : Sound params.powLimit old) (hnew : Sound params.powLimit new)
    (h : params.Between (target old) new) :
    params.permittedDifficultyTransition height old new = true := by
  have hfour := hparams.four_le
  have hlargest : params.nPowTargetTimespan * 4 = ((4 * params.nPowTargetTimespan.toNat : Nat) :
      Int) := by
    omega
  have hsmallest : params.nPowTargetTimespan.tdiv 4 = ((params.nPowTargetTimespan.toNat / 4 : Nat) :
      Int) := by
    rw [Int.tdiv_eq_ediv_of_nonneg (by omega)]
    omega
  have hmax : ¬ params.adjusted old (params.nPowTargetTimespan * 4) < (setCompact new).1 := by
    rw [BitVec.lt_def, hlargest, toNat_adjusted hparams hold le_rfl, hnew.toNat_setCompact]
    exact not_lt.2 h.2
  have hmin : ¬ (setCompact new).1 < params.adjusted old (params.nPowTargetTimespan.tdiv 4) := by
    rw [BitVec.lt_def, hsmallest, toNat_adjusted hparams hold (by omega), hnew.toNat_setCompact]
    exact not_lt.2 h.1
  simp only [ConsensusParams.permittedDifficultyTransition, hparams.no_minimum, hheight, hmax, hmin]
  rfl

theorem between_self (hparams : params.Regular) (hs : Sound params.powLimit nBits) :
    params.Between (target nBits) nBits := by
  have hpos : 0 < params.nPowTargetTimespan.toNat := by
    have := hparams.four_le
    omega
  have hlow : params.exact (target nBits) (params.nPowTargetTimespan.toNat / 4) ≤ target nBits := by
    apply (min_le_right _ _).trans
    apply Nat.div_le_of_le_mul
    rw [Nat.mul_comm]
    exact Nat.mul_le_mul_right _ (Nat.div_le_self _ _)
  have hhigh :
      target nBits ≤ params.exact (target nBits) (4 * params.nPowTargetTimespan.toNat) := by
    apply le_min hs.2
    rw [Nat.le_div_iff_mul_le hpos]
    exact Nat.mul_le_mul_left _ (Nat.le_mul_of_pos_left _ (by decide))
  have hrounded := rounded_target nBits
  exact ⟨(rounded_mono hlow).trans_eq hrounded, hrounded.symm.trans_le (rounded_mono hhigh)⟩

theorem limitedTimespan_spec (hparams : params.Regular) (nActualTimespan : Int) :
    ∃ timespan : Nat, params.limitedTimespan nActualTimespan = timespan ∧
      params.nPowTargetTimespan.toNat / 4 ≤ timespan ∧
        timespan ≤ 4 * params.nPowTargetTimespan.toNat := by
  have hfour := hparams.four_le
  have hquarter : params.nPowTargetTimespan.tdiv 4 = params.nPowTargetTimespan / 4 :=
    Int.tdiv_eq_ediv_of_nonneg (by omega)
  refine ⟨(params.limitedTimespan nActualTimespan).toNat, ?_⟩
  simp only [limitedTimespan, hquarter]
  split_ifs <;> omega

/-! ## A chain -/

variable {i : Index}

theorem nBits_back (hmin : params.fPowAllowMinDifficultyBlocks = false)
    (hvalid : params.ValidChain i) {height : Nat}
    (h : ∀ k : Nat, height < k → k ≤ i.nHeight →
      (k : Int).tmod params.difficultyAdjustmentInterval ≠ 0) :
    (i.back height).fields.nBits = i.fields.nBits := by
  induction i with
  | genesis fields => rfl
  | next pprev fields ih =>
    by_cases hlt : pprev.nHeight < height
    · rw [Index.back_of_le (i := .next pprev fields) hlt]
    · have hle := Nat.le_of_not_lt hlt
      have hinner : (pprev.nHeight + 1 : Int).tmod params.difficultyAdjustmentInterval ≠ 0 :=
        h (pprev.nHeight + 1) (by omega) le_rfl
      have hrequired := hvalid.2
      simp only [getNextWorkRequired, hinner, hmin, ne_eq, not_false_eq_true, if_true,
        ite_none_left_eq_some, Bool.false_eq_true, if_false, Option.some.injEq] at hrequired
      rw [Index.back_next hle, ih hvalid.1 fun k hlow hhigh => h k hlow (by simp; omega)]
      exact hrequired.2

theorem nBits_first (hmin : params.fPowAllowMinDifficultyBlocks = false) {first : Index}
    (hvalid : params.ValidChain i)
    (hheight : (i.nHeight + 1 : Int).tmod params.difficultyAdjustmentInterval = 0)
    (hfirst : ¬ params.nHeightFirst i < 0)
    (h : i.getAncestor (params.nHeightFirst i) = some first) :
    first.fields.nBits = i.fields.nBits := by
  obtain ⟨height, hcast⟩ := Int.eq_ofNat_of_zero_le (Int.not_lt.1 hfirst)
  have hle : height ≤ i.nHeight := by
    by_contra hlt
    rw [Index.getAncestor, if_pos (.inl (by omega))] at h
    exact absurd h (by simp)
  rw [hcast, Index.getAncestor_natCast hle, some.injEq] at h
  rw [← h]
  apply nBits_back hmin hvalid
  -- two multiples of the interval are no closer than the interval
  intro k hk hki hmod
  have hdvd := Int.dvd_sub (Int.dvd_of_tmod_eq_zero hheight) (Int.dvd_of_tmod_eq_zero hmod)
  have hbound := Int.le_of_dvd (by omega) hdvd
  rw [nHeightFirst] at hcast
  omega

theorem calculateNextWorkRequired_cases {nFirstBlockTime : Int} {nBits : UInt32}
    (h : params.calculateNextWorkRequired i nFirstBlockTime = some nBits) :
    i.fields.nBits = nBits ∨ ∃ j, (j = i ∨ i.getAncestor (params.nHeightFirst i) = some j) ∧
      getCompact (params.retarget j.fields.nBits
        (params.limitedTimespan (i.blockTime - nFirstBlockTime))) = nBits := by
  rw [calculateNextWorkRequired] at h
  by_cases hretarget : params.fPowNoRetargeting = true
  · rw [if_pos hretarget] at h
    exact .inl (some.inj h)
  · rw [if_neg hretarget, ite_none_left_eq_some, map_eq_some_iff] at h
    obtain ⟨-, j, hj, hbits⟩ := h
    refine .inr ⟨j, ?_, hbits⟩
    by_cases hbip : params.enforceBIP94 = true
    · rw [if_pos hbip] at hj
      exact .inr hj
    · rw [if_neg hbip] at hj
      exact .inl (some.inj hj).symm

/-- What the next block carries: at the end of a period a target between the bounds, and otherwise
that of its parent. -/
theorem getNextWorkRequired_spec (hparams : params.Regular) (hvalid : params.ValidChain i)
    (hs : Sound params.powLimit i.fields.nBits) {time : Int} {nBits : UInt32}
    (h : params.getNextWorkRequired i time = some nBits) : Sound params.powLimit nBits ∧
      if (i.nHeight + 1 : Int).tmod params.difficultyAdjustmentInterval = 0 then
        params.Between (target i.fields.nBits) nBits
      else i.fields.nBits = nBits := by
  rw [getNextWorkRequired] at h
  by_cases hheight : (i.nHeight + 1 : Int).tmod params.difficultyAdjustmentInterval = 0
  · rw [if_pos hheight]
    simp only [hheight, ne_eq, not_true_eq_false, if_false, ite_none_left_eq_some,
      bind_eq_bind, bind_eq_some_iff] at h
    obtain ⟨hzero, hfirst, first, hancestor, hnext⟩ := h
    rcases calculateNextWorkRequired_cases hnext with hsame | ⟨j, hj, hbits⟩
    · rw [← hsame]
      exact ⟨hs, between_self hparams hs⟩
    · obtain ⟨timespan, htimespan, hlow, hhigh⟩ :=
        limitedTimespan_spec hparams (i.blockTime - first.blockTime)
      have hj : j.fields.nBits = i.fields.nBits := by
        rcases hj with rfl | hj
        · rfl
        · exact nBits_first hparams.no_minimum hvalid hheight hfirst hj
      rw [hj, htimespan] at hbits
      rw [← hbits]
      refine ⟨sound_getCompact (retarget_le _ _), ?_⟩
      rw [Between, target_retarget hparams hs hhigh]
      exact ⟨rounded_mono (exact_mono _ hlow), rounded_mono (exact_mono _ hhigh)⟩
  · rw [if_neg hheight]
    simp only [hheight, hparams.no_minimum, ne_eq, not_false_eq_true, if_true, Bool.false_eq_true,
      if_false, ite_none_left_eq_some, some.injEq] at h
    rw [← h.2]
    exact ⟨hs, rfl⟩

theorem sound_of_valid (hparams : params.Regular) (hvalid : params.ValidChain i) :
    Sound params.powLimit i.fields.nBits := by
  induction i with
  | genesis fields => exact sound_of_deriveTarget hvalid
  | next pprev fields ih =>
    exact (getNextWorkRequired_spec hparams hvalid.1 (ih hvalid.1) hvalid.2).1

theorem validChain_onChain {j : Index} (hvalid : params.ValidChain i) (h : j.OnChain i) :
    params.ValidChain j := by
  induction i with
  | genesis fields =>
    obtain rfl : Index.genesis fields = j := h.1
    exact hvalid
  | next pprev fields ih =>
    rcases Index.onChain_next.1 h with rfl | h
    · exact hvalid
    · exact ih hvalid.1 h

/-- Every block of a valid chain has a target within the limit, and one that its parent permits. -/
theorem valid_chain_permitted (hparams : params.Regular) {tip : Index}
    (hvalid : params.ValidChain tip)
    {block : Index} (hblock : block.OnChain tip) :
    (∃ target, setCompact block.fields.nBits = (target, false, false) ∧ target ≤ params.powLimit) ∧
    ∀ parent, block.pprev = some parent →
      params.permittedDifficultyTransition block.nHeight parent.fields.nBits block.fields.nBits =
        true := by
  have hvalid := validChain_onChain hvalid hblock
  have hs := sound_of_valid hparams hvalid
  refine ⟨⟨_, hs.setCompact_eq, ?_⟩, ?_⟩
  · rw [BitVec.le_def, BitVec.toNat_ofNat, Nat.mod_eq_of_lt (hs.2.trans_lt params.powLimit.isLt)]
    exact hs.2
  · intro parent hparent
    cases block with
    | genesis fields => exact absurd hparent (by simp [Index.pprev])
    | next pprev fields =>
      obtain rfl : pprev = parent := some.inj hparent
      have hparent := sound_of_valid hparams hvalid.1
      have hnext := (getNextWorkRequired_spec hparams hvalid.1 hparent hvalid.2).2
      by_cases hheight : (pprev.nHeight + 1 : Int).tmod params.difficultyAdjustmentInterval = 0
      · rw [if_pos hheight] at hnext
        exact permitted_of_between hparams hheight hparent hs hnext
      · rw [if_neg hheight] at hnext
        simp only [ConsensusParams.permittedDifficultyTransition, hparams.no_minimum,
          Bool.false_eq_true,
          if_false, Index.nHeight_next, Nat.cast_add, Nat.cast_one, hheight]
        exact decide_eq_true hnext

def twoBlocks : Params where
  powLimit := BitVec.ofNat 256 (2 ^ 200)
  fPowAllowMinDifficultyBlocks := false
  nPowTargetSpacing := 2
  nPowTargetTimespan := 4
  enforceBIP94 := true
  fPowNoRetargeting := false

theorem twoBlocks_regular : twoBlocks.Regular := ⟨rfl, by decide, by decide, by decide, by decide⟩

/-- The fields of a block with the given time and `nBits`. -/
def timed (nTime nBits : UInt32) : Fields := ⟨.filled 0, 1, nTime, nBits⟩

def threeSeconds : Index := .next (.genesis (timed 0 0x04123456)) (timed 3 0x04123456)

theorem threeSeconds_valid : twoBlocks.ValidChain threeSeconds := by
  have hgenesis : (deriveTarget 0x04123456 twoBlocks.powLimit).isSome := by decide +kernel
  exact ⟨hgenesis, by decide +kernel⟩

theorem getNextWorkRequired_threeSeconds (time : Int) :
    twoBlocks.getNextWorkRequired threeSeconds time = some 0x040da740 := by
  have hfirst : twoBlocks.nHeightFirst threeSeconds = ((0 : Nat) : Int) := by decide +kernel
  have hinterval : twoBlocks.difficultyAdjustmentInterval = 2 := rfl
  rw [getNextWorkRequired, hinterval, if_neg (by decide), if_neg (by decide), hfirst,
    if_neg (by decide), Index.getAncestor_natCast (Nat.zero_le _), bind_eq_bind, bind_some,
    calculateNextWorkRequired, hfirst, Index.getAncestor_natCast (Nat.zero_le _)]
  decide +kernel

theorem valid_chain_permitted_threeSeconds :
    twoBlocks.ValidChain (.next threeSeconds (timed 5 0x040da740)) ∧
    twoBlocks.permittedDifficultyTransition 2 0x04123456 0x040da740 = true :=
  have hvalid : twoBlocks.ValidChain (.next threeSeconds (timed 5 0x040da740)) :=
    ⟨threeSeconds_valid, getNextWorkRequired_threeSeconds _⟩
  ⟨hvalid,
    (valid_chain_permitted twoBlocks_regular hvalid (Index.onChain_self _)).2 threeSeconds rfl⟩

end Params

end Soveroot.Chain
