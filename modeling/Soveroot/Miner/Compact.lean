import Soveroot.Sharechain.Profile

/-!
# Compact targets

A block header carries its target in four bytes. Three programs decode it: `compact_target` of
`contrib/mining_autonomy/autonomous_labnet_miner.py`, `target_from_compact` of
`contrib/mining_autonomy/sv2-independent-miner/src/block.rs`, and in the node `DeriveTarget` with
`arith_uint256::SetCompact`.

They mean the same by a compact value (`denoted`) and differ in what they refuse: the miner in Rust
lets a target of zero pass, and refuses an exponent of 33 or 34 even when the mantissa is small
enough (`decoders_agree_iff`).
-/

namespace Soveroot.Miner

open Py Check Wire

/-! ## The decoders -/

inductive Exn where
  | miningError (detail : String)
  | typeError
  deriving DecidableEq

def compactTarget (bits : Nat) : Except Exn Nat :=
  decodeCompact (.miningError "template contains an invalid compact target")
    (.miningError "template target is outside the 256-bit range") bits

namespace Rust

/-- `n.to_le_bytes()` of a `u32`. -/
def toLeBytes (n : UInt32) : Bytes := leBytes 4 n.toNat

/-- `array[offset..offset + source.len()].copy_from_slice(source)`. -/
def copyFromSlice (array : Bytes) (offset : Nat) (source : Bytes) : Bytes :=
  array.take offset ++ source ++ array.drop (offset + source.length)

def targetFromCompact (bits : UInt32) : Except String Bytes := do
  let exponent := (bits >>> 24).toNat
  let mantissa := bits &&& 0x007fffff
  require (bits &&& 0x00800000 = 0 ∧ mantissa ≠ 0) "invalid compact target"
  let value := if exponent ≤ 3 then mantissa >>> UInt32.ofNat (8 * (3 - exponent)) else mantissa
  let target : Bytes := List.replicate 32 0
  if exponent ≤ 3 then pure (copyFromSlice target 0 (toLeBytes value))
  else do
    let offset := exponent - 3
    require (offset + 3 ≤ target.length) "compact target exceeds 256 bits"
    pure (copyFromSlice target offset ((toLeBytes value).take 3))

end Rust

namespace Node

/-- `arith_uint256::SetCompact`, with the two flags it sets. -/
def setCompact (nCompact : UInt32) : BitVec 256 × Bool × Bool :=
  let nSize := (nCompact >>> 24).toNat
  let nWord := nCompact &&& 0x007fffff
  let nWord := if nSize ≤ 3 then nWord >>> UInt32.ofNat (8 * (3 - nSize)) else nWord
  let value : BitVec 256 :=
    if nSize ≤ 3 then BitVec.ofNat 256 nWord.toNat
    else BitVec.ofNat 256 nWord.toNat <<< (8 * (nSize - 3))
  let negative := nWord ≠ 0 ∧ nCompact &&& 0x00800000 ≠ 0
  let overflow := nWord ≠ 0 ∧
    (34 < nSize ∨ (0xff < nWord ∧ 33 < nSize) ∨ (0xffff < nWord ∧ 32 < nSize))
  (value, negative, overflow)

def deriveTarget (nBits : UInt32) (powLimit : BitVec 256) : Option (BitVec 256) :=
  let (target, negative, overflow) := setCompact nBits
  if negative ∨ target = 0 ∨ overflow ∨ powLimit < target then none else some target

end Node

/-! ## What a compact value denotes -/

def exponent (bits : UInt32) : Nat := (bits >>> 24).toNat

def mantissa (bits : UInt32) : Nat := (bits &&& 0x007fffff).toNat

/-- The sign bit. -/
def Negative (bits : UInt32) : Prop := bits &&& 0x00800000 ≠ 0

instance (bits : UInt32) : Decidable (Negative bits) := inferInstanceAs (Decidable (_ ≠ _))

/-- The target: the mantissa moved by whole bytes. -/
def denoted (e m : Nat) : Nat := if e ≤ 3 then m / 256 ^ (3 - e) else m * 256 ^ (e - 3)

variable (bits : UInt32)

theorem mantissa_lt : mantissa bits < 2 ^ 23 := by
  exact Nat.and_lt_two_pow _ (by decide)

theorem shiftRight_toNat : bits.toNat >>> 24 = exponent bits := by
  rfl

theorem and_toNat : bits.toNat &&& 0x007FFFFF = mantissa bits := by
  rfl

theorem sign_toNat : bits.toNat &&& 0x00800000 = 0 ↔ ¬ Negative bits := by
  rw [Negative, not_not, ← UInt32.toNat_inj, UInt32.toNat_and]
  rfl

theorem pow_256 (k : Nat) : 2 ^ (8 * k) = 256 ^ k := Nat.pow_mul 2 8 k

theorem toNat_shifted (h : exponent bits ≤ 3) :
    ((bits &&& 0x007fffff) >>> UInt32.ofNat (8 * (3 - exponent bits))).toNat =
      denoted (exponent bits) (mantissa bits) := by
  rw [denoted, if_pos h, UInt32.toNat_shiftRight,
    UInt32.toNat_ofNat_of_lt' (by simp [UInt32.size]; omega),
    Nat.mod_eq_of_lt (by omega), Nat.shiftRight_eq_div_pow, pow_256, mantissa]

theorem compactTarget_eq_ok {t : Nat} :
    compactTarget bits.toNat = .ok t ↔ ¬ Negative bits ∧
      denoted (exponent bits) (mantissa bits) = t ∧ 0 < t ∧ t < 2 ^ 256 := by
  have htarget : (if exponent bits ≤ 3 then mantissa bits >>> (8 * (3 - exponent bits))
      else mantissa bits <<< (8 * (exponent bits - 3))) =
        denoted (exponent bits) (mantissa bits) := by
    rw [denoted, Nat.shiftRight_eq_div_pow, Nat.shiftLeft_eq, pow_256, pow_256]
  have hmantissa : 0 < denoted (exponent bits) (mantissa bits) → mantissa bits ≠ 0 := by
    intro hpos hzero
    rw [hzero, denoted] at hpos
    split_ifs at hpos <;> simp at hpos
  simp only [compactTarget, decodeCompact, shiftRight_toNat, and_toNat, sign_toNat, htarget,
    bind_eq_ok,
    require_eq_ok, exists_const, pure_eq_ok, Except.ok.injEq, Nat.one_shiftLeft]
  constructor
  · rintro ⟨⟨hsign, -⟩, ⟨hpos, hlt⟩, rfl⟩
    exact ⟨hsign, rfl, hpos, hlt⟩
  · rintro ⟨hsign, rfl, hpos, hlt⟩
    exact ⟨⟨hsign, hmantissa hpos⟩, ⟨hpos, hlt⟩, rfl⟩

/-! ## The miner in Rust -/

variable {size offset : Nat} {source : Bytes}

theorem fromBytesLE_copyFromSlice (h : offset + source.length ≤ size) :
    fromBytesLE (Rust.copyFromSlice (List.replicate size 0) offset source) =
      256 ^ offset * fromBytesLE source := by
  rw [Rust.copyFromSlice, List.take_replicate, List.drop_replicate, Nat.min_eq_left (by omega),
    List.append_assoc, fromBytesLE_zeros_append, fromBytesLE_append_zeros]

theorem length_copyFromSlice (h : offset + source.length ≤ size) :
    (Rust.copyFromSlice (List.replicate size 0) offset source).length = size := by
  simp only [Rust.copyFromSlice, List.length_append, List.length_take, List.length_drop,
    List.length_replicate]
  omega

def IsTarget (target : Bytes) (t : Nat) : Prop := target.length = 32 ∧ fromBytesLE target = t

theorem targetFromCompact_cases :
    (¬ Negative bits ∧ mantissa bits ≠ 0 ∧ exponent bits ≤ 32 ∧
      ∃ target, Rust.targetFromCompact bits = .ok target ∧
        IsTarget target (denoted (exponent bits) (mantissa bits))) ∨
    (¬ (¬ Negative bits ∧ mantissa bits ≠ 0 ∧ exponent bits ≤ 32) ∧
      ∃ e, Rust.targetFromCompact bits = .error e) := by
  have hm := mantissa_lt bits
  have hzero : bits &&& 0x007fffff ≠ 0 ↔ mantissa bits ≠ 0 := by
    rw [mantissa, ne_eq, ← UInt32.toNat_inj]
    rfl
  rw [Rust.targetFromCompact]
  simp only [← exponent.eq_def, hzero, List.length_replicate]
  by_cases hok : ¬ Negative bits ∧ mantissa bits ≠ 0
  · have hcheck : bits &&& 0x00800000 = 0 ∧ mantissa bits ≠ 0 := ⟨not_not.1 hok.1, hok.2⟩
    rw [require_of_pos hcheck, ok_bind]
    by_cases hsmall : exponent bits ≤ 3
    · -- at most three bytes, of which some are cut off
      simp only [if_pos hsmall]
      refine .inl ⟨hok.1, hok.2, by omega, _, rfl,
        length_copyFromSlice (by simp [Rust.toLeBytes]), ?_⟩
      rw [fromBytesLE_copyFromSlice (by simp [Rust.toLeBytes]), Rust.toLeBytes,
        fromBytesLE_leBytes, toNat_shifted bits hsmall, Nat.pow_zero, Nat.one_mul]
      refine Nat.mod_eq_of_lt ?_
      rw [denoted, if_pos hsmall]
      exact (Nat.div_le_self _ _).trans_lt (hm.trans (by decide))
    · simp only [if_neg hsmall]
      by_cases hlarge : exponent bits ≤ 32
      · rw [require_of_pos (by omega), ok_bind]
        have hlen : ((Rust.toLeBytes (bits &&& 0x007fffff)).take 3).length = 3 := by
          simp [Rust.toLeBytes]
        have hbytes : (Rust.toLeBytes (bits &&& 0x007fffff)).take 3 =
            leBytes 3 (mantissa bits) := rfl
        refine .inl ⟨hok.1, hok.2, hlarge, _, rfl, length_copyFromSlice (by omega), ?_⟩
        rw [fromBytesLE_copyFromSlice (by omega), hbytes, fromBytesLE_leBytes,
          Nat.mod_eq_of_lt (hm.trans (by decide)), denoted, if_neg hsmall, Nat.mul_comm]
      · rw [require_of_neg (by omega)]
        exact .inr ⟨fun h => hlarge h.2.2, _, rfl⟩
  · have hcheck : ¬ (bits &&& 0x00800000 = 0 ∧ mantissa bits ≠ 0) :=
      fun h => hok ⟨not_not.2 h.1, h.2⟩
    rw [require_of_neg hcheck]
    exact .inr ⟨fun h => hok ⟨h.1, h.2.1⟩, _, rfl⟩

/-! ## The node -/

variable {e m : Nat}

theorem denoted_pos_iff : 0 < denoted e m ↔ 256 ^ (3 - e) ≤ m := by
  rw [denoted]
  split_ifs with h
  · rw [Nat.div_pos_iff]
    exact ⟨fun h => h.2, fun h => ⟨by positivity, h⟩⟩
  · have hzero : 3 - e = 0 := by omega
    rw [hzero, Nat.pow_zero]
    exact ⟨Nat.pos_of_mul_pos_right, fun hm => Nat.mul_pos hm (by positivity)⟩

theorem denoted_lt_iff (hm : m < 2 ^ 23) (hpos : 0 < m) :
    denoted e m < 2 ^ 256 ↔ e ≤ 32 ∨ (e = 33 ∧ m ≤ 0xffff) ∨ (e = 34 ∧ m ≤ 0xff) := by
  rw [denoted]
  split_ifs with hsmall
  · have hle : m / 256 ^ (3 - e) ≤ m := Nat.div_le_self _ _
    exact iff_of_true (hle.trans_lt (hm.trans (by decide))) (.inl (by omega))
  · by_cases hle : e ≤ 32
    · have hpow : 256 ^ (e - 3) ≤ 256 ^ 29 := Nat.pow_le_pow_right (by decide) (by omega)
      refine iff_of_true ?_ (.inl hle)
      calc m * 256 ^ (e - 3) ≤ m * 256 ^ 29 := Nat.mul_le_mul_left m hpow
        _ < 2 ^ 256 := by omega
    · by_cases hge : 35 ≤ e
      · have hpow : 256 ^ 32 ≤ 256 ^ (e - 3) := Nat.pow_le_pow_right (by decide) (by omega)
        refine iff_of_false (not_lt.2 ?_) (by omega)
        calc 2 ^ 256 = 1 * 256 ^ 32 := by norm_num
          _ ≤ m * 256 ^ (e - 3) := Nat.mul_le_mul hpos hpow
      · obtain rfl | rfl : e = 33 ∨ e = 34 := by omega
        · norm_num
          omega
        · norm_num
          omega

/-- The mantissa as the node keeps it. -/
def word : UInt32 :=
  if exponent bits ≤ 3 then (bits &&& 0x007fffff) >>> UInt32.ofNat (8 * (3 - exponent bits))
  else bits &&& 0x007fffff

theorem word_ne_zero_iff : word bits ≠ 0 ↔ 0 < denoted (exponent bits) (mantissa bits) := by
  rw [ne_eq, ← UInt32.toNat_inj, word]
  split_ifs with h
  · rw [toNat_shifted bits h]
    exact Nat.pos_iff_ne_zero.symm
  · have hzero : 3 - exponent bits = 0 := by omega
    rw [denoted_pos_iff, hzero, Nat.pow_zero, ← mantissa.eq_def]
    exact Nat.pos_iff_ne_zero.symm

theorem overflow_iff (hpos : 0 < denoted (exponent bits) (mantissa bits)) :
    34 < exponent bits ∨ (0xff < word bits ∧ 33 < exponent bits) ∨
      (0xffff < word bits ∧ 32 < exponent bits) ↔
    ¬ denoted (exponent bits) (mantissa bits) < 2 ^ 256 := by
  have hm : 0 < mantissa bits :=
    lt_of_lt_of_le (by positivity) (denoted_pos_iff.1 hpos)
  rw [denoted_lt_iff (mantissa_lt bits) hm]
  by_cases h : exponent bits ≤ 3
  · omega
  · have hword : (word bits).toNat = mantissa bits := by rw [word, if_neg h, mantissa]
    simp only [UInt32.lt_iff_toNat_lt, hword]
    have hff : (0xff : UInt32).toNat = 0xff := rfl
    have hffff : (0xffff : UInt32).toNat = 0xffff := rfl
    omega

theorem toNat_setCompact :
    (Node.setCompact bits).1.toNat = denoted (exponent bits) (mantissa bits) % 2 ^ 256 := by
  simp only [Node.setCompact, ← exponent.eq_def]
  by_cases h : exponent bits ≤ 3
  · rw [if_pos h, if_pos h, BitVec.toNat_ofNat, toNat_shifted bits h]
  · rw [if_neg h, if_neg h, BitVec.toNat_shiftLeft, BitVec.toNat_ofNat, Nat.shiftLeft_eq,
      ← mantissa.eq_def, pow_256, denoted, if_neg h, Nat.mod_mul_mod]

theorem deriveTarget_eq_some {n : BitVec 256} :
    Node.deriveTarget bits (BitVec.allOnes 256) = some n ↔ ¬ Negative bits ∧
      denoted (exponent bits) (mantissa bits) = n.toNat ∧ 0 < n.toNat := by
  have hvalue := toNat_setCompact bits
  have hflags : (Node.setCompact bits).2 = (decide (word bits ≠ 0 ∧ Negative bits),
      decide (word bits ≠ 0 ∧ (34 < exponent bits ∨ (0xff < word bits ∧ 33 < exponent bits) ∨
        (0xffff < word bits ∧ 32 < exponent bits)))) := rfl
  have hlimit : ∀ target : BitVec 256, ¬ BitVec.allOnes 256 < target := by
    intro target
    rw [BitVec.lt_def, BitVec.toNat_allOnes]
    omega
  rw [Node.deriveTarget]
  generalize Node.setCompact bits = result at hvalue hflags
  obtain ⟨target, negative, overflow⟩ := result
  obtain ⟨rfl, rfl⟩ := Prod.mk.inj hflags
  have hzero : target = 0 ↔ target.toNat = 0 := by rw [← BitVec.toNat_inj]; rfl
  simp only [decide_eq_true_eq, hlimit, or_false, hzero]
  by_cases hpos : 0 < denoted (exponent bits) (mantissa bits)
  · simp only [(word_ne_zero_iff bits).2 hpos, true_and, overflow_iff bits hpos, ne_eq,
      not_false_eq_true]
    by_cases hfits : denoted (exponent bits) (mantissa bits) < 2 ^ 256
    · rw [Nat.mod_eq_of_lt hfits] at hvalue
      rw [← hvalue] at hpos hfits ⊢
      by_cases hsign : Negative bits
      · simp [hsign]
      · simp only [hsign, hpos.ne', hfits, not_true_eq_false, or_self, if_false,
          Option.some.injEq, not_false_eq_true, true_and]
        rw [← BitVec.toNat_inj]
        exact ⟨fun heq => ⟨heq, heq ▸ hpos⟩, fun h => h.1⟩
    · have hn := n.isLt
      simp only [hfits, not_false_eq_true, or_true, if_true]
      exact iff_of_false (by simp) fun h => hfits (h.2.1 ▸ hn)
  · -- nothing is left of the mantissa
    have hnone : denoted (exponent bits) (mantissa bits) = 0 := by omega
    rw [hnone, Nat.zero_mod] at hvalue
    rw [if_pos (.inr (.inl hvalue)), hnone]
    exact iff_of_false (by simp) fun h => by omega

/-! ## Agreement -/

/-- All three accept and denote the same target, or all three refuse. -/
def DecodersAgree (bits : UInt32) : Prop :=
  (∃ t target n, compactTarget bits.toNat = .ok t ∧
    Rust.targetFromCompact bits = .ok target ∧ IsTarget target t ∧
    Node.deriveTarget bits (BitVec.allOnes 256) = some n ∧ n.toNat = t) ∨
  ((∃ e, compactTarget bits.toNat = .error e) ∧ (∃ e, Rust.targetFromCompact bits = .error e) ∧
    Node.deriveTarget bits (BitVec.allOnes 256) = none)

/-- A compact value the miner in Rust treats as the others do: it is refused by all for its sign
or its mantissa, or a byte of the mantissa is left and the exponent is at most 32, or it is too
large for 256 bits. -/
def Ordinary (bits : UInt32) : Prop :=
  Negative bits ∨ mantissa bits = 0 ∨
    (256 ^ (3 - exponent bits) ≤ mantissa bits ∧ exponent bits ≤ 32) ∨ 35 ≤ exponent bits ∨
    (exponent bits = 33 ∧ 0xffff < mantissa bits) ∨ (exponent bits = 34 ∧ 0xff < mantissa bits)

instance (bits : UInt32) : Decidable (Ordinary bits) := inferInstanceAs (Decidable (_ ∨ _))

/-- The compact values the miner in Python and the node accept. -/
def Accepted (bits : UInt32) : Prop :=
  ¬ Negative bits ∧ 0 < denoted (exponent bits) (mantissa bits) ∧
    denoted (exponent bits) (mantissa bits) < 2 ^ 256

variable {bits}

theorem accepted_cases (h : Accepted bits) :
    compactTarget bits.toNat = .ok (denoted (exponent bits) (mantissa bits)) ∧
      ∃ n, Node.deriveTarget bits (BitVec.allOnes 256) = some n ∧
        n.toNat = denoted (exponent bits) (mantissa bits) := by
  obtain ⟨hsign, hpos, hlt⟩ := h
  have hn : (BitVec.ofNat 256 (denoted (exponent bits) (mantissa bits))).toNat =
      denoted (exponent bits) (mantissa bits) := by
    rw [BitVec.toNat_ofNat, Nat.mod_eq_of_lt hlt]
  refine ⟨(compactTarget_eq_ok bits).2 ⟨hsign, rfl, hpos, hlt⟩, _, ?_, hn⟩
  exact (deriveTarget_eq_some bits).2 ⟨hsign, hn.symm, hn.symm ▸ hpos⟩

theorem refused_cases (h : ¬ Accepted bits) :
    (∃ e, compactTarget bits.toNat = .error e) ∧
      Node.deriveTarget bits (BitVec.allOnes 256) = none := by
  constructor
  · cases hpython : compactTarget bits.toNat with
    | error e => exact ⟨e, rfl⟩
    | ok t =>
      obtain ⟨hsign, rfl, hpos, hlt⟩ := (compactTarget_eq_ok bits).1 hpython
      exact absurd ⟨hsign, hpos, hlt⟩ h
  · cases hnode : Node.deriveTarget bits (BitVec.allOnes 256) with
    | none => rfl
    | some n =>
      obtain ⟨hsign, heq, hpos⟩ := (deriveTarget_eq_some bits).1 hnode
      exact absurd ⟨hsign, heq ▸ hpos, heq ▸ n.isLt⟩ h

theorem decodersAgree_iff_accepted :
    DecodersAgree bits ↔
      ((¬ Negative bits ∧ mantissa bits ≠ 0 ∧ exponent bits ≤ 32) ↔ Accepted bits) := by
  rcases targetFromCompact_cases bits with ⟨hsign, hm, he, target, htarget, hvalue⟩ |
    ⟨hrefused, e, herror⟩
  · have hrust : ¬ Negative bits ∧ mantissa bits ≠ 0 ∧ exponent bits ≤ 32 := ⟨hsign, hm, he⟩
    rw [iff_true_left hrust]
    constructor
    · rintro (⟨t, _, n, hpython, -⟩ | ⟨-, ⟨e, herror⟩, -⟩)
      · obtain ⟨-, rfl, hpos, hlt⟩ := (compactTarget_eq_ok bits).1 hpython
        exact ⟨hsign, hpos, hlt⟩
      · cases htarget.symm.trans herror
    · intro haccepted
      obtain ⟨hpython, n, hnode, hn⟩ := accepted_cases haccepted
      exact .inl ⟨_, target, n, hpython, htarget, hvalue, hnode, hn⟩
  · rw [iff_false_left hrefused]
    constructor
    · rintro (⟨_, _, _, -, hok, -⟩ | ⟨⟨e', hpython⟩, -⟩) haccepted
      · cases hok.symm.trans herror
      · cases (accepted_cases haccepted).1.symm.trans hpython
    · intro hnot
      obtain ⟨hpython, hnode⟩ := refused_cases hnot
      exact .inr ⟨hpython, ⟨e, herror⟩, hnode⟩

/-- **The decoders agree on ordinary values, and on no others.** -/
theorem decoders_agree_iff (bits : UInt32) : DecodersAgree bits ↔ Ordinary bits := by
  rw [decodersAgree_iff_accepted, Accepted, Ordinary]
  by_cases hsign : Negative bits
  · simp [hsign]
  by_cases hm : mantissa bits = 0
  · have hzero : denoted (exponent bits) 0 = 0 := by simp [denoted]
    simp [hm, hzero]
  · rw [denoted_pos_iff, denoted_lt_iff (mantissa_lt bits) (Nat.pos_of_ne_zero hm)]
    simp only [hsign, hm, not_false_eq_true, true_and, ne_eq, false_or]
    by_cases he : exponent bits ≤ 32
    · simp only [he, true_or, and_true, true_iff]
      omega
    · have hone : 256 ^ (3 - exponent bits) ≤ mantissa bits := by
        rw [show 3 - exponent bits = 0 by omega, Nat.pow_zero]
        omega
      omega

/-- The miner in Rust decodes a target of zero, which the other two refuse; and it refuses a
target of 256 bits, which the other two decode. -/
theorem decoders_disagree :
    (Rust.targetFromCompact 0x01003456 = .ok (List.replicate 32 0) ∧
      compactTarget 0x01003456 =
        .error (.miningError "template target is outside the 256-bit range") ∧
      Node.deriveTarget 0x01003456 (BitVec.allOnes 256) = none ∧ ¬ DecodersAgree 0x01003456) ∧
    Rust.targetFromCompact 0x2100ffff = .error "compact target exceeds 256 bits" ∧
      compactTarget 0x2100ffff = .ok (0xffff * 2 ^ 240) ∧
      Node.deriveTarget 0x2100ffff (BitVec.allOnes 256) = some (0xffff <<< 240) ∧
      ¬ DecodersAgree 0x2100ffff := by
  have hzero : Rust.targetFromCompact 0x01003456 = .ok (List.replicate 32 0) := by decide +kernel
  have hlarge : Node.deriveTarget 0x2100ffff (BitVec.allOnes 256) = some (0xffff <<< 240) := by
    decide +kernel
  refine ⟨⟨hzero, rfl, by decide +kernel, ?_⟩, rfl, rfl, hlarge, ?_⟩
  · rintro (⟨t, _, _, hpython, -⟩ | ⟨-, ⟨e, hrust⟩, -⟩)
    · cases hpython
    · cases hzero.symm.trans hrust
  · rintro (⟨_, target, _, -, hrust, -⟩ | ⟨-, -, hnode⟩)
    · cases hrust
    · cases hlarge.symm.trans hnode

end Soveroot.Miner
