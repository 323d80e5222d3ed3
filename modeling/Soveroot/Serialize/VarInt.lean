import Mathlib
import Soveroot.Lib.Check
import Soveroot.Lib.Hex

/-!
# Variable-length integers

`WriteVarInt` and `ReadVarInt` of `src/serialize.h`, for an unsigned type of `w` bits. The digits
are to base 128, the first one first; every digit but the last has the high bit and stands for one
more than its value.

After some digits with the high bit the number read is `s`, and `digits s` are the only digits that
lead there. So what is written and what is read are both `digits (n / 128)` with the last digit
behind (`fillBuffer_nil`, `decode_eq_some`).
-/

namespace Soveroot.Serialize

open Py Check List

/-- What `ReadVarInt` throws: the failure of the stream, or its own. -/
inductive Failure where
  | endOfData
  | sizeTooLarge

def getSizeOfVarInt (n : Nat) : Nat :=
  if n ≤ 0x7F then 1 else getSizeOfVarInt (n / 128 - 1) + 1

/-- The first loop of `WriteVarInt`. The digits in `tmp` are written from the last one on, and stand
here in that order. -/
def fillBuffer (tmp : Bytes) (n : Nat) : Bytes :=
  let tmp := UInt8.ofNat (n % 128 + if tmp.isEmpty then 0 else 0x80) :: tmp
  if n ≤ 0x7F then tmp else fillBuffer tmp (n / 128 - 1)
  termination_by n

def writeVarInt (n : Nat) : Bytes := fillBuffer [] n

/-- `std::numeric_limits<I>::max()`. -/
def maxValue (w : Nat) : Nat := 2 ^ w - 1

/-- The loop of `ReadVarInt`. -/
def readLoop (w n : Nat) : Bytes → Except Failure (Nat × Bytes)
  | [] => throw .endOfData
  | chData :: is =>
    if maxValue w / 128 < n then throw .sizeTooLarge
    else
      let n := (n * 128 + chData.toNat % 128) % 2 ^ w
      if 0x80 ≤ chData.toNat then
        if n = maxValue w then throw .sizeTooLarge else readLoop w (n + 1) is
      else pure (n, is)

/-- `ReadVarInt`, with what it leaves in the stream. -/
def readVarInt (w : Nat) (is : Bytes) : Except Failure (Nat × Bytes) := readLoop w 0 is

/-! ## Digits -/

/-- The digits with the high bit after which the number read is `s`. -/
def digits : Nat → Bytes
  | 0 => []
  | m + 1 => digits (m / 128) ++ [UInt8.ofNat (m % 128 + 128)]

/-- `ReadVarInt` without bound. -/
def decode (s : Nat) : Bytes → Option (Nat × Bytes)
  | [] => none
  | b :: is =>
    if b.toNat < 128 then some (s * 128 + b.toNat, is)
    else decode (s * 128 + b.toNat % 128 + 1) is

theorem fillBuffer_of_ne_nil {tmp : Bytes} (h : tmp ≠ []) (n : Nat) :
    fillBuffer tmp n = digits (n + 1) ++ tmp := by
  have hempty : tmp.isEmpty = false := by simpa using h
  induction n using Nat.strong_induction_on generalizing tmp with
  | _ n ih =>
    rw [fillBuffer, digits]
    simp only [hempty, Bool.false_eq_true, if_false]
    split_ifs with hn
    · rw [Nat.div_eq_of_lt (by omega), digits]
      rfl
    · rw [ih _ (by omega) (cons_ne_nil _ _) rfl, Nat.sub_add_cancel (by omega), append_assoc]
      rfl

theorem fillBuffer_nil (n : Nat) : writeVarInt n = digits (n / 128) ++ [UInt8.ofNat (n % 128)] := by
  rw [writeVarInt, fillBuffer]
  simp only [isEmpty_nil, if_true, add_zero]
  split_ifs with hn
  · rw [Nat.div_eq_of_lt (by omega), digits]
    rfl
  · rw [fillBuffer_of_ne_nil (cons_ne_nil _ _), Nat.sub_add_cancel (by omega)]

theorem length_fillBuffer (tmp : Bytes) (n : Nat) :
    (fillBuffer tmp n).length = tmp.length + getSizeOfVarInt n := by
  fun_induction fillBuffer tmp n with
  | case1 tmp n tmp' hn => rw [getSizeOfVarInt, if_pos hn, length_cons]
  | case2 tmp n tmp' hn ih =>
    rw [ih, getSizeOfVarInt.eq_def n, if_neg hn, length_cons]
    omega

theorem getSizeOfVarInt_le {k n : Nat} (h : n < 128 ^ (k + 1)) : getSizeOfVarInt n ≤ k + 1 := by
  induction k generalizing n with
  | zero => rw [getSizeOfVarInt, if_pos (by omega)]
  | succ k ih =>
    rw [getSizeOfVarInt]
    split_ifs with hn
    · omega
    · exact Nat.succ_le_succ (ih (by rw [Nat.pow_succ] at h; omega))

theorem toNat_ofNat {m : Nat} (h : m < 256) : (UInt8.ofNat m).toNat = m :=
  UInt8.toNat_ofNat_of_lt' h

theorem digits_step (s : Nat) {b : UInt8} (hb : 128 ≤ b.toNat) :
    digits (s * 128 + b.toNat % 128 + 1) = digits s ++ [b] := by
  have hlt := b.toNat_lt
  have hbyte : UInt8.ofNat ((s * 128 + b.toNat % 128) % 128 + 128) = b := by
    rw [← UInt8.toNat_inj, toNat_ofNat (by omega)]
    omega
  rw [digits, hbyte, show (s * 128 + b.toNat % 128) / 128 = s by omega]

theorem decode_digits (s : Nat) (is : Bytes) : decode 0 (digits s ++ is) = decode s is := by
  fun_induction digits s generalizing is with
  | case1 => rfl
  | case2 m ih =>
    rw [append_assoc, ih, singleton_append, decode, toNat_ofNat (by omega), if_neg (by omega)]
    congr 1
    omega

theorem decode_writeVarInt (n : Nat) (rest : Bytes) :
    decode 0 (writeVarInt n ++ rest) = some (n, rest) := by
  rw [fillBuffer_nil, append_assoc, decode_digits, singleton_append, decode, toNat_ofNat (by omega),
    if_pos (by omega), Nat.div_add_mod']

variable {s n : Nat} {is rest : Bytes}

theorem decode_eq_some (h : decode s is = some (n, rest)) :
    digits s ++ is = writeVarInt n ++ rest ∧ s * 128 ≤ n := by
  induction is generalizing s with
  | nil => cases h
  | cons b is ih =>
    rw [decode] at h
    split_ifs at h with hb
    · cases h
      rw [fillBuffer_nil, show (s * 128 + b.toNat) / 128 = s by omega,
        show (s * 128 + b.toNat) % 128 = b.toNat by omega, UInt8.ofNat_toNat, append_assoc]
      exact ⟨rfl, by omega⟩
    · obtain ⟨hbytes, hle⟩ := ih h
      rw [digits_step s (by omega), append_assoc] at hbytes
      exact ⟨hbytes, by omega⟩

theorem decode_eq_none (h : decode s is = none) : ∀ b ∈ is, 0x80 ≤ b.toNat := by
  induction is generalizing s with
  | nil => simp
  | cons b is ih =>
    rw [decode] at h
    split_ifs at h with hb
    exact forall_mem_cons.2 ⟨by omega, ih h⟩

variable {w : Nat}

theorem readLoop_eq_ok (hw : 8 ≤ w) (hs : s < 2 ^ w) :
    readLoop w s is = .ok (n, rest) ↔ decode s is = some (n, rest) ∧ n < 2 ^ w := by
  obtain ⟨m, hm⟩ : ∃ m, 2 ^ w = 128 * m := pow_dvd_pow 2 (show 7 ≤ w by omega)
  induction is generalizing s with
  | nil => simp [readLoop, decode]
  | cons b is ih =>
    simp only [readLoop, maxValue, hm]
    by_cases hlarge : (128 * m - 1) / 128 < s
    · simp only [hlarge, if_true]
      refine iff_of_false nofun fun h => ?_
      have := (decode_eq_some h.1).2
      omega
    · rw [if_neg hlarge, Nat.mod_eq_of_lt (by omega), decode]
      by_cases hb : b.toNat < 128
      · rw [if_neg (by omega), if_pos hb]
        simp [Nat.mod_eq_of_lt hb]
        omega
      · rw [if_pos (by omega), if_neg hb]
        by_cases hmax : s * 128 + b.toNat % 128 = 128 * m - 1
        · rw [if_pos hmax]
          refine iff_of_false nofun fun h => ?_
          have := (decode_eq_some h.1).2
          omega
        · rw [if_neg hmax]
          simpa [hm] using ih (by omega)

/-- **One encoding.** -/
theorem varInt_unique (hw : 8 ≤ w) :
    (∀ n < 2 ^ w, ∀ rest, readVarInt w (writeVarInt n ++ rest) = .ok (n, rest)) ∧
    (∀ n < 2 ^ w, (writeVarInt n).length ≤ (w + 6) / 7 ∧
      (writeVarInt n).length = getSizeOfVarInt n) ∧
    (∀ is n rest, readVarInt w is = .ok (n, rest) → n < 2 ^ w ∧ is = writeVarInt n ++ rest) ∧
    ∀ is e, readVarInt w is = .error e →
      (∀ b ∈ is, 0x80 ≤ b.toNat) ∨ ∃ n rest, 2 ^ w ≤ n ∧ is = writeVarInt n ++ rest := by
  have hread : ∀ {is n rest}, readVarInt w is = .ok (n, rest) ↔
      decode 0 is = some (n, rest) ∧ n < 2 ^ w := readLoop_eq_ok hw (Nat.two_pow_pos w)
  refine ⟨fun n hn rest => hread.2 ⟨decode_writeVarInt n rest, hn⟩, fun n hn => ?_,
    fun is n rest h => ?_, fun is e h => ?_⟩
  · have hlength : (writeVarInt n).length = getSizeOfVarInt n := by
      rw [writeVarInt, length_fillBuffer, length_nil, Nat.zero_add]
    refine ⟨?_, hlength⟩
    obtain ⟨k, hk⟩ : ∃ k, (w + 6) / 7 = k + 1 := ⟨(w + 6) / 7 - 1, by omega⟩
    rw [hlength, hk]
    refine getSizeOfVarInt_le (hn.trans_le ?_)
    rw [show 128 = 2 ^ 7 from rfl, ← pow_mul]
    exact Nat.pow_le_pow_right (by decide) (by omega)
  · obtain ⟨hdecode, hn⟩ := hread.1 h
    exact ⟨hn, by simpa [digits] using (decode_eq_some hdecode).1⟩
  · cases hdecode : decode 0 is with
    | none => exact .inl (decode_eq_none hdecode)
    | some x =>
      refine .inr ⟨x.1, x.2, not_lt.1 fun hlt => ?_,
        by simpa [digits] using (decode_eq_some hdecode).1⟩
      rw [hread.2 ⟨hdecode, hlt⟩] at h
      cases h

theorem varInt_unique_byte : readVarInt 8 (writeVarInt 255 ++ [7]) = .ok (255, [7]) :=
  (varInt_unique (le_refl 8)).1 255 (by decide) [7]

end Soveroot.Serialize
