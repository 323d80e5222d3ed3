import Mathlib.Algebra.Order.Ring.Nat
import Mathlib.Tactic.Ring
import Soveroot.Lib.Hex

/-!
# Numbers and their digits

A region of a buffer that is read and written in fields of one width is the number its bytes spell,
and the fields are its digits: `digit w m i` and `setDigit w m i v` obey the laws of an array.

A number can also be cut to a multiple of a unit that depends on its bit length, as a floating-point
format does (`Truncation`).
-/

namespace Digits

/-! ## In any base -/

section

variable {β m i j v : Nat}

/-- A number in three parts: below a digit, the digit, above it. -/
def parts (β m i v : Nat) : Nat := m % β ^ i + β ^ i * (v + β * (m / β ^ (i + 1)))

theorem parts_div_mod (hv : v < β) : parts β m i v / β ^ i % β = v := by
  have hpos : 0 < β ^ i := Nat.pow_pos (by omega)
  rw [parts, Nat.add_mul_div_left _ _ hpos, Nat.div_eq_of_lt (Nat.mod_lt _ hpos), Nat.zero_add,
    Nat.add_mul_mod_self_left, Nat.mod_eq_of_lt hv]

theorem parts_mod (β m i v : Nat) : parts β m i v % β ^ i = m % β ^ i := by
  rw [parts, Nat.add_mul_mod_self_left, Nat.mod_mod]

theorem parts_div (hv : v < β) : parts β m i v / β ^ (i + 1) = m / β ^ (i + 1) := by
  have hpos : 0 < β ^ i := Nat.pow_pos (by omega)
  rw [parts, Nat.pow_succ, ← Nat.div_div_eq_div_mul, Nat.add_mul_div_left _ _ hpos,
    Nat.div_eq_of_lt (Nat.mod_lt _ hpos), Nat.zero_add, Nat.add_mul_div_left _ _ (by omega),
    Nat.div_eq_of_lt hv, Nat.zero_add]

theorem mod_div_mod_of_lt (h : j < i) : m % β ^ i / β ^ j % β = m / β ^ j % β := by
  obtain ⟨k, rfl⟩ : ∃ k, i = j + (k + 1) := ⟨i - j - 1, by omega⟩
  rw [Nat.pow_add, Nat.mod_mul_right_div_self, Nat.pow_succ', Nat.mod_mul_right_mod]

theorem parts_div_mod_of_ne (hv : v < β) (h : j ≠ i) :
    parts β m i v / β ^ j % β = m / β ^ j % β := by
  rcases Nat.lt_or_gt_of_ne h with hlt | hgt
  · rw [← mod_div_mod_of_lt hlt, parts_mod, mod_div_mod_of_lt hlt]
  · -- and of the part above a lower one
    obtain ⟨k, rfl⟩ : ∃ k, j = i + 1 + k := ⟨j - (i + 1), by omega⟩
    rw [Nat.pow_add, ← Nat.div_div_eq_div_mul, parts_div hv, Nat.div_div_eq_div_mul]

end

/-! ## Fields of `w` bits -/

variable {w m i j v : Nat}

/-- Field `i` of `m`. -/
def digit (w m i : Nat) : Nat := m >>> (w * i) % 2 ^ w

/-- `m` with field `i` replaced: the fields below, the new one, the fields above. -/
def setDigit (w m i v : Nat) : Nat :=
  m - m >>> (w * i) <<< (w * i) + (v + m >>> (w * i + w) <<< w) <<< (w * i)

theorem digit_eq (w m i : Nat) : digit w m i = m / (2 ^ w) ^ i % 2 ^ w := by
  rw [digit, Nat.shiftRight_eq_div_pow, Nat.pow_mul]

theorem setDigit_eq (w m i v : Nat) : setDigit w m i v = parts (2 ^ w) m i v := by
  have hlow : m - m / 2 ^ (w * i) * 2 ^ (w * i) = m % 2 ^ (w * i) := by
    have h := Nat.mod_add_div m (2 ^ (w * i))
    rw [Nat.mul_comm (2 ^ (w * i))] at h
    omega
  simp only [setDigit, Nat.shiftRight_eq_div_pow, Nat.shiftLeft_eq, hlow, parts, ← Nat.pow_mul,
    Nat.mul_succ]
  ring

@[simp] theorem digit_zero (w i : Nat) : digit w 0 i = 0 := by simp [digit]

theorem digit_setDigit_self (hv : v < 2 ^ w) : digit w (setDigit w m i v) i = v := by
  rw [digit_eq, setDigit_eq, parts_div_mod hv]

theorem digit_setDigit_of_ne (hv : v < 2 ^ w) (h : j ≠ i) :
    digit w (setDigit w m i v) j = digit w m j := by
  rw [digit_eq, setDigit_eq, parts_div_mod_of_ne hv h, digit_eq]

theorem digit_setDigit (hv : v < 2 ^ w) :
    digit w (setDigit w m i v) j = if j = i then v else digit w m j := by
  by_cases h : j = i
  · rw [if_pos h, h, digit_setDigit_self hv]
  · rw [if_neg h, digit_setDigit_of_ne hv h]

end Digits

namespace Truncation

/-- The bit length. -/
def size (x : Nat) : Nat := if x = 0 then 0 else x.log2 + 1

variable {x k : Nat}

theorem size_le_iff : size x ≤ k ↔ x < 2 ^ k := by
  rw [size]
  by_cases h : x = 0
  · simp [h]
  · rw [if_neg h, Nat.succ_le_iff, Nat.log2_lt h]

theorem lt_two_pow_size (x : Nat) : x < 2 ^ size x := size_le_iff.1 le_rfl

theorem two_pow_le (h : k < size x) : 2 ^ k ≤ x := by
  by_contra hlt
  exact absurd (size_le_iff.2 (Nat.lt_of_not_le hlt)) (Nat.not_le.2 h)

theorem size_mono {y : Nat} (h : x ≤ y) : size x ≤ size y :=
  size_le_iff.2 (h.trans_lt (lt_two_pow_size y))

/-- The number cut to a multiple of `2 ^ unit`, for the unit of its length. -/
def truncate (unit : Nat → Nat) (x : Nat) : Nat := x / 2 ^ unit (size x) * 2 ^ unit (size x)

variable {unit : Nat → Nat}

theorem truncate_le (x : Nat) : truncate unit x ≤ x := Nat.div_mul_le_self _ _

theorem truncate_of_dvd (h : 2 ^ unit (size x) ∣ x) : truncate unit x = x :=
  Nat.div_mul_cancel h

theorem le_truncate {m : Nat} (hm : 2 ^ unit (size x) ∣ m) (h : m ≤ x) : m ≤ truncate unit x := by
  obtain ⟨q, rfl⟩ := hm
  rw [truncate, Nat.mul_comm]
  exact Nat.mul_le_mul_right _
    ((Nat.le_div_iff_mul_le (Nat.two_pow_pos _)).2 (by rwa [Nat.mul_comm]))

theorem truncate_mono (hunit : ∀ b, unit (b + 1) ≤ b) : Monotone (truncate unit) := by
  intro x y h
  by_cases hsize : size x = size y
  · apply le_truncate
    · rw [← hsize]
      exact Nat.dvd_mul_left _ _
    · exact (truncate_le x).trans h
  · -- a power of two lies between the two, at which the greater length starts
    obtain ⟨b, hb⟩ : ∃ b, size y = b + 1 := Nat.exists_eq_succ_of_ne_zero (by
      have := size_mono h
      omega)
    have hlt : size x ≤ b := by
      have := size_mono h
      omega
    calc truncate unit x ≤ x := truncate_le x
      _ ≤ 2 ^ b := (size_le_iff.1 hlt).le
      _ ≤ truncate unit y := by
          apply le_truncate
          · rw [hb]
            exact Nat.pow_dvd_pow 2 (hunit b)
          · exact two_pow_le (by omega)

end Truncation
