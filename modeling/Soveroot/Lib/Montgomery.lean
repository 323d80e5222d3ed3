import Soveroot.Lib.Edwards

/-!
# The Montgomery ladder on an Edwards curve

The Montgomery form of the curve has the coordinate `u = (1 + y) / (1 - y)`. A ladder keeps it as a
fraction `x / z` for two neighbouring multiples of a point and needs no other coordinate: one
formula doubles, and one adds two points whose difference is known. On the Edwards side both are
complete, so that the point at infinity, where `z` is zero, is no special case.
-/

namespace Edwards

variable {K : Type} [Field K] {C : Curve K} {P R : Point C} {x z x₂ z₂ x₃ z₃ k : K}

/-- The coordinate `u` of a point; zero at infinity. -/
def Point.u (P : Point C) : K := (1 + P.y) / (1 - P.y)

/-- `x / z` is the coordinate `u` that belongs to `y`. -/
def IsRatio (y x z : K) : Prop := ∃ c, c ≠ 0 ∧ x = c * (1 + y) ∧ z = c * (1 - y)

theorem IsRatio.div_eq (h : IsRatio P.y x z) : x / z = P.u := by
  obtain ⟨c, hc, rfl, rfl⟩ := h
  rw [Point.u, mul_div_mul_left _ _ hc]

namespace Curve

variable (C)

theorem one_add_d_mul_ne_zero (y : K) : 1 + C.d * (y * y) ≠ 0 := by
  intro h
  have hi : C.i * C.i = C.d * (y * y) := by
    rw [C.i_mul_i]
    linear_combination -h
  rw [C.eq_zero_of_mul_self_eq hi, mul_zero, mul_zero, add_zero] at h
  exact one_ne_zero h

theorem one_add_d_ne_zero : 1 + C.d ≠ 0 := by
  have h := C.one_add_d_mul_ne_zero 1
  rwa [one_mul, mul_one] at h

end Curve

/-! ## Doubling -/

theorem IsRatio.double (hk : C.d * (k + 1) = -k) (h : IsRatio P.y x z) :
    IsRatio (P + P).y ((x + z) * (x + z) * ((x - z) * (x - z)))
      (((x + z) * (x + z) - (x - z) * (x - z)) *
        ((x + z) * (x + z) + k * ((x + z) * (x + z) - (x - z) * (x - z)))) := by
  obtain ⟨c, hc, rfl, rfl⟩ := h
  have hholds := P.holds
  unfold Curve.Holds at hholds
  have hk1 : k + 1 ≠ 0 := fun h0 => by
    rw [h0, mul_zero] at hk
    exact one_ne_zero (by linear_combination h0 - hk)
  have hden := P.holds.one_sub_ne_zero P.holds
  have hsum : (P + P).y * (1 - C.d * P.x * P.x * P.y * P.y) = P.y * P.y + P.x * P.x := by
    rw [Point.add_y, div_mul_cancel₀ _ hden]
  have hy := C.one_add_d_mul_ne_zero P.y
  refine ⟨8 * c ^ 4 * (k + 1) * (1 + C.d * (P.y * P.y)) * (1 - C.d * P.x * P.x * P.y * P.y),
    ?_, ?_, ?_⟩
  · have h8 : (8 : K) ≠ 0 := by
      have h := pow_ne_zero 3 C.two_ne_zero
      norm_num at h
      exact h
    exact mul_ne_zero (mul_ne_zero (mul_ne_zero (mul_ne_zero h8 (pow_ne_zero 4 hc)) hk1) hy) hden
  · linear_combination -16 * c ^ 4 * P.y ^ 2 * hk +
      (8 * c ^ 4 * (k + 1) * (1 + C.d * P.y ^ 2) - 16 * c ^ 4 * P.y ^ 2 * (k + 1) * C.d) * hholds -
      8 * c ^ 4 * (k + 1) * (1 + C.d * P.y ^ 2) * hsum
  · linear_combination -16 * c ^ 4 * P.y ^ 2 * (1 - P.y ^ 2) * hk +
      8 * c ^ 4 * (k + 1) * (1 + C.d * P.y ^ 2) * (hsum - hholds)

/-! ## Adding with a known difference -/

theorem sub_y : (P - R).y = (P.y * R.y - P.x * R.x) / (1 + C.d * P.x * R.x * P.y * R.y) := by
  rw [sub_eq_add_neg, Point.add_y, Point.neg_x, Point.neg_y]
  congr 1 <;> ring

theorem common_ne_zero (P R : Point C) :
    1 + C.d * (P.y ^ 2 + R.y ^ 2 - P.y ^ 2 * R.y ^ 2) ≠ 0 := by
  intro h0
  have hP := P.holds
  have hR := R.holds
  unfold Curve.Holds at hP hR
  have hplus := P.holds.one_add_ne_zero R.holds
  have hminus := P.holds.one_sub_ne_zero R.holds
  refine mul_ne_zero (mul_ne_zero (C.one_add_d_mul_ne_zero P.y) (C.one_add_d_mul_ne_zero R.y))
    (mul_ne_zero hplus hminus) ?_
  linear_combination (1 + C.d * P.y ^ 2 * R.y ^ 2) * h0 +
    C.d ^ 2 * P.y ^ 2 * R.y ^ 2 * ((R.y ^ 2 - 1) * hP + (1 + C.d * P.y ^ 2) * P.x ^ 2 * hR)

theorem one_add_mul_one_add (P R : Point C) :
    (1 + (P + R).y) * (1 + (P - R).y) * (1 + C.d * (P.y ^ 2 + R.y ^ 2 - P.y ^ 2 * R.y ^ 2)) =
      (P.y + R.y) ^ 2 * (1 + C.d) := by
  have hP := P.holds
  have hR := R.holds
  unfold Curve.Holds at hP hR
  have hplus := P.holds.one_add_ne_zero R.holds
  have hminus := P.holds.one_sub_ne_zero R.holds
  rw [Point.add_y, sub_y, one_add_div hminus, one_add_div hplus, div_mul_div_comm,
    div_mul_eq_mul_div,
    div_eq_iff (mul_ne_zero hminus hplus)]
  linear_combination (1 - C.d * ((P.y * R.y) ^ 2 + 2 * (P.y * R.y))) *
    ((R.y ^ 2 - 1) * hP + (1 + C.d * P.y ^ 2) * P.x ^ 2 * hR)

theorem one_sub_mul_one_sub (P R : Point C) :
    (1 - (P + R).y) * (1 - (P - R).y) * (1 + C.d * (P.y ^ 2 + R.y ^ 2 - P.y ^ 2 * R.y ^ 2)) =
      (P.y - R.y) ^ 2 * (1 + C.d) := by
  have hP := P.holds
  have hR := R.holds
  unfold Curve.Holds at hP hR
  have hplus := P.holds.one_add_ne_zero R.holds
  have hminus := P.holds.one_sub_ne_zero R.holds
  rw [Point.add_y, sub_y, one_sub_div hminus, one_sub_div hplus, div_mul_div_comm,
    div_mul_eq_mul_div,
    div_eq_iff (mul_ne_zero hminus hplus)]
  linear_combination (1 - C.d * ((P.y * R.y) ^ 2 - 2 * (P.y * R.y))) *
    ((R.y ^ 2 - 1) * hP + (1 + C.d * P.y ^ 2) * P.x ^ 2 * hR)

theorem IsRatio.add {v : K} (hP : IsRatio P.y x₂ z₂) (hR : IsRatio R.y x₃ z₃)
    (hv : v * (1 - (P - R).y) = 1 + (P - R).y) (hne : 1 + (P - R).y ≠ 0) :
    IsRatio (P + R).y
      (((x₃ - z₃) * (x₂ + z₂) + (x₃ + z₃) * (x₂ - z₂)) ^ 2)
      (v * ((x₃ - z₃) * (x₂ + z₂) - (x₃ + z₃) * (x₂ - z₂)) ^ 2) := by
  obtain ⟨c, hc, rfl, rfl⟩ := hP
  obtain ⟨e, he, rfl, rfl⟩ := hR
  have hcommon := common_ne_zero P R
  have hplus := one_add_mul_one_add P R
  have hminus := one_sub_mul_one_sub P R
  have hd := C.one_add_d_ne_zero
  have h16 : (16 : K) ≠ 0 := by
    have h := pow_ne_zero 4 C.two_ne_zero
    norm_num at h
    exact h
  refine ⟨16 * (c * e) ^ 2 * (1 + (P - R).y) *
    (1 + C.d * (P.y ^ 2 + R.y ^ 2 - P.y ^ 2 * R.y ^ 2)) / (1 + C.d), ?_, ?_, ?_⟩
  · exact div_ne_zero
      (mul_ne_zero (mul_ne_zero (mul_ne_zero h16 (pow_ne_zero 2 (mul_ne_zero hc he))) hne)
      hcommon) hd
  · rw [div_mul_eq_mul_div, eq_div_iff hd]
    linear_combination -16 * (c * e) ^ 2 * hplus
  · rw [div_mul_eq_mul_div, eq_div_iff hd, ← hv]
    linear_combination -16 * (c * e) ^ 2 * v * hminus

end Edwards
