import Mathlib.Algebra.Field.Basic
import Mathlib.Algebra.Field.ZMod
import Mathlib.Algebra.Group.Even
import Mathlib.Tactic.FieldSimp
import Mathlib.Tactic.LinearCombination
import Mathlib.Tactic.Ring

/-!
# Edwards curves

The curve `y² - x² = 1 + d x² y²` over a field in which `-1` is a square and `d` is not. The
addition law is complete: its denominators do not vanish on the curve, so there are no special
cases, and the group axioms are identities of rational functions on the curve. Each is a combination
of the curve's equations.
-/

/-! ## Double and add -/

namespace Py

/-- `while scalar: …`: adds to the result the multiples of the addend that the bits of the scalar
name, for a scalar of at most `bits` bits. -/
def doubleAndAdd {α : Type} (add : α → α → α) : Nat → α → α → Nat → α
  | 0, result, _, _ => result
  | bits + 1, result, addend, scalar =>
    if scalar = 0 then result
    else
      doubleAndAdd add bits (if scalar % 2 = 1 then add result addend else result)
        (add addend addend) (scalar / 2)

variable {α : Type} {bits n : Nat} {add : α → α → α} {r a : α}

/-- The loop follows any reading of its values in a commutative monoid that its addition follows. -/
theorem doubleAndAdd_reads {G : Type} [AddCommMonoid G] {Reads : α → G → Prop}
    (hadd : ∀ {a b g h}, Reads a g → Reads b h → Reads (add a b) (g + h)) {g h : G} (hr : Reads r g)
    (ha : Reads a h) (hn : n < 2 ^ bits) : Reads (doubleAndAdd add bits r a n) (g + n • h) := by
  induction bits generalizing r a g h n with
  | zero =>
    obtain rfl : n = 0 := by simpa using hn
    simpa [doubleAndAdd] using hr
  | succ bits ih =>
    rw [doubleAndAdd]
    split_ifs with hzero hodd
    · simpa [hzero] using hr
    · have hhalf : n / 2 < 2 ^ bits := by rw [pow_succ] at hn; omega
      have hstep := ih (hadd hr ha) (hadd ha ha) hhalf
      have hsum : g + n • h = g + h + (n / 2) • (h + h) := by
        have hn2 : n = 1 + 2 * (n / 2) := by omega
        conv_lhs => rw [hn2, add_nsmul, one_nsmul, mul_nsmul, two_nsmul]
        rw [add_assoc]
      rwa [hsum]
    · have hhalf : n / 2 < 2 ^ bits := by rw [pow_succ] at hn; omega
      have hstep := ih hr (hadd ha ha) hhalf
      have hsum : n • h = (n / 2) • (h + h) := by
        have hn2 : n = 2 * (n / 2) := by omega
        conv_lhs => rw [hn2, mul_nsmul, two_nsmul]
      rwa [hsum]

theorem doubleAndAdd_induction {p : α → Prop} (hadd : ∀ a b, p (add a b)) (hr : p r) :
    p (doubleAndAdd add bits r a n) := by
  induction bits generalizing r a n with
  | zero => exact hr
  | succ bits ih =>
    rw [doubleAndAdd]
    split_ifs
    · exact hr
    · exact ih (hadd r a)
    · exact ih hr

end Py

namespace Edwards

/-- The coefficient of a curve, and the square root of `-1`. -/
structure Curve (K : Type) [Field K] where
  d : K
  i : K
  i_mul_i : i * i = -1
  not_isSquare : ¬ IsSquare d
  two_ne_zero : (2 : K) ≠ 0

variable {K : Type} [Field K] (C : Curve K)

def Curve.Holds (x y : K) : Prop := y * y - x * x = 1 + C.d * x * x * y * y

variable {C} {x₁ y₁ x₂ y₂ : K}

/-! ## The denominators -/

theorem Curve.eq_zero_of_mul_self_eq {a b : K} (h : a * a = C.d * (b * b)) : b = 0 := by
  by_contra hb
  refine C.not_isSquare ⟨a / b, ?_⟩
  field_simp
  linear_combination -h

section

variable (h₁ : C.Holds x₁ y₁) (h₂ : C.Holds x₂ y₂)
include h₁ h₂

theorem Curve.Holds.ne_zero {e : K} (he : e * e = 1) :
    C.d * x₁ * x₂ * y₁ * y₂ ≠ e := by
  intro hd
  unfold Curve.Holds at h₁ h₂
  have he0 : e ≠ 0 := fun h0 => by simp [h0] at he
  have hxy : x₁ * y₁ ≠ 0 := fun h0 => he0 (by rw [← hd]; linear_combination C.d * x₂ * y₂ * h0)
  -- the two ways to complete the square
  have hplus : (C.i * x₁ + e * y₁) * (C.i * x₁ + e * y₁) =
      C.d * (x₁ * y₁ * (C.i * x₂ + y₂) * (x₁ * y₁ * (C.i * x₂ + y₂))) := by
    linear_combination x₁ ^ 2 * C.i_mul_i + y₁ ^ 2 * he + h₁ -
      C.d * x₁ ^ 2 * y₁ ^ 2 * (x₂ ^ 2 * C.i_mul_i + h₂) - he -
      (C.d * x₁ * x₂ * y₁ * y₂ + e + 2 * C.i * x₁ * y₁) * hd
  have hminus : (C.i * x₁ - e * y₁) * (C.i * x₁ - e * y₁) =
      C.d * (x₁ * y₁ * (C.i * x₂ - y₂) * (x₁ * y₁ * (C.i * x₂ - y₂))) := by
    linear_combination x₁ ^ 2 * C.i_mul_i + y₁ ^ 2 * he + h₁ -
      C.d * x₁ ^ 2 * y₁ ^ 2 * (x₂ ^ 2 * C.i_mul_i + h₂) - he -
      (C.d * x₁ * x₂ * y₁ * y₂ + e - 2 * C.i * x₁ * y₁) * hd
  have hplus0 : C.i * x₂ + y₂ = 0 :=
    (mul_eq_zero.1 (C.eq_zero_of_mul_self_eq hplus)).resolve_left hxy
  have hminus0 : C.i * x₂ - y₂ = 0 :=
    (mul_eq_zero.1 (C.eq_zero_of_mul_self_eq hminus)).resolve_left hxy
  have hy : y₂ = 0 := by
    have h2y : 2 * y₂ = 0 := by linear_combination hplus0 - hminus0
    exact (mul_eq_zero.1 h2y).resolve_left C.two_ne_zero
  refine he0 ?_
  rw [← hd, hy, mul_zero]

theorem Curve.Holds.one_add_ne_zero :
    1 + C.d * x₁ * x₂ * y₁ * y₂ ≠ 0 := fun h0 =>
  h₁.ne_zero h₂ (e := -1) (neg_mul_neg 1 1 |>.trans (one_mul 1)) (by linear_combination h0)

theorem Curve.Holds.one_sub_ne_zero :
    1 - C.d * x₁ * x₂ * y₁ * y₂ ≠ 0 := fun h0 =>
  h₁.ne_zero h₂ (e := 1) (one_mul 1) (by linear_combination -h0)

end

/-! ## The group -/

@[ext] structure Point (C : Curve K) where
  x : K
  y : K
  holds : C.Holds x y

namespace Point

variable {P Q R : Point C}

theorem holds_div {a b p m : K} (hp : p ≠ 0) (hm : m ≠ 0)
    (h : (b * p) * (b * p) - (a * m) * (a * m) = (p * m) * (p * m) + C.d * ((a * b) * (a * b))) :
    C.Holds (a / p) (b / m) := by
  unfold Curve.Holds
  field_simp
  linear_combination h

theorem holds_add (h₁ : C.Holds x₁ y₁) (h₂ : C.Holds x₂ y₂) :
    C.Holds ((x₁ * y₂ + x₂ * y₁) / (1 + C.d * x₁ * x₂ * y₁ * y₂))
      ((y₁ * y₂ + x₁ * x₂) / (1 - C.d * x₁ * x₂ * y₁ * y₂)) := by
  refine holds_div (h₁.one_add_ne_zero h₂) (h₁.one_sub_ne_zero h₂) ?_
  unfold Curve.Holds at h₁ h₂
  linear_combination (x₁ ^ 2 * y₁ ^ 2 * x₂ ^ 4 * y₂ ^ 4 * C.d ^ 3 - x₂ ^ 2 * y₂ ^ 4 *
    C.d + x₂ ^ 4 * y₂ ^ 2 * C.d
      - y₁ ^ 2 * x₂ ^ 2 * y₂ ^ 2 * C.d + x₁ ^ 2 * x₂ ^ 2 * y₂ ^ 2 * C.d - x₂ ^ 2 * y₂ ^ 2 * C.d +
      y₂ ^ 4 - 2 * x₂ ^ 2 * y₂ ^ 2 + x₂ ^ 4) * h₁ +
    (x₁ ^ 2 * y₁ ^ 4 * x₂ ^ 2 * y₂ ^ 2 * C.d ^ 2 - x₁ ^ 4 * y₁ ^ 2 * x₂ ^ 2 * y₂ ^ 2 * C.d ^ 2 -
      x₁ ^ 2 * y₁ ^ 2 * x₂ ^ 2 * y₂ ^ 2 * C.d ^ 2 - y₁ ^ 2 * y₂ ^ 2 + y₁ ^ 2 * x₂ ^ 2 +
      x₁ ^ 2 * y₂ ^ 2 - x₁ ^ 2 * x₂ ^ 2 + y₂ ^ 2 - x₂ ^ 2 + 1) * h₂

instance : Zero (Point C) := ⟨⟨0, 1, by simp [Curve.Holds]⟩⟩

instance : Neg (Point C) := ⟨fun P => ⟨-P.x, P.y, by
  have h := P.holds
  unfold Curve.Holds at h ⊢
  linear_combination h⟩⟩

instance : Add (Point C) := ⟨fun P Q => ⟨_, _, holds_add P.holds Q.holds⟩⟩

@[simp] theorem zero_x : (0 : Point C).x = 0 := rfl

@[simp] theorem zero_y : (0 : Point C).y = 1 := rfl

@[simp] theorem neg_x : (-P).x = -P.x := rfl

@[simp] theorem neg_y : (-P).y = P.y := rfl

theorem add_x : (P + Q).x = (P.x * Q.y + Q.x * P.y) / (1 + C.d * P.x * Q.x * P.y * Q.y) := rfl

theorem add_y : (P + Q).y = (P.y * Q.y + P.x * Q.x) / (1 - C.d * P.x * Q.x * P.y * Q.y) := rfl

protected theorem add_comm (P Q : Point C) : P + Q = Q + P := by
  ext
  · rw [add_x, add_x]
    congr 1 <;> ring
  · rw [add_y, add_y]
    congr 1 <;> ring

protected theorem zero_add (P : Point C) : 0 + P = P := by
  ext
  · simp [add_x]
  · simp [add_y]

protected theorem neg_add_cancel (P : Point C) : -P + P = 0 := by
  have hplus := (-P).holds.one_sub_ne_zero P.holds
  ext
  · simp [add_x, mul_comm]
  · rw [add_y, zero_y, div_eq_one_iff_eq hplus]
    have h := P.holds
    unfold Curve.Holds at h
    rw [neg_x, neg_y]
    linear_combination h

/-! ### Sums of three points, as one fraction -/

section

variable (P Q R : Point C)

theorem den_add_ne_zero :
    (1 + C.d * P.x * Q.x * P.y * Q.y) * (1 - C.d * P.x * Q.x * P.y * Q.y) +
      C.d * (P.x * Q.y + Q.x * P.y) * (P.y * Q.y + P.x * Q.x) * R.x * R.y ≠ 0 := by
  have hplus := P.holds.one_add_ne_zero Q.holds
  have hminus := P.holds.one_sub_ne_zero Q.holds
  have hsum := (P + Q).holds.one_add_ne_zero R.holds
  rw [add_x, add_y] at hsum
  generalize 1 + C.d * P.x * Q.x * P.y * Q.y = p at hplus hsum ⊢
  generalize 1 - C.d * P.x * Q.x * P.y * Q.y = m at hminus hsum ⊢
  refine fun h0 => hsum ?_
  field_simp
  linear_combination h0

theorem den_sub_ne_zero :
    (1 + C.d * P.x * Q.x * P.y * Q.y) * (1 - C.d * P.x * Q.x * P.y * Q.y) -
      C.d * (P.x * Q.y + Q.x * P.y) * (P.y * Q.y + P.x * Q.x) * R.x * R.y ≠ 0 := by
  have hne := den_add_ne_zero P Q (-R)
  rw [neg_x, neg_y] at hne
  refine fun h0 => hne ?_
  linear_combination h0

theorem add_add_x : (P + Q + R).x =
    ((P.x * Q.y + Q.x * P.y) * (1 - C.d * P.x * Q.x * P.y * Q.y) * R.y +
        R.x * (P.y * Q.y + P.x * Q.x) * (1 + C.d * P.x * Q.x * P.y * Q.y)) /
      ((1 + C.d * P.x * Q.x * P.y * Q.y) * (1 - C.d * P.x * Q.x * P.y * Q.y) +
        C.d * (P.x * Q.y + Q.x * P.y) * (P.y * Q.y + P.x * Q.x) * R.x * R.y) := by
  have hplus := P.holds.one_add_ne_zero Q.holds
  have hminus := P.holds.one_sub_ne_zero Q.holds
  rw [add_x, add_x, add_y]
  generalize 1 + C.d * P.x * Q.x * P.y * Q.y = p at hplus ⊢
  generalize 1 - C.d * P.x * Q.x * P.y * Q.y = m at hminus ⊢
  field_simp

theorem add_add_y : (P + Q + R).y =
    ((P.y * Q.y + P.x * Q.x) * (1 + C.d * P.x * Q.x * P.y * Q.y) * R.y +
        (P.x * Q.y + Q.x * P.y) * (1 - C.d * P.x * Q.x * P.y * Q.y) * R.x) /
      ((1 + C.d * P.x * Q.x * P.y * Q.y) * (1 - C.d * P.x * Q.x * P.y * Q.y) -
        C.d * (P.x * Q.y + Q.x * P.y) * (P.y * Q.y + P.x * Q.x) * R.x * R.y) := by
  have hplus := P.holds.one_add_ne_zero Q.holds
  have hminus := P.holds.one_sub_ne_zero Q.holds
  rw [add_y, add_x, add_y]
  generalize 1 + C.d * P.x * Q.x * P.y * Q.y = p at hplus ⊢
  generalize 1 - C.d * P.x * Q.x * P.y * Q.y = m at hminus ⊢
  field_simp

/-- Both sides are the same fraction on the curve: the cross difference is in the ideal of the three
equations. -/
protected theorem add_assoc : P + Q + R = P + (Q + R) := by
  have h₁ := P.holds
  have h₂ := Q.holds
  have h₃ := R.holds
  unfold Curve.Holds at h₁ h₂ h₃
  rw [Point.add_comm P (Q + R)]
  ext
  · rw [add_add_x, add_add_x, div_eq_div_iff (den_add_ne_zero P Q R) (den_add_ne_zero Q R P)]
    grind
  · rw [add_add_y, add_add_y, div_eq_div_iff (den_sub_ne_zero P Q R) (den_sub_ne_zero Q R P)]
    grind

end

instance : AddCommGroup (Point C) where
  add_assoc := Point.add_assoc
  zero_add := Point.zero_add
  add_zero P := (Point.add_comm P 0).trans (Point.zero_add P)
  neg_add_cancel := Point.neg_add_cancel
  add_comm := Point.add_comm
  nsmul := nsmulRec
  zsmul := zsmulRec

end Point

/-! ## Projective coordinates

Without divisions, so that multiples of a point can be evaluated in a proof.
-/

/-- Numerators of the two coordinates and their common denominator, modulo a number. -/
structure Triple where
  x : Nat
  y : Nat
  z : Nat
  deriving DecidableEq

def Triple.add (q d : Nat) (s t : Triple) : Triple :=
  let a := s.z * t.z % q
  let b := a * a % q
  let c := s.x * t.x % q
  let e := s.y * t.y % q
  let f := d * c % q * e % q
  let minus := (b + (q - f)) % q
  let plus := (b + f) % q
  ⟨a * minus % q * ((s.x * t.y + t.x * s.y) % q) % q, a * plus % q * ((e + c) % q) % q,
    minus * plus % q⟩

/-- The triple stands for the point. -/
structure Triple.At {q : Nat} [Fact q.Prime] {C : Curve (ZMod q)} (t : Triple) (P : Point C) :
    Prop where
  z_ne_zero : (t.z : ZMod q) ≠ 0
  x_eq : (t.x : ZMod q) = P.x * t.z
  y_eq : (t.y : ZMod q) = P.y * t.z

section

variable {q : Nat} [hq : Fact q.Prime] {C : Curve (ZMod q)} {s t : Triple} {P R : Point C} {d : Nat}

theorem Triple.At.add (hd : (d : ZMod q) = C.d) (hs : s.At P) (ht : t.At R) :
    (Triple.add q d s t).At (P + R) := by
  have hf : ((q - d * (s.x * t.x % q) % q * (s.y * t.y % q) % q : Nat) : ZMod q) =
      -(C.d * (s.x * t.x) * (s.y * t.y)) := by
    rw [Nat.cast_sub (Nat.mod_lt _ hq.out.pos).le]
    simp [hd]
  have hplus := P.holds.one_add_ne_zero R.holds
  have hminus := P.holds.one_sub_ne_zero R.holds
  -- the factors of the new denominator
  have hplus' : (s.z : ZMod q) * t.z * (s.z * t.z) + C.d * (s.x * t.x) * (s.y * t.y) =
      (s.z * t.z) ^ 2 * (1 + C.d * P.x * R.x * P.y * R.y) := by
    rw [hs.x_eq, hs.y_eq, ht.x_eq, ht.y_eq]
    ring
  have hminus' : (s.z : ZMod q) * t.z * (s.z * t.z) + -(C.d * (s.x * t.x) * (s.y * t.y)) =
      (s.z * t.z) ^ 2 * (1 - C.d * P.x * R.x * P.y * R.y) := by
    rw [hs.x_eq, hs.y_eq, ht.x_eq, ht.y_eq]
    ring
  have hz := mul_ne_zero hs.z_ne_zero ht.z_ne_zero
  refine ⟨?_, ?_, ?_⟩
  · simp only [Triple.add, ZMod.natCast_mod, Nat.cast_mul, Nat.cast_add, hf, hd]
    rw [hplus', hminus']
    exact mul_ne_zero (mul_ne_zero (pow_ne_zero 2 hz) hminus) (mul_ne_zero (pow_ne_zero 2 hz) hplus)
  · simp only [Triple.add, ZMod.natCast_mod, Nat.cast_mul, Nat.cast_add, hf, hd]
    rw [hplus', hminus', Point.add_x, hs.x_eq, hs.y_eq, ht.x_eq, ht.y_eq]
    field_simp
  · simp only [Triple.add, ZMod.natCast_mod, Nat.cast_mul, Nat.cast_add, hf, hd]
    rw [hplus', hminus', Point.add_y, hs.x_eq, hs.y_eq, ht.x_eq, ht.y_eq]
    field_simp

theorem Triple.At.nsmul (hd : (d : ZMod q) = C.d) (ht : t.At P) (n : Nat) :
    (Py.doubleAndAdd (Triple.add q d) (n.log2 + 1) ⟨0, 1, 1⟩ t n).At (n • P) := by
  have hzero : (⟨0, 1, 1⟩ : Triple).At (0 : Point C) := ⟨by simp, by simp, by simp⟩
  have h := Py.doubleAndAdd_reads (Triple.At.add hd) hzero ht (Nat.lt_log2_self (n := n))
  rwa [zero_add] at h

theorem Triple.At.eq_zero (ht : t.At P) (hx : t.x = 0) (hy : t.y = t.z) : P = 0 := by
  have hPx : P.x = 0 := by
    have h := ht.x_eq
    rw [hx, Nat.cast_zero, zero_eq_mul] at h
    exact h.resolve_right ht.z_ne_zero
  have hPy : P.y = 1 := by
    have h := ht.y_eq
    rw [hy] at h
    exact (mul_eq_right₀ ht.z_ne_zero).1 h.symm
  exact Point.ext hPx hPy

end

end Edwards
