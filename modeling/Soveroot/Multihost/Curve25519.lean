import Mathlib.NumberTheory.LegendreSymbol.Basic
import Soveroot.Multihost.Identity

/-!
# The curve of the identity keys

The field of `Q` elements and the group that `edAdd` computes in. `Reads` says which point of the
curve a pair of integers stands for; the base point has the order `L`, which is prime.
-/

namespace Soveroot.Multihost.Ed25519

open Py Wire Edwards

/-! ## The two primes -/

/-- A certificate for `Q`. -/
def certificateQ : List Pratt.Entry :=
  [⟨132049, 26, [(2, 4), (3, 2), (7, 1), (131, 1)]⟩,
    ⟨1923133, 2, [(2, 2), (3, 1), (43, 1), (3727, 1)]⟩,
    ⟨430751, 17, [(2, 1), (5, 3), (1723, 1)]⟩,
    ⟨31757755568855353, 10,
      [(2, 3), (3, 1), (31, 1), (107, 1), (223, 1), (4153, 1), (430751, 1)]⟩,
    ⟨75707, 2, [(2, 1), (37853, 1)]⟩,
    ⟨569003, 2, [(2, 1), (7, 1), (97, 1), (419, 1)]⟩,
    ⟨2773320623, 5, [(2, 1), (2437, 1), (569003, 1)]⟩,
    ⟨72106336199, 7, [(2, 1), (13, 1), (2773320623, 1)]⟩,
    ⟨8574133, 2, [(2, 2), (3, 1), (7, 1), (103, 1), (991, 1)]⟩,
    ⟨1919519569386763, 2, [(2, 1), (3, 1), (7, 1), (19, 1), (47, 2), (127, 1), (8574133, 1)]⟩,
    ⟨75445702479781427272750846543864801, 7,
      [(2, 5), (3, 2), (5, 2), (75707, 1), (72106336199, 1), (1919519569386763, 1)]⟩,
    ⟨74058212732561358302231226437062788676166966415465897661863160754340907, 2,
      [(2, 1), (3, 1), (353, 1), (57467, 1), (132049, 1), (1923133, 1), (31757755568855353, 1),
        (75445702479781427272750846543864801, 1)]⟩,
    ⟨Q, 2,
      [(2, 2), (3, 1), (65147, 1),
        (74058212732561358302231226437062788676166966415465897661863160754340907, 1)]⟩]

/-- A certificate for `L`. -/
def certificateL : List Pratt.Entry :=
  [⟨409477, 2, [(2, 2), (3, 1), (34123, 1)]⟩,
    ⟨14741173, 2, [(2, 2), (3, 2), (409477, 1)]⟩,
    ⟨58964693, 2, [(2, 2), (14741173, 1)]⟩,
    ⟨82163, 2, [(2, 1), (41081, 1)]⟩,
    ⟨132667, 5, [(2, 1), (3, 1), (22111, 1)]⟩,
    ⟨137849, 3, [(2, 3), (17231, 1)]⟩,
    ⟨3044861653679985063343, 5,
      [(2, 1), (3, 1), (11, 1), (30703, 1), (82163, 1), (132667, 1), (137849, 1)]⟩,
    ⟨198211423230930754013084525763697, 5,
      [(2, 4), (3, 1), (23, 1), (58964693, 1), (3044861653679985063343, 1)]⟩,
    ⟨292386187, 2, [(2, 1), (3, 4), (307, 1), (5879, 1)]⟩,
    ⟨213441916511, 13, [(2, 1), (5, 1), (73, 1), (292386187, 1)]⟩,
    ⟨531581, 2, [(2, 2), (5, 1), (7, 1), (3797, 1)]⟩,
    ⟨1224481, 13, [(2, 5), (3, 1), (5, 1), (2551, 1)]⟩,
    ⟨1257559732178653, 2, [(2, 2), (3, 1), (7, 1), (23, 1), (531581, 1), (1224481, 1)]⟩,
    ⟨4434155615661930479, 17, [(2, 1), (41, 1), (43, 1), (1257559732178653, 1)]⟩,
    ⟨172054593956031949258510691, 2,
      [(2, 1), (5, 1), (1361, 1), (2851, 1), (4434155615661930479, 1)]⟩,
    ⟨19757330305831588566944191468367130476339, 2,
      [(2, 1), (269, 1), (213441916511, 1), (172054593956031949258510691, 1)]⟩,
    ⟨276602624281642239937218680557139826668747, 2,
      [(2, 1), (7, 1), (19757330305831588566944191468367130476339, 1)]⟩,
    ⟨L, 2,
      [(2, 2), (3, 1), (11, 1), (198211423230930754013084525763697, 1),
        (276602624281642239937218680557139826668747, 1)]⟩]

theorem prime_Q : Q.Prime :=
  Pratt.prime_of_check (by simp) (by decide +kernel : Pratt.check [] certificateQ = true)
    ⟨Q, 2, _⟩ (List.mem_of_getLast? rfl)

theorem prime_L : L.Prime :=
  Pratt.prime_of_check (by simp) (by decide +kernel : Pratt.check [] certificateL = true)
    ⟨L, 2, _⟩ (List.mem_of_getLast? rfl)

instance : Fact Q.Prime := ⟨prime_Q⟩

theorem two_lt_Q : 2 < Q := by decide

/-! ## The curve -/

theorem intCast_eq_zero {n : Int} : (n : ZMod Q) = 0 ↔ n % Q = 0 := by
  rw [ZMod.intCast_zmod_eq_zero_iff_dvd, Int.dvd_iff_emod_eq_zero]

/-- `I` squares to `-1` and `D` has no root, by Euler's criterion. -/
def curve : Curve (ZMod Q) where
  d := (D : Int)
  i := (I : Int)
  i_mul_i := by
    have h : ((I * I + 1 : Int) : ZMod Q) = 0 := intCast_eq_zero.2 (by decide +kernel)
    push_cast at h
    linear_combination h
  not_isSquare := by
    have hpow : ((D : Int) : ZMod Q) ^ (Q / 2) = -1 := by
      rw [← cast_modPow D (Q / 2) prime_Q.pos,
        show modPow D (Q / 2) Q = Q - 1 by decide +kernel]
      simp
    have hne : ((D : Int) : ZMod Q) ≠ 0 := fun h0 => by
      rw [h0, zero_pow (by decide)] at hpow
      exact one_ne_zero (neg_eq_zero.1 hpow.symm)
    rw [ZMod.euler_criterion Q hne, hpow]
    have : Fact (2 < Q) := ⟨two_lt_Q⟩
    exact ZMod.neg_one_ne_one
  two_ne_zero := by
    have h : ((2 : Int) : ZMod Q) ≠ 0 := fun h0 => by
      have := intCast_eq_zero.1 h0
      revert this
      decide
    simpa using h

theorem curve_holds {x y : Int} :
    curve.Holds (x : ZMod Q) (y : ZMod Q) ↔
      (y * y - x * x - 1 - D * x * x * y * y) % Q = 0 := by
  rw [← intCast_eq_zero, Curve.Holds, show curve.d = (D : Int) from rfl]
  push_cast
  constructor
  · intro h
    linear_combination h
  · intro h
    linear_combination h

/-! ## Points as pairs of integers -/

/-- The pair stands for the point. -/
structure Reads (p : Int × Int) (P : Point curve) : Prop where
  x_eq : (p.1 : ZMod Q) = P.x
  y_eq : (p.2 : ZMod Q) = P.y

/-- Both coordinates are remainders modulo `Q`. -/
structure Reduced (p : Int × Int) : Prop where
  x_nonneg : 0 ≤ p.1
  x_lt : p.1 < Q
  y_nonneg : 0 ≤ p.2
  y_lt : p.2 < Q

variable {p r : Int × Int} {P R : Point curve}

theorem eq_of_intCast_eq {a b : Int} (ha : 0 ≤ a) (ha' : a < Q) (hb : 0 ≤ b) (hb' : b < Q)
    (h : (a : ZMod Q) = (b : ZMod Q)) : a = b := by
  rw [ZMod.intCast_eq_intCast_iff'] at h
  rwa [Int.emod_eq_of_lt ha ha', Int.emod_eq_of_lt hb hb'] at h

theorem Reads.inj (hp : Reads p P) (hr : Reads r P) (hp' : Reduced p) (hr' : Reduced r) : p = r :=
  Prod.ext
    (eq_of_intCast_eq hp'.x_nonneg hp'.x_lt hr'.x_nonneg hr'.x_lt (hp.x_eq.trans hr.x_eq.symm))
    (eq_of_intCast_eq hp'.y_nonneg hp'.y_lt hr'.y_nonneg hr'.y_lt (hp.y_eq.trans hr.y_eq.symm))

theorem reads_zero : Reads (0, 1) 0 := ⟨by simp, by simp⟩

theorem reduced_zero : Reduced (0, 1) := ⟨by decide, by decide, by decide, by decide⟩

theorem reduced_edAdd (p r : Int × Int) : Reduced (edAdd p r) := by
  have hQ : (Q : Int) ≠ 0 := by decide
  have hQ' : (0 : Int) < Q := by decide
  exact ⟨Int.emod_nonneg _ hQ, Int.emod_lt_of_pos _ hQ', Int.emod_nonneg _ hQ,
    Int.emod_lt_of_pos _ hQ'⟩

/-- `_ed_add` adds. -/
theorem Reads.edAdd (hp : Reads p P) (hr : Reads r R) : Reads (edAdd p r) (P + R) := by
  constructor
  · simp only [Ed25519.edAdd, ZMod.intCast_mod, Int.cast_mul, cast_modPow_sub_two _ two_lt_Q,
      Int.cast_add, Int.cast_one, hp.x_eq, hp.y_eq, hr.x_eq, hr.y_eq]
    rw [Point.add_x, div_eq_mul_inv]
    rfl
  · simp only [Ed25519.edAdd, ZMod.intCast_mod, Int.cast_mul, cast_modPow_sub_two _ two_lt_Q,
      Int.cast_add, Int.cast_sub, Int.cast_one, hp.x_eq, hp.y_eq, hr.x_eq, hr.y_eq]
    rw [Point.add_y, div_eq_mul_inv]
    rfl

theorem Reads.edScalar (hp : Reads p P) (n : Nat) : Reads (edScalar p n) (n • P) := by
  have h := doubleAndAdd_reads Reads.edAdd reads_zero hp (Nat.lt_log2_self (n := n))
  rwa [zero_add] at h

theorem reduced_edScalar (p : Int × Int) (n : Nat) : Reduced (edScalar p n) :=
  doubleAndAdd_induction reduced_edAdd reduced_zero

theorem edScalar_eq_zero_iff (hp : Reads p P) (n : Nat) : edScalar p n = (0, 1) ↔ n • P = 0 := by
  constructor
  · intro h
    have hn := hp.edScalar n
    rw [h] at hn
    exact Point.ext (hn.x_eq.symm.trans reads_zero.x_eq) (hn.y_eq.symm.trans reads_zero.y_eq)
  · intro h
    have hn := hp.edScalar n
    rw [h] at hn
    exact hn.inj reads_zero (reduced_edScalar p n) reduced_zero

/-! ## The base point -/

/-- The point of `_B`. -/
def basePoint : Point curve := ⟨(BX : Int), (BY : Int), curve_holds.2 (by decide +kernel)⟩

theorem reads_B : Reads B basePoint :=
  ⟨by simp only [B, basePoint], by simp only [B, basePoint]⟩

theorem L_nsmul_basePoint : L • basePoint = 0 := by
  have hd : ((D.toNat : Nat) : ZMod Q) = curve.d := by
    rw [← Int.cast_natCast, Int.toNat_of_nonneg (by decide +kernel : 0 ≤ D)]
    rfl
  have hB : (⟨BX.toNat, BY.toNat, 1⟩ : Triple).At basePoint := by
    refine ⟨by simp, ?_, ?_⟩
    · rw [← Int.cast_natCast, Int.toNat_of_nonneg (by decide +kernel : 0 ≤ BX)]
      simp [basePoint]
    · rw [← Int.cast_natCast, Int.toNat_of_nonneg (by decide +kernel : 0 ≤ BY)]
      simp [basePoint]
  refine (hB.nsmul hd L).eq_zero ?_ ?_
  · decide +kernel
  · decide +kernel

theorem basePoint_ne_zero : basePoint ≠ 0 := by
  intro h
  have hBY : ((BY : Int) : ZMod Q) = ((1 : Int) : ZMod Q) := by
    have hy := congrArg Point.y h
    simp only [basePoint, Point.zero_y] at hy
    rw [hy, Int.cast_one]
  have hBY' := eq_of_intCast_eq (by decide +kernel) (by decide +kernel) (by decide) (by decide) hBY
  revert hBY'
  decide +kernel

instance : Fact L.Prime := ⟨prime_L⟩

theorem addOrderOf_basePoint : addOrderOf basePoint = L :=
  addOrderOf_eq_prime L_nsmul_basePoint basePoint_ne_zero

/-! ## Clamped scalars -/

variable {mask : UInt8}

theorem clampBytes_append {x z : UInt8} {mid : Bytes} (h : mid.length = 30) :
    clampBytes mask (x :: (mid ++ [z])) = (x &&& 248) :: (mid ++ [z &&& mask ||| 64]) := by
  have hlast (x w : UInt8) (f : UInt8 → UInt8) :
      (x :: (mid ++ [w])).modify 31 f = x :: (mid ++ [f w]) := by
    rw [List.modify_succ_cons, List.modify_eq_take_drop, ← h, List.take_left, List.drop_left]
    rfl
  rw [clampBytes, List.modify_zero_cons, hlast, hlast]

theorem toNat_and_248 (x : UInt8) : (x &&& 248).toNat % 8 = 0 := by
  exact (Nat.and_mod_two_pow (n := 3)).trans (Nat.and_zero _)

theorem toNat_and_or_64 (hmask : mask.toNat < 2 ^ 7) (z : UInt8) :
    64 ≤ (z &&& mask ||| 64).toNat ∧ (z &&& mask ||| 64).toNat < 128 := by
  exact ⟨Nat.right_le_or, Nat.or_lt_two_pow (Nat.and_lt_two_pow _ hmask) (by decide)⟩

variable {b : Bytes} (hmask : mask.toNat < 2 ^ 7) (h : b.length = 32)
include hmask h

theorem exists_clampBytes :
    ∃ m, fromBytesLE (clampBytes mask b) = 8 * m ∧ 2 ^ 251 ≤ m ∧ m < 2 ^ 252 := by
  obtain ⟨x, tail, rfl⟩ := List.exists_cons_of_length_pos (by omega : 0 < b.length)
  obtain ⟨mid, z, rfl⟩ := List.eq_nil_or_concat' tail |>.resolve_left (by rintro rfl; simp at h)
  have hmid : mid.length = 30 := by simpa using h
  have hx := toNat_and_248 x
  have hx' := (x &&& 248).toNat_lt
  have hz := toNat_and_or_64 hmask z
  have hmid' := fromBytesLE_lt mid
  rw [clampBytes_append hmid, fromBytesLE_cons, fromBytesLE_append, fromBytesLE_cons,
    fromBytesLE_nil]
  rw [hmid] at hmid' ⊢
  generalize (x &&& 248).toNat = a at *
  generalize (z &&& mask ||| 64).toNat = c at *
  exact ⟨a / 8 + 32 * (fromBytesLE mid + 256 ^ 30 * c), by omega, by omega, by omega⟩

theorem not_dvd_clampBytes :
    ¬ L ∣ fromBytesLE (clampBytes mask b) := by
  obtain ⟨m, hm, hlow, hhigh⟩ := exists_clampBytes hmask h
  have hL : (2 : Nat) ^ 252 < L := by decide
  intro hdvd
  rw [hm, Nat.Prime.dvd_mul prime_L] at hdvd
  rcases hdvd with h8 | hm
  · have := Nat.le_of_dvd (by decide) h8
    omega
  · have := Nat.le_of_dvd (by omega) hm
    omega

end Soveroot.Multihost.Ed25519
