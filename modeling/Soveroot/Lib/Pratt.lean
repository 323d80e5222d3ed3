import Mathlib.Data.List.Prime
import Mathlib.FieldTheory.Finite.Basic
import Mathlib.NumberTheory.LucasPrimality

/-!
# Powers modulo a number and primality certificates

`pow(b, e, m)` of Python by squaring, on as many bits as the exponent has.

A certificate lists primes, each with a generator of its multiplicative group and the factors of its
predecessor; a factor is small enough to be tried out or stands earlier in the list. Lucas's test
makes `prime_of_check` out of the check.
-/

namespace Py

/-- `b ** e % m` for an exponent of at most `bits` bits. -/
def powBits (m : Nat) : Nat → Nat → Nat → Nat
  | 0, _, _ => 1 % m
  | bits + 1, b, e =>
    let square := powBits m bits (b * b % m) (e / 2)
    if e % 2 = 1 then square * b % m else square

theorem powBits_eq (m : Nat) {bits : Nat} (b : Nat) {e : Nat} (h : e < 2 ^ bits) :
    powBits m bits b e = b ^ e % m := by
  induction bits generalizing b e with
  | zero =>
    obtain rfl : e = 0 := by simpa using h
    rw [powBits, pow_zero]
  | succ bits ih =>
    have hhalf : e / 2 < 2 ^ bits := by
      omega
    have hsquare : (b * b % m) ^ (e / 2) % m = b ^ (2 * (e / 2)) % m := by
      rw [← Nat.pow_mod, pow_mul, sq]
    rw [powBits, ih _ hhalf, hsquare]
    split_ifs with hodd
    · have he : e = 2 * (e / 2) + 1 := by omega
      conv_rhs => rw [he, pow_succ]
      rw [Nat.mod_mul_mod]
    · have he : e = 2 * (e / 2) := by omega
      conv_rhs => rw [he]

/-- `pow(b, e, m)` for a non-negative base. -/
def powMod (b e m : Nat) : Nat := powBits m (e.log2 + 1) (b % m) e

theorem powMod_eq (b e m : Nat) : powMod b e m = b ^ e % m := by
  rw [powMod, powBits_eq m _ (Nat.lt_log2_self), ← Nat.pow_mod]

/-- `pow(b, e, m)`. -/
def modPow (b : Int) (e m : Nat) : Int := powMod (b % m).toNat e m

theorem modPow_nonneg (b : Int) (e m : Nat) : 0 ≤ modPow b e m := Int.natCast_nonneg _

variable {m : Nat}

theorem modPow_lt (b : Int) (e : Nat) (hm : 0 < m) : modPow b e m < m := by
  rw [modPow, powMod_eq]
  exact Int.ofNat_lt.2 (Nat.mod_lt _ hm)

theorem cast_modPow (b : Int) (e : Nat) (hm : 0 < m) :
    ((modPow b e m : Int) : ZMod m) = (b : ZMod m) ^ e := by
  have hb : (((b % m).toNat : Nat) : ZMod m) = (b : ZMod m) := by
    have hnonneg : 0 ≤ b % m := Int.emod_nonneg b (by omega)
    rw [← Int.cast_natCast, Int.toNat_of_nonneg hnonneg, ZMod.intCast_mod]
  rw [modPow, powMod_eq, Int.cast_natCast, ZMod.natCast_mod, Nat.cast_pow, hb]

theorem cast_modPow_sub_two (b : Int) {p : Nat} [hp : Fact p.Prime] (h2 : 2 < p) :
    ((modPow b (p - 2) p : Int) : ZMod p) = (b : ZMod p)⁻¹ := by
  rw [cast_modPow b _ (by omega)]
  by_cases hb : (b : ZMod p) = 0
  · rw [hb, inv_zero, zero_pow (by omega)]
  · refine eq_inv_of_mul_eq_one_left ?_
    rw [← pow_succ, show p - 2 + 1 = p - 1 by omega, ZMod.pow_card_sub_one_eq_one hb]

end Py

namespace Pratt

open Py

/-- No number up to about the square root divides. -/
def tried (n : Nat) : Bool :=
  2 ≤ n && (List.range (2 ^ (n.log2 / 2 + 1))).all fun k => k < 2 || n ≤ k || n % k ≠ 0

theorem prime_of_tried {n : Nat} (h : tried n = true) : n.Prime := by
  simp only [tried, Bool.and_eq_true, decide_eq_true_eq, List.all_eq_true, List.mem_range,
    Bool.or_eq_true, ne_eq, decide_not, Bool.not_eq_true', decide_eq_false_iff_not] at h
  obtain ⟨h2, hall⟩ := h
  by_contra hprime
  -- the smallest factor is below the bound
  have hmin := Nat.minFac_sq_le_self (by omega) hprime
  have hdvd := Nat.minFac_dvd n
  have hfac : 2 ≤ n.minFac := (Nat.minFac_prime (by omega)).two_le
  have hbound : n.minFac < 2 ^ (n.log2 / 2 + 1) := by
    by_contra hge
    have hn : n < 2 ^ (n.log2 + 1) := Nat.lt_log2_self
    have hsq : (2 ^ (n.log2 / 2 + 1)) ^ 2 ≤ n :=
      (Nat.pow_le_pow_left (not_lt.1 hge) 2).trans hmin
    rw [← pow_mul] at hsq
    have hle : 2 ^ (n.log2 + 1) ≤ 2 ^ ((n.log2 / 2 + 1) * 2) :=
      Nat.pow_le_pow_right (by norm_num) (by omega)
    omega
  rcases hall _ hbound with (hlt | hge) | hmod
  · omega
  · have hlt : n.minFac < n := by nlinarith
    omega
  · exact hmod (Nat.mod_eq_zero_of_dvd hdvd)

/-- A prime, a generator and the factors of its predecessor with their exponents. -/
structure Entry where
  p : Nat
  generator : Nat
  factors : List (Nat × Nat)

/-- Lucas's test. -/
def Entry.passes (proven : List Nat) (e : Entry) : Bool :=
  2 ≤ e.p && (e.factors.all fun f => f.1 ∈ proven || tried f.1) &&
    (e.factors.map fun f => f.1 ^ f.2).prod == e.p - 1 &&
    powMod e.generator (e.p - 1) e.p == 1 &&
    e.factors.all fun f => powMod e.generator ((e.p - 1) / f.1) e.p != 1

/-- Each entry passes with the primes before it. -/
def check : List Nat → List Entry → Bool
  | _, [] => true
  | proven, e :: es => e.passes proven && check (e.p :: proven) es

theorem cast_pow_eq_one_iff {p : Nat} (hp : 2 ≤ p) (a n : Nat) :
    (a : ZMod p) ^ n = 1 ↔ powMod a n p = 1 := by
  rw [powMod_eq, ← Nat.cast_pow, ← Nat.cast_one, ZMod.natCast_eq_natCast_iff',
    Nat.one_mod_eq_one.2 (by omega)]

variable {proven : List Nat}

theorem Entry.prime_of_passes {e : Entry} (hproven : ∀ p ∈ proven, p.Prime)
    (h : e.passes proven = true) : e.p.Prime := by
  simp only [Entry.passes, Bool.and_eq_true, decide_eq_true_eq, List.all_eq_true, Bool.or_eq_true,
    beq_iff_eq, bne_iff_ne, ne_eq] at h
  obtain ⟨⟨⟨⟨h2, hfactors⟩, hprod⟩, hone⟩, hne⟩ := h
  refine lucas_primality e.p e.generator ((cast_pow_eq_one_iff h2 _ _).2 hone) fun r hr hdvd => ?_
  rw [← hprod] at hdvd
  obtain ⟨x, hx, hrx⟩ := (Prime.dvd_prod_iff hr.prime).1 hdvd
  obtain ⟨f, hf, rfl⟩ := List.mem_map.1 hx
  have hprime : f.1.Prime := (hfactors f hf).elim (hproven _) prime_of_tried
  obtain rfl := (Nat.prime_dvd_prime_iff_eq hr hprime).1 (hr.dvd_of_dvd_pow hrx)
  rw [ne_eq, cast_pow_eq_one_iff h2]
  exact hne f hf

theorem prime_of_check {es : List Entry} (hproven : ∀ p ∈ proven, p.Prime)
    (h : check proven es = true) : ∀ e ∈ es, e.p.Prime := by
  induction es generalizing proven with
  | nil => exact fun e he => absurd he List.not_mem_nil
  | cons e es ih =>
    rw [check, Bool.and_eq_true] at h
    have hprime := e.prime_of_passes hproven h.1
    exact List.forall_mem_cons.2 ⟨hprime, ih (List.forall_mem_cons.2 ⟨hprime, hproven⟩) h.2⟩

end Pratt
