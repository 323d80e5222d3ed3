import Soveroot.Multihost.Curve25519

/-!
# Encoded points

`xrecover` finds the even root of the `x` of a point with a given `y`, and `decodePoint` undoes
`encodePoint` on reduced points. The sign bit is not checked for `x = 0`: there `decodePoint`
returns the coordinate `Q`.
-/

namespace Soveroot.Multihost.Ed25519

open Py Check Wire Edwards

variable {p : Int × Int} {P : Point curve} {x y : Int}

/-! ## The recovered root -/

variable {w : ZMod Q}

theorem pow_mul_pow_eq_or {z : ZMod Q} (h : w * w = z) :
    z ^ ((Q + 3) / 8) * z ^ ((Q + 3) / 8) = z ∨ z ^ ((Q + 3) / 8) * z ^ ((Q + 3) / 8) = -z := by
  subst h
  by_cases hw : w = 0
  · left
    rw [hw, mul_zero, zero_pow (by decide), mul_zero]
  · -- the quarter power of a square is a root of one
    have hquarter : (w ^ ((Q - 1) / 2)) * (w ^ ((Q - 1) / 2)) = 1 := by
      rw [← pow_add, show (Q - 1) / 2 + (Q - 1) / 2 = Q - 1 by decide,
        ZMod.pow_card_sub_one_eq_one hw]
    have hsplit : (w * w) ^ ((Q + 3) / 8) * (w * w) ^ ((Q + 3) / 8) =
        w ^ ((Q - 1) / 2) * (w * w) := by
      rw [← pow_two w, ← pow_mul, ← pow_add, ← pow_add,
        show 2 * ((Q + 3) / 8) + 2 * ((Q + 3) / 8) = (Q - 1) / 2 + 2 by decide]
    rw [hsplit]
    rcases mul_self_eq_one_iff.1 hquarter with hone | hone
    · left
      rw [hone, one_mul]
    · right
      rw [hone, neg_one_mul]

/-- The denominator of the recovered square does not vanish. -/
theorem D_mul_add_one_ne_zero (y : ZMod Q) : curve.d * y * y + 1 ≠ 0 := by
  intro h
  have hi : curve.i * curve.i = curve.d * (y * y) := by
    rw [curve.i_mul_i]
    linear_combination -h
  have hy := curve.eq_zero_of_mul_self_eq hi
  rw [hy, mul_zero, zero_add] at h
  exact one_ne_zero h

theorem squareRoot_nonneg (xx : Int) : 0 ≤ squareRoot xx := by
  rw [squareRoot]
  split_ifs
  · exact Int.emod_nonneg _ (by decide)
  · exact modPow_nonneg _ _ _

theorem squareRoot_lt (xx : Int) : squareRoot xx < Q := by
  rw [squareRoot]
  split_ifs
  · exact Int.emod_lt_of_pos _ (by decide)
  · exact modPow_lt _ _ (by decide)

theorem squareRoot_mul_self {xx : Int} (h : w * w = (xx : ZMod Q)) :
    ((squareRoot xx : Int) : ZMod Q) * (squareRoot xx : Int) = xx := by
  have hcases := pow_mul_pow_eq_or h
  rw [← cast_modPow xx _ prime_Q.pos] at hcases
  rw [squareRoot]
  set root := modPow xx ((Q + 3) / 8) Q
  by_cases hsq : (root * root - xx) % Q = 0
  · have h0 := intCast_eq_zero.2 hsq
    push_cast at h0
    rw [if_neg (not_not.2 hsq)]
    linear_combination h0
  · have hi : ((I : Int) : ZMod Q) * (I : Int) = -1 := curve.i_mul_i
    have hneg : (root : ZMod Q) * root = -xx := by
      refine hcases.resolve_left fun heq => hsq (intCast_eq_zero.1 ?_)
      push_cast
      linear_combination heq
    rw [if_pos hsq, ZMod.intCast_mod, Int.cast_mul]
    linear_combination (root : ZMod Q) * root * hi - hneg

theorem xrecover_bounds (y : Int) : 0 ≤ xrecover y ∧ xrecover y < Q := by
  have h0 := squareRoot_nonneg ((y * y - 1) * modPow (D * y * y + 1) (Q - 2) Q % Q)
  have hlt := squareRoot_lt ((y * y - 1) * modPow (D * y * y + 1) (Q - 2) Q % Q)
  rw [xrecover]
  split_ifs <;> omega

theorem xrecover_even (y : Int) : xrecover y % 2 = 0 := by
  have hQ : (Q : Int) % 2 = 1 := by decide
  rw [xrecover]
  split_ifs <;> omega

theorem xrecover_mul_self (h : curve.Holds (x : ZMod Q) (y : ZMod Q)) :
    ((xrecover y : Int) : ZMod Q) * (xrecover y : Int) = x * x := by
  -- the square is a quotient of polynomials in `y`
  have hsquare : (x : ZMod Q) * x =
      (((y * y - 1) * modPow (D * y * y + 1) (Q - 2) Q % Q : Int) : ZMod Q) := by
    have hd : curve.d = ((D : Int) : ZMod Q) := rfl
    rw [ZMod.intCast_mod, Int.cast_mul, cast_modPow_sub_two _ two_lt_Q]
    push_cast
    rw [← hd, ← div_eq_mul_inv, eq_div_iff (D_mul_add_one_ne_zero (y : ZMod Q))]
    unfold Curve.Holds at h
    linear_combination -h
  have hroot := squareRoot_mul_self hsquare
  rw [xrecover, hsquare, ← hroot]
  split_ifs
  · push_cast [ZMod.natCast_self]
    ring
  · rfl

/-- So it is the even one of the two opposite coordinates. -/
theorem xrecover_eq (h : curve.Holds (x : ZMod Q) (y : ZMod Q)) (h0 : 0 ≤ x) (hlt : x < Q) :
    xrecover y = if x % 2 = 0 then x else Q - x := by
  have hQ : (Q : Int) % 2 = 1 := by decide
  have heven := xrecover_even y
  obtain ⟨hr0, hrlt⟩ := xrecover_bounds y
  rcases mul_self_eq_mul_self_iff.1 (xrecover_mul_self h) with heq | heq
  · have hx := eq_of_intCast_eq hr0 hrlt h0 hlt heq
    rw [if_pos (by omega), hx]
  · by_cases hx0 : x = 0
    · have hr : xrecover y = 0 :=
        eq_of_intCast_eq hr0 hrlt le_rfl (by omega) (by simpa [hx0] using heq)
      rw [hr, hx0]
      rfl
    · have hx : xrecover y = Q - x := by
        refine eq_of_intCast_eq hr0 hrlt (by omega) (by omega) ?_
        push_cast [ZMod.natCast_self]
        rw [heq, zero_sub]
      rw [if_neg (by omega), hx]

/-! ## Decoding -/

variable {encoded : Bytes}

theorem decodePoint_eq_ok : decodePoint encoded = .ok p ↔
      encoded.length = 32 ∧ p.2 = (fromBytesLE encoded % 2 ^ 255 : Nat) ∧ p.2 < Q ∧
        p.1 = (if (fromBytesLE encoded / 2 ^ 255 : Nat) = (0 : Int) then xrecover p.2
          else Q - xrecover p.2) ∧
        curve.Holds (p.1 : ZMod Q) (p.2 : ZMod Q) := by
  obtain ⟨x, y⟩ := p
  have heven := xrecover_even (fromBytesLE encoded % 2 ^ 255 : Nat)
  simp only [decodePoint, bind_eq_ok, require_eq_ok, pure_eq_ok, Except.ok.injEq, Prod.mk.injEq,
    Nat.and_two_pow_sub_one_eq_mod, Nat.shiftRight_eq_div_pow, exists_const, ← curve_holds, heven,
    not_le, ne_eq]
  constructor
  · rintro ⟨hlength, hlt, hholds, rfl, rfl⟩
    refine ⟨hlength, rfl, hlt, ?_, hholds⟩
    rw [ite_not]
    exact if_congr eq_comm rfl rfl
  · rintro ⟨hlength, rfl, hlt, hx, hholds⟩
    have hx' : x = if ¬ (0 : Int) = (fromBytesLE encoded / 2 ^ 255 : Nat) then
        Q - xrecover (fromBytesLE encoded % 2 ^ 255 : Nat)
        else xrecover (fromBytesLE encoded % 2 ^ 255 : Nat) := by
      rw [ite_not, hx]
      exact if_congr eq_comm rfl rfl
    exact ⟨hlength, hlt, hx' ▸ hholds, hx'.symm, rfl⟩

theorem exists_reads (h : decodePoint encoded = .ok p) : ∃ P, Reads p P := by
  obtain ⟨-, -, -, -, hholds⟩ := decodePoint_eq_ok.1 h
  exact ⟨⟨_, _, hholds⟩, rfl, rfl⟩

theorem fromBytesLE_encodePoint (hred : Reduced p) :
    fromBytesLE (encodePoint p) = 2 ^ 255 * (p.1 % 2).toNat + p.2.toNat := by
  have hQ : (Q : Int) < 2 ^ 255 := by decide
  have hlt := hred.y_lt
  have hy : p.2.toNat < 2 ^ 255 := by omega
  have hor : (p.2.toNat ||| (p.1 % 2).toNat <<< 255) = 2 ^ 255 * (p.1 % 2).toNat + p.2.toNat := by
    rw [Nat.or_comm, ← Nat.shiftLeft_add_eq_or_of_lt hy, Nat.shiftLeft_eq, Nat.mul_comm]
  rw [encodePoint, fromBytesLE_leBytes, hor, Nat.mod_eq_of_lt]
  omega

/-- **Round trip.** A reduced point on the curve is decoded from its encoding. -/
theorem decodePoint_encodePoint (hp : Reads p P) (hred : Reduced p) :
    decodePoint (encodePoint p) = .ok p := by
  have hQ : (Q : Int) < 2 ^ 255 := by decide
  have h0 := hred.y_nonneg
  have hlt := hred.y_lt
  have hholds : curve.Holds (p.1 : ZMod Q) (p.2 : ZMod Q) := by
    have h := P.holds
    rwa [← hp.x_eq, ← hp.y_eq] at h
  have hroot := xrecover_eq hholds hred.x_nonneg hred.x_lt
  have hvalue := fromBytesLE_encodePoint hred
  refine decodePoint_eq_ok.2 ⟨length_leBytes _ _, by omega, hlt, ?_, hholds⟩
  split_ifs <;> omega

/-- The only encoding of the neutral element that is decoded with other coordinates than `(0,
1)`. -/
theorem eq_of_decodePoint_zero (h : decodePoint encoded = .ok p) (hp : Reads p 0)
    (hne : p ≠ (0, 1)) :
    encoded = leBytes 32 (2 ^ 255 + 1) := by
  obtain ⟨hlength, hy, hlt, hx, -⟩ := decodePoint_eq_ok.1 h
  have hy1 : p.2 = 1 := by
    refine eq_of_intCast_eq (by omega) hlt (by decide) (by decide) ?_
    rw [hp.y_eq, Point.zero_y, Int.cast_one]
  obtain ⟨hr0, hrlt⟩ := xrecover_bounds p.2
  have hx0 : p.1 % Q = 0 := intCast_eq_zero.1 (hp.x_eq.trans Point.zero_x)
  have hvalue := fromBytesLE_lt encoded
  rw [hlength] at hvalue
  -- a clear sign bit leaves a remainder, which is zero
  have hsign : (fromBytesLE encoded / 2 ^ 255 : Nat) ≠ (0 : Int) := by
    intro hclear
    rw [if_pos hclear] at hx
    rw [hx, Int.emod_eq_of_lt hr0 hrlt] at hx0
    exact hne (Prod.ext (hx.trans hx0) hy1)
  have hbytes : fromBytesLE encoded = 2 ^ 255 + 1 := by omega
  rw [← hbytes, ← hlength, leBytes_fromBytesLE]

end Soveroot.Multihost.Ed25519
