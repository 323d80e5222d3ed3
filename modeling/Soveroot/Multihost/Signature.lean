import Soveroot.Multihost.PointEncoding

/-!
# Signatures

An honest signature verifies. A verified signature is one under a key of order `L`, unless the key
is the one encoding of the neutral element whose sign bit is set: `decodePoint` returns `(Q, 1)` for
it, which `identityVerify` does not recognise, and everyone can sign for that key.
-/

namespace Soveroot.Multihost

open Py Check Wire Edwards Ed25519

variable {sha512 : Sha512} {p : Int × Int} {P : Point curve} {message : Bytes}

/-! ## Keys as texts -/

variable {value : Text} {size : Nat} {reason label : String} {b : Bytes}

theorem hexBytes_eq_ok : hexBytes value size reason label = .ok b ↔
      value.length = size * 2 ∧ lower value = value ∧ fromHex value = some b := by
  simp only [hexBytes, requireHex, bind_eq_ok, orRaise_eq_ok, Option.filter_eq_some_iff,
    Json.asText_eq_some, Json.str.injEq, decide_eq_true_eq, pure_eq_ok, Except.ok.injEq]
  constructor
  · rintro ⟨_, ⟨t, ⟨rfl, hlength, hlow⟩, _, -, rfl⟩, hb⟩
    exact ⟨hlength, hlow.symm, hb⟩
  · rintro ⟨hlength, hlow, hb⟩
    exact ⟨value, ⟨value, ⟨rfl, hlength, hlow.symm⟩, b, hb, rfl⟩, hb⟩

theorem hexBytes_hex (h : b.length = size) (reason label : String) :
    hexBytes (hex b) size reason label = .ok b :=
  hexBytes_eq_ok.2 ⟨by rw [length_hex, h, Nat.mul_comm], lower_hex b, fromHex_hex b⟩

/-- A text with as many characters as its bytes need is their only spelling. -/
theorem eq_hex_of_hexBytes (h : hexBytes value size reason label = .ok b)
    (hlength : b.length = size) : value = hex b := by
  obtain ⟨hvalue, hlow, hb⟩ := hexBytes_eq_ok.1 h
  have hdrop := dropSpaces_of_fromHex hb hlow
  have hkept : (dropSpaces value).length = value.length := by
    rw [hdrop, length_hex, hlength, hvalue, Nat.mul_comm]
  rw [← hdrop]
  exact (List.filter_sublist.eq_of_length hkept).symm

/-- The point that `identity_verify` reads from the key. -/
def decodeKey (publicKeyHex : Text) : Except SafetyError (Int × Int) := do
  let key ← hexBytes publicKeyHex 32 "identity_key" "identity public key"
  decodePoint key

/-- The key is a point of the curve other than the neutral element, of order `L`. -/
def SoundKey (publicKeyHex : Text) : Prop :=
  ∃ p P, decodeKey publicKeyHex = .ok p ∧ Reads p P ∧ P ≠ 0 ∧ addOrderOf P = L

def neutralKey : Text := hex (leBytes 32 (2 ^ 255 + 1))

example :
    neutralKey = ascii "0100000000000000000000000000000000000000000000000000000000000080" := by
  decide +kernel

theorem decodeKey_neutralKey : decodeKey neutralKey = .ok ((Q : Int), 1) := by
  decide +kernel

theorem reads_Q_one : Reads ((Q : Int), 1) 0 := ⟨by simp, by simp⟩

theorem not_soundKey_neutralKey : ¬ SoundKey neutralKey := by
  rintro ⟨p, P, hdecode, hreads, hne, -⟩
  rw [decodeKey_neutralKey, Except.ok.injEq] at hdecode
  subst hdecode
  exact hne (Point.ext (hreads.x_eq.symm.trans reads_Q_one.x_eq)
    (hreads.y_eq.symm.trans reads_Q_one.y_eq))

/-! ## Verification -/

theorem exists_of_identityVerify {key signature : Text}
    (h : identityVerify sha512 key message signature = true) :
    ∃ p, decodeKey key = .ok p ∧ p ≠ (0, 1) ∧ edScalar p L = (0, 1) := by
  unfold identityVerify at h
  split at h
  · rename_i accepted hverify
    subst h
    simp only [verifySignature, bind_eq_ok] at hverify
    obtain ⟨bytes, hbytes, _, -, p, hp, hverify⟩ := hverify
    by_cases hkey : p = (0, 1) ∨ edScalar p L ≠ (0, 1)
    · rw [if_pos hkey] at hverify
      exact absurd (Except.ok.inj hverify) Bool.false_ne_true
    · push Not at hkey
      refine ⟨p, ?_, hkey.1, hkey.2⟩
      rw [decodeKey, hbytes, ok_bind, hp]
  · exact absurd h Bool.false_ne_true

theorem identityVerify_of {key encodedR : Bytes} {pointA pointR : Int × Int} {s : Nat}
    (hA : decodePoint key = .ok pointA) (hpass : ¬ (pointA = (0, 1) ∨ edScalar pointA L ≠ (0, 1)))
    (hR : decodePoint encodedR = .ok pointR) (hs : s < L)
    (heq : edScalar B s = edAdd pointR
      (edScalar pointA (fromBytesLE (sha512 (encodedR ++ key ++ message)).1 % L))) :
    identityVerify sha512 (hex key) message (hex (encodedR ++ leBytes 32 s)) = true := by
  have hlength := (decodePoint_eq_ok.1 hR).1
  have htake : (encodedR ++ leBytes 32 s).take 32 = encodedR := by
    rw [← hlength, List.take_left]
  have hdrop : fromBytesLE ((encodedR ++ leBytes 32 s).drop 32) = s := by
    have hL : L < 256 ^ 32 := by decide
    rw [← hlength, List.drop_left, hlength, fromBytesLE_leBytes, Nat.mod_eq_of_lt (hs.trans hL)]
  have hverify :
      verifySignature sha512 (hex key) message (hex (encodedR ++ leBytes 32 s)) = .ok true := by
    simp only [verifySignature, hexBytes_hex (decodePoint_eq_ok.1 hA).1, ok_bind,
      hexBytes_hex (by simp [hlength] : (encodedR ++ leBytes 32 s).length = 64), hA, if_neg hpass,
      htake, hR, hdrop, if_neg (not_le.2 hs), heq, decide_true, pure_eq_ok]
  rw [identityVerify, hverify]

/-- A signature that every message has under `neutralKey`: the neutral element and zero. -/
def neutralSignature : Text := hex (leBytes 32 1 ++ leBytes 32 0)

theorem identityVerify_neutral (sha512 : Sha512) (message : Bytes) :
    identityVerify sha512 neutralKey message neutralSignature = true := by
  have hkey : decodePoint (leBytes 32 (2 ^ 255 + 1)) = .ok ((Q : Int), 1) := by decide +kernel
  have hR : decodePoint (leBytes 32 1) = .ok (0, 1) := by decide +kernel
  have hmultiple (n : Nat) : edScalar ((Q : Int), 1) n = (0, 1) :=
    (edScalar_eq_zero_iff reads_Q_one n).2 (smul_zero n)
  refine identityVerify_of hkey ?_ hR prime_L.pos ?_
  · rw [hmultiple]
    decide
  · rw [hmultiple]
    decide +kernel

/-- No degenerate key: exactly the keys other than `neutralKey` are of order `L` whenever a
signature is verified with them. -/
theorem verified_keys_sound_iff (sha512 : Sha512) (key : Text) :
    (∀ message signature, identityVerify sha512 key message signature = true → SoundKey key) ↔
      key ≠ neutralKey := by
  constructor
  · rintro h rfl
    exact not_soundKey_neutralKey (h [] _ (identityVerify_neutral sha512 []))
  · intro hkey message signature hverify
    obtain ⟨p, hdecode, hne, horder⟩ := exists_of_identityVerify hverify
    have hdecode' := hdecode
    simp only [decodeKey, bind_eq_ok] at hdecode'
    obtain ⟨bytes, hbytes, hp⟩ := hdecode'
    obtain ⟨P, hreads⟩ := exists_reads hp
    have hP : P ≠ 0 := by
      rintro rfl
      refine hkey ?_
      rw [eq_hex_of_hexBytes hbytes (decodePoint_eq_ok.1 hp).1,
        eq_of_decodePoint_zero hp hreads hne,
        neutralKey]
    have hL : L • P = 0 := (edScalar_eq_zero_iff hreads L).1 horder
    exact ⟨p, P, hdecode, hreads, hP, addOrderOf_eq_prime hL hP⟩

/-- Under `neutralKey` every message is signed by everyone. -/
theorem neutral_key_verifies :
    identityVerify (fun _ => ⟨List.replicate 64 0, rfl⟩) neutralKey [1, 2, 3]
      neutralSignature = true ∧
      ¬ SoundKey neutralKey :=
  ⟨identityVerify_neutral _ _, not_soundKey_neutralKey⟩

/-! ## Honest signatures -/

theorem key_passes (hp : Reads p P) (hne : P ≠ 0) (hL : L • P = 0) :
    ¬ (p = (0, 1) ∨ edScalar p L ≠ (0, 1)) := by
  rintro (rfl | hscalar)
  · exact hne (Point.ext (hp.x_eq.symm.trans reads_zero.x_eq) (hp.y_eq.symm.trans reads_zero.y_eq))
  · exact hscalar ((edScalar_eq_zero_iff hp L).2 hL)

/-- **Honest signatures verify.** -/
theorem honest_signature_verifies (sha512 : Sha512) {seed : Bytes} (hseed : seed.length = 32)
    (message : Bytes) :
    ∃ key signature, identityPublicKey sha512 (hex seed) = .ok key ∧
      identitySign sha512 (hex seed) message = .ok signature ∧
      identityVerify sha512 key message signature = true := by
  let a := fromBytesLE (clampBytes 63 ((sha512 seed).1.take 32))
  let r := fromBytesLE (sha512 ((sha512 seed).1.drop 32 ++ message)).1 % L
  let key := encodePoint (edScalar B a)
  let encodedR := encodePoint (edScalar B r)
  let k := fromBytesLE (sha512 (encodedR ++ key ++ message)).1 % L
  have hsecret : secretScalar sha512 seed = .ok (a, (sha512 seed).1.drop 32) := by
    rw [secretScalar, require_of_pos hseed]
    rfl
  have hkey : identityPublicKey sha512 (hex seed) = .ok (hex key) := by
    rw [identityPublicKey, hexBytes_hex hseed, ok_bind, hsecret]
    rfl
  have hsign : identitySign sha512 (hex seed) message =
      .ok (hex (encodedR ++ leBytes 32 ((r + k * a) % L))) := by
    simp only [identitySign, hexBytes_hex hseed, ok_bind, hsecret, hkey, fromHex_hex, orRaise_some]
    rfl
  have hA := reads_B.edScalar a
  have hR := reads_B.edScalar r
  refine ⟨_, _, hkey, hsign, identityVerify_of
    (decodePoint_encodePoint hA (reduced_edScalar _ _)) (key_passes hA ?_ ?_)
    (decodePoint_encodePoint hR (reduced_edScalar _ _)) (Nat.mod_lt _ prime_L.pos) ?_⟩
  · intro h0
    rw [← addOrderOf_dvd_iff_nsmul_eq_zero, addOrderOf_basePoint] at h0
    exact not_dvd_clampBytes (by decide) (by simp [(sha512 seed).2]) h0
  · rw [smul_comm, L_nsmul_basePoint, smul_zero]
  · -- both sides stand for the same multiple of the base point
    have hs := reads_B.edScalar ((r + k * a) % L)
    have hsum := hR.edAdd (hA.edScalar k)
    have hpoint : ((r + k * a) % L) • basePoint = r • basePoint + k • a • basePoint := by
      rw [← addOrderOf_basePoint, mod_addOrderOf_nsmul, add_nsmul, mul_nsmul']
    rw [hpoint] at hs
    exact hs.inj hsum (reduced_edScalar _ _) (reduced_edAdd _ _)

theorem honest_signature_verifies_zero :
    (List.replicate 32 (0 : UInt8)).length = 32 ∧
      ∃ key signature, identityPublicKey (fun _ => ⟨List.replicate 64 7, rfl⟩)
        (hex (List.replicate 32 0)) = .ok key ∧
        identitySign (fun _ => ⟨List.replicate 64 7, rfl⟩) (hex (List.replicate 32 0)) [1, 2, 3] =
          .ok signature ∧
        identityVerify (fun _ => ⟨List.replicate 64 7, rfl⟩) key [1, 2, 3] signature = true :=
  ⟨rfl, honest_signature_verifies _ rfl _⟩

end Soveroot.Multihost
