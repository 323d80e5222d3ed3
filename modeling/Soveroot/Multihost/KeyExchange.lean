import Soveroot.Lib.Montgomery
import Soveroot.Lib.Sha256
import Soveroot.Multihost.Curve25519
import Soveroot.Multihost.Hello

/-!
# Session keys

`x25519`, `_hkdf` and `derive_session_key` of `contrib/mining_autonomy/sharechain_multihost_v1.py`.
The ladder runs on the Montgomery form of the identity keys' curve, and its base point `u = 9` is
the base point of the signatures. So `x25519` multiplies points, and the two sides of a session
arrive at the same multiple.
-/

namespace Soveroot.Multihost

open Py Check Wire Edwards Ed25519

/-! ## The ladder -/

/-- The variables of the loop in `x25519`. -/
structure Ladder where
  x2 : Int
  z2 : Int
  x3 : Int
  z3 : Int
  swap : Nat

/-- `if swap: …`. -/
def Ladder.exchange (s : Ladder) (swap : Nat) : Ladder :=
  if swap ≠ 0 then { s with x2 := s.x3, z2 := s.z3, x3 := s.x2, z3 := s.z2 } else s

/-- The body of the loop after the exchange. -/
def Ladder.advance (u : Int) (s : Ladder) (bit : Nat) : Ladder :=
  let a := (s.x2 + s.z2) % Q
  let aa := a * a % Q
  let b := (s.x2 - s.z2) % Q
  let bb := b * b % Q
  let e := (aa - bb) % Q
  let c := (s.x3 + s.z3) % Q
  let d := (s.x3 - s.z3) % Q
  let da := d * a % Q
  let cb := c * b % Q
  { x2 := aa * bb % Q
    z2 := e * (aa + 121665 * e) % Q
    x3 := (da + cb) ^ 2 % Q
    z3 := u * (da - cb) ^ 2 % Q
    swap := bit }

def Ladder.step (u : Int) (scalar : Nat) (s : Ladder) (bitIndex : Nat) : Ladder :=
  let bit := (scalar >>> bitIndex) &&& 1
  (s.exchange (s.swap ^^^ bit)).advance u bit

def x25519 (privateKey peerPublic : Bytes) : Except SafetyError Bytes := do
  require (privateKey.length = 32 ∧ peerPublic.length = 32)
    ⟨"ephemeral_key", "X25519 keys must be exactly 32 bytes"⟩
  let scalar := fromBytesLE (clampBytes 127 privateKey)
  let u : Int := (fromBytesLE peerPublic &&& (2 ^ 255 - 1) : Nat)
  let s := (List.range 255).reverse.foldl (Ladder.step u scalar) ⟨1, 0, u, 1, 0⟩
  let s := s.exchange s.swap
  pure (leBytes 32 (s.x2 * modPow s.z2 (Q - 2) Q % Q).toNat)

/-- The default for `peer_public`. -/
def nine : Bytes := 9 :: List.replicate 31 0

def ephemeralPublic (privateKey : Bytes) : Except SafetyError Text := do
  let key ← x25519 privateKey nine
  pure (hex key)

/-! ## The session key -/

/-- A hello as `make_hello` builds it and `verify_hello` accepts it. -/
structure Hello where
  format : Text
  messageType : Text
  networkId : Text
  role : Text
  peerId : Text
  identityAlgorithm : Text
  identityPublicKeyHex : Text
  operatorGroup : Text
  transport : Text
  endpoint : Text
  ephemeralAlgorithm : Text
  ephemeralPublicKeyHex : Text
  nonceHex : Text
  issuedTick : Int
  expiresTick : Int
  signatureHex : Text

def Hello.record (h : Hello) : HelloField → Json
  | .format => .str h.format
  | .messageType => .str h.messageType
  | .networkId => .str h.networkId
  | .role => .str h.role
  | .peerId => .str h.peerId
  | .identityAlgorithm => .str h.identityAlgorithm
  | .identityPublicKeyHex => .str h.identityPublicKeyHex
  | .operatorGroup => .str h.operatorGroup
  | .transport => .str h.transport
  | .endpoint => .str h.endpoint
  | .ephemeralAlgorithm => .str h.ephemeralAlgorithm
  | .ephemeralPublicKeyHex => .str h.ephemeralPublicKeyHex
  | .nonceHex => .str h.nonceHex
  | .issuedTick => .int h.issuedTick
  | .expiresTick => .int h.expiresTick
  | .signatureHex => .str h.signatureHex

def sessionKdf : Text := ascii "hkdf-sha256"

/-- `b"soveroot/share-sync/multihost/session/v1\x00"`. -/
def sessionDomain : Bytes := encodeAscii (ascii "soveroot/share-sync/multihost/session/v1") ++ [0]

/-- What `derive_session_key` raises: `bytes.fromhex` is called without a guard. -/
inductive DeriveError where
  | safetyError (error : SafetyError)
  | valueError

section

variable (sha256 : HashFn)

/-- The loop of `_hkdf`, of at most `fuel` blocks. -/
def hkdfLoop (key info : Bytes) (length : Nat) : Nat → Bytes → Bytes → Nat → Bytes
  | 0, output, _, _ => output
  | fuel + 1, output, previous, counter =>
    if output.length < length then
      let previous := (hmac sha256 key (previous ++ info ++ [UInt8.ofNat counter])).bytes
      hkdfLoop key info length fuel (output ++ previous) previous (counter + 1)
    else output

def hkdf (ikm salt info : Bytes) (length : Nat) : Bytes :=
  let pseudorandomKey := (hmac sha256 salt ikm).bytes
  (hkdfLoop sha256 pseudorandomKey info length length [] [] 1).take length

/-- The public key of the side that the local key is not of. -/
def remotePublicKey (localPublic : Text) (initiatorHello responderHello : Hello) :
    Except DeriveError Text :=
  if localPublic = initiatorHello.ephemeralPublicKeyHex then
    .ok responderHello.ephemeralPublicKeyHex
  else if localPublic = responderHello.ephemeralPublicKeyHex then
    .ok initiatorHello.ephemeralPublicKeyHex
  else
    .error (.safetyError ⟨"ephemeral_key", "local ephemeral key is absent from the transcript"⟩)

def sessionKey (shared : Bytes) (initiatorHello responderHello : Hello) : Text × Text :=
  let transcript := Json.obj
    [(ascii "format", .str protocol),
      (ascii "initiator_hello", Json.ofRecord initiatorHello.record),
      (ascii "responder_hello", Json.ofRecord responderHello.record)]
  let transcriptHash := (sha256 transcript.canonicalBytes).bytes
  let info := sessionDomain ++ (Json.obj
    [(ascii "network_id", .str initiatorHello.networkId),
      (ascii "initiator_id", .str initiatorHello.peerId),
      (ascii "responder_id", .str responderHello.peerId),
      (ascii "kdf", .str sessionKdf)]).canonicalBytes
  (hex (hkdf sha256 shared transcriptHash info 32), hex transcriptHash)

def deriveSessionKey (localEphemeralPrivate : Bytes) (initiatorHello responderHello : Hello) :
    Except DeriveError (Text × Text) := do
  require (initiatorHello.role = ascii "initiator" ∧ responderHello.role = ascii "responder")
    (.safetyError ⟨"hello_role", "session transcript roles are not canonical"⟩)
  require (initiatorHello.networkId = responderHello.networkId)
    (.safetyError ⟨"wrong_network", "session hellos bind different networks"⟩)
  let localPublic ← (ephemeralPublic localEphemeralPrivate).mapError .safetyError
  let remotePublic ← remotePublicKey localPublic initiatorHello responderHello
  let remote ← orRaise (fromHex remotePublic) .valueError
  let shared ← (x25519 localEphemeralPrivate remote).mapError .safetyError
  require (shared ≠ List.replicate 32 0)
    (.safetyError ⟨"ephemeral_key", "X25519 produced the forbidden all-zero secret"⟩)
  pure (sessionKey sha256 shared initiatorHello responderHello)

end

/-! ## The ladder multiplies -/

variable {P R : Point curve} {s : Ladder} {u : Int} {m bit : Nat}

theorem curve_d_mul : curve.d * ((121665 : ZMod Q) + 1) = -121665 := by
  have h : ((D * (121665 + 1) + 121665 : Int) : ZMod Q) = 0 := intCast_eq_zero.2 (by decide +kernel)
  push_cast at h
  rw [show curve.d = ((D : Int) : ZMod Q) from rfl]
  linear_combination h

theorem Ladder.advance_isRatio (bit : Nat) (hP : IsRatio P.y (s.x2 : ZMod Q) s.z2)
    (hR : IsRatio R.y (s.x3 : ZMod Q) s.z3)
    (hu : (u : ZMod Q) * (1 - (P - R).y) = 1 + (P - R).y) (hne : 1 + (P - R).y ≠ 0) :
    IsRatio (P + P).y ((s.advance u bit).x2 : ZMod Q) (s.advance u bit).z2 ∧
      IsRatio (P + R).y ((s.advance u bit).x3 : ZMod Q) (s.advance u bit).z3 := by
  have hdouble := hP.double curve_d_mul
  have hadd := hP.add hR hu hne
  simp only [Ladder.advance, ZMod.intCast_mod, Int.cast_mul, Int.cast_add, Int.cast_sub,
    Int.cast_pow,
    Int.cast_ofNat]
  exact ⟨hdouble, hadd⟩

/-- After the exchange that is due, the state holds two neighbouring multiples. -/
structure Ladder.Holds (P : Point curve) (m : Nat) (s : Ladder) : Prop where
  swap_lt : s.swap < 2
  first : IsRatio (m • P).y ((s.exchange s.swap).x2 : ZMod Q) (s.exchange s.swap).z2
  second : IsRatio ((m + 1) • P).y ((s.exchange s.swap).x3 : ZMod Q) (s.exchange s.swap).z3

theorem Ladder.exchange_xor_one (s : Ladder) (h : s.swap < 2) :
    s.exchange (s.swap ^^^ 1) =
      ⟨(s.exchange s.swap).x3, (s.exchange s.swap).z3, (s.exchange s.swap).x2,
        (s.exchange s.swap).z2, s.swap⟩ := by
  obtain ⟨x2, z2, x3, z3, swap⟩ := s
  obtain rfl | rfl : swap = 0 ∨ swap = 1 := by
    simp only at h
    omega
  · simp [Ladder.exchange]
  · simp [Ladder.exchange]

theorem Ladder.Holds.advance (h : s.Holds P m) (hu : (u : ZMod Q) * (1 - P.y) = 1 + P.y)
    (hne : 1 + P.y ≠ 0) (hbit : bit < 2) :
    ((s.exchange (s.swap ^^^ bit)).advance u bit).Holds P (2 * m + bit) := by
  obtain rfl | rfl : bit = 0 ∨ bit = 1 := by omega
  · -- the first is the smaller multiple
    have hsub : (m • P - (m + 1) • P).y = P.y := by
      rw [add_nsmul, one_nsmul, sub_add_cancel_left, Point.neg_y]
    obtain ⟨hdouble, hadd⟩ := Ladder.advance_isRatio 0 h.first h.second
      (by rw [hsub, hu]) (by rwa [hsub])
    rw [← add_nsmul] at hdouble hadd
    refine ⟨Nat.zero_lt_two, ?_, ?_⟩
    · rwa [Nat.add_zero, two_mul, Nat.xor_zero]
    · rwa [Nat.add_zero, two_mul, Nat.xor_zero, Nat.add_assoc]
  · -- the first is the larger one
    have hsub : ((m + 1) • P - m • P).y = P.y := by
      rw [add_nsmul, one_nsmul, add_sub_cancel_left]
    have hflip := s.exchange_xor_one h.swap_lt
    rw [hflip]
    obtain ⟨hdouble, hadd⟩ := Ladder.advance_isRatio (s := ⟨_, _, _, _, s.swap⟩) 1 h.second h.first
      (by rw [hsub, hu]) (by rwa [hsub])
    rw [← add_nsmul] at hdouble hadd
    have hsum : m + 1 + m = 2 * m + 1 := by omega
    have hsum' : m + 1 + (m + 1) = 2 * m + 1 + 1 := by omega
    refine ⟨Nat.one_lt_two, ?_, ?_⟩
    · rwa [hsum] at hadd
    · rwa [hsum'] at hdouble

theorem Ladder.foldl_holds (hu : (u : ZMod Q) * (1 - P.y) = 1 + P.y) (hne : 1 + P.y ≠ 0)
    (scalar n : Nat) (h : s.Holds P (scalar >>> n)) :
    ((List.range n).reverse.foldl (Ladder.step u scalar) s).Holds P scalar := by
  induction n generalizing s with
  | zero => simpa using h
  | succ n ih =>
    rw [List.range_succ, List.reverse_append, List.reverse_singleton, List.singleton_append,
      List.foldl_cons]
    refine ih ?_
    have hlt : (scalar >>> n) &&& 1 < 2 := by
      rw [Nat.and_one_is_mod]
      exact Nat.mod_lt _ (by decide)
    have hstep := h.advance hu hne hlt
    have hbits : scalar >>> n = 2 * (scalar >>> (n + 1)) + ((scalar >>> n) &&& 1) := by
      rw [Nat.and_one_is_mod, Nat.shiftRight_succ, Nat.div_add_mod]
    rw [← hbits] at hstep
    exact hstep

/-! ## The two points with `u = 0` -/

/-- Both fractions are zero or infinite. -/
structure Ladder.Degenerate (s : Ladder) : Prop where
  first : (s.x2 : ZMod Q) * s.z2 = 0
  second : (s.x3 : ZMod Q) * s.z3 = 0

theorem Ladder.Degenerate.exchange (h : s.Degenerate) (swap : Nat) :
    (s.exchange swap).Degenerate := by
  unfold Ladder.exchange
  split_ifs
  · exact ⟨h.second, h.first⟩
  · exact h

theorem Ladder.Degenerate.advance (h : s.Degenerate) (hu : (u : ZMod Q) = 0) :
    (s.advance u bit).Degenerate := by
  constructor
  · simp only [Ladder.advance, ZMod.intCast_mod, Int.cast_mul, Int.cast_add, Int.cast_sub,
      Int.cast_ofNat]
    linear_combination 4 * ((s.x2 : ZMod Q) + s.z2) ^ 2 * (s.x2 - s.z2) ^ 2 *
      ((s.x2 + s.z2) ^ 2 + 121665 * ((s.x2 + s.z2) ^ 2 - (s.x2 - s.z2) ^ 2)) * h.first
  · simp [Ladder.advance, hu]

theorem Ladder.Degenerate.foldl (hu : (u : ZMod Q) = 0) (scalar : Nat) (l : List Nat)
    (h : s.Degenerate) : (l.foldl (Ladder.step u scalar) s).Degenerate := by
  induction l generalizing s with
  | nil => exact h
  | cons i l ih => exact ih ((h.exchange _).advance hu)

theorem two_nsmul_of_u (h : P.u = 0) : 2 • P = 0 := by
  have hholds := P.holds
  unfold Curve.Holds at hholds
  have hy : P.y * P.y = 1 := by
    rcases div_eq_zero_iff.1 h with h0 | h0
    · linear_combination (P.y - 1) * h0
    · linear_combination -(P.y + 1) * h0
  have hx : P.x = 0 := by
    have hsq : P.x * P.x * (1 + curve.d) = 0 := by
      linear_combination -hholds + (1 - curve.d * P.x * P.x) * hy
    exact mul_self_eq_zero.1 ((mul_eq_zero.1 hsq).resolve_right curve.one_add_d_ne_zero)
  rw [two_nsmul]
  refine Point.ext ?_ ?_
  · rw [Point.add_x, hx]
    simp
  · rw [Point.add_y, hx, hy]
    simp

/-! ## Both sides arrive at the same point -/

def keyScalar (privateKey : Bytes) : Nat := fromBytesLE (clampBytes 127 privateKey)

theorem Ladder.result_eq (scalar : Nat) (hu : (u : ZMod Q) = P.u) (hlt : scalar < 2 ^ 255)
    (heven : 2 ∣ scalar) :
    let s := (List.range 255).reverse.foldl (Ladder.step u scalar) ⟨1, 0, u, 1, 0⟩
    ((s.exchange s.swap).x2 : ZMod Q) / (s.exchange s.swap).z2 = (scalar • P).u := by
  intro s
  by_cases h0 : P.u = 0
  · -- the fractions stay zero or infinite, and so do the multiples
    have hs : s.Degenerate := by
      refine Ladder.Degenerate.foldl (hu.trans h0) _ _ ⟨?_, ?_⟩
      · simp
      · simp [hu, h0]
    have hpoint : scalar • P = 0 := by
      obtain ⟨m, rfl⟩ := heven
      rw [mul_nsmul, two_nsmul_of_u h0, smul_zero]
    rw [hpoint, div_eq_zero_iff.2 (mul_eq_zero.1 (hs.exchange s.swap).first)]
    simp [Point.u]
  · have hne : 1 + P.y ≠ 0 := fun h => h0 (by rw [Point.u, h, zero_div])
    have hne' : 1 - P.y ≠ 0 := fun h => h0 (by rw [Point.u, h, div_zero])
    have hu' : (u : ZMod Q) * (1 - P.y) = 1 + P.y := by rw [hu, Point.u, div_mul_cancel₀ _ hne']
    have hstart : (⟨1, 0, u, 1, 0⟩ : Ladder).Holds P (scalar >>> 255) := by
      rw [Nat.shiftRight_eq_div_pow, Nat.div_eq_of_lt hlt]
      refine ⟨Nat.zero_lt_two, ⟨2⁻¹, inv_ne_zero curve.two_ne_zero, ?_, ?_⟩,
        ⟨(1 - P.y)⁻¹, inv_ne_zero hne', ?_, ?_⟩⟩
      · simp [Ladder.exchange, one_add_one_eq_two, inv_mul_cancel₀ curve.two_ne_zero]
      · simp [Ladder.exchange]
      · simp [Ladder.exchange, hu, Point.u, div_eq_mul_inv, mul_comm]
      · simp [Ladder.exchange, inv_mul_cancel₀ hne']
    exact (Ladder.foldl_holds hu' hne scalar 255 hstart).first.div_eq

/-- **`x25519` multiplies.** -/
theorem x25519_eq {privateKey peerPublic : Bytes} (hkey : privateKey.length = 32)
    (hpeer : peerPublic.length = 32)
    (hu : ((fromBytesLE peerPublic % 2 ^ 255 : Nat) : ZMod Q) = P.u) :
    x25519 privateKey peerPublic = .ok (leBytes 32 (keyScalar privateKey • P).u.val) := by
  obtain ⟨m, hm, -, hlt⟩ := exists_clampBytes (by decide : (127 : UInt8).toNat < 2 ^ 7) hkey
  have hresult := Ladder.result_eq (u := (fromBytesLE peerPublic % 2 ^ 255 : Nat)) (P := P)
    (keyScalar privateKey) (by rw [Int.cast_natCast, hu]) (by rw [keyScalar]; omega)
    ⟨4 * m, by rw [keyScalar]; omega⟩
  have hval (x z : Int) :
      (x * modPow z (Q - 2) Q % Q).toNat = ((x : ZMod Q) / (z : ZMod Q)).val := by
    rw [div_eq_mul_inv, ← cast_modPow_sub_two z two_lt_Q, ← Int.cast_mul, ← ZMod.val_intCast,
      Int.toNat_natCast]
  rw [x25519, require_of_pos ⟨hkey, hpeer⟩, ok_bind, Nat.and_two_pow_sub_one_eq_mod]
  simp only [hval]
  rw [← hresult]
  rfl

theorem u_basePoint : basePoint.u = 9 := by
  have hcross : ((1 + BY - 9 * (1 - BY) : Int) : ZMod Q) = 0 :=
    intCast_eq_zero.2 (by decide +kernel)
  have hne : (1 : ZMod Q) - (BY : Int) ≠ 0 := fun h0 => by
    have h1 : ((1 - BY : Int) : ZMod Q) = 0 := by
      push_cast
      exact h0
    have := intCast_eq_zero.1 h1
    revert this
    decide +kernel
  push_cast at hcross
  have hy : basePoint.y = ((BY : Int) : ZMod Q) := by simp only [basePoint]
  rw [Point.u, hy, div_eq_iff hne]
  linear_combination hcross

theorem x25519_nine {privateKey : Bytes} (h : privateKey.length = 32) :
    x25519 privateKey nine = .ok (leBytes 32 (keyScalar privateKey • basePoint).u.val) := by
  refine x25519_eq h (by decide) ?_
  rw [u_basePoint, show fromBytesLE nine % 2 ^ 255 = 9 by decide +kernel]
  rfl

theorem x25519_x25519 {a b : Bytes} (ha : a.length = 32) :
    x25519 a (leBytes 32 (keyScalar b • basePoint).u.val) =
      .ok (leBytes 32 (keyScalar a • keyScalar b • basePoint).u.val) := by
  have hQ : Q < 2 ^ 255 := by decide
  have hlt := ZMod.val_lt (keyScalar b • basePoint).u
  refine x25519_eq ha (length_leBytes _ _) ?_
  rw [fromBytesLE_leBytes, Nat.mod_eq_of_lt (by omega), Nat.mod_eq_of_lt (by omega),
    ZMod.natCast_zmod_val]

theorem deriveSessionKey_eq (sha256 : HashFn) {key remote shared : Bytes} {localPublic : Text}
    {i r : Hello} (hlocal : ephemeralPublic key = .ok localPublic)
    (hremote : remotePublicKey localPublic i r = .ok (hex remote))
    (hshared : x25519 key remote = .ok shared) :
    deriveSessionKey sha256 key i r = (do
      require (i.role = ascii "initiator" ∧ r.role = ascii "responder")
        (.safetyError ⟨"hello_role", "session transcript roles are not canonical"⟩)
      require (i.networkId = r.networkId)
        (.safetyError ⟨"wrong_network", "session hellos bind different networks"⟩)
      require (shared ≠ List.replicate 32 0)
        (.safetyError ⟨"ephemeral_key", "X25519 produced the forbidden all-zero secret"⟩)
      pure (sessionKey sha256 shared i r)) := by
  simp only [deriveSessionKey, hlocal, hremote, hshared, Except.mapError, ok_bind, fromHex_hex,
    orRaise_some]

/-- **Key agreement.** The two sides of a session compute the same secret, and from the same hellos
the same result: the key and the commitment when the hellos are those of a session and the secret is
not zero. -/
theorem session_keys_agree (sha256 : HashFn) {a b : Bytes} (ha : a.length = 32)
    (hb : b.length = 32) :
    (x25519 b nine >>= x25519 a) = (x25519 a nine >>= x25519 b) ∧
      ∀ i r : Hello, ephemeralPublic a = .ok i.ephemeralPublicKeyHex →
        ephemeralPublic b = .ok r.ephemeralPublicKeyHex →
        deriveSessionKey sha256 a i r = deriveSessionKey sha256 b i r ∧
        (i.role = ascii "initiator" → r.role = ascii "responder" → i.networkId = r.networkId →
          (x25519 b nine >>= x25519 a) ≠ .ok (List.replicate 32 0) →
          ∃ key commitment, deriveSessionKey sha256 a i r = .ok (key, commitment) ∧
            deriveSessionKey sha256 b i r = .ok (key, commitment)) := by
  have hshared := x25519_x25519 (b := b) ha
  have hshared' := x25519_x25519 (b := a) hb
  rw [smul_comm] at hshared'
  rw [x25519_nine ha, x25519_nine hb, ok_bind, ok_bind, hshared, hshared']
  refine ⟨rfl, fun i r hi hr => ?_⟩
  have hi' : hex (leBytes 32 (keyScalar a • basePoint).u.val) = i.ephemeralPublicKeyHex := by
    rw [ephemeralPublic, x25519_nine ha, ok_bind] at hi
    exact Except.ok.inj hi
  have hr' : hex (leBytes 32 (keyScalar b • basePoint).u.val) = r.ephemeralPublicKeyHex := by
    rw [ephemeralPublic, x25519_nine hb, ok_bind] at hr
    exact Except.ok.inj hr
  have hremote : remotePublicKey i.ephemeralPublicKeyHex i r =
      .ok (hex (leBytes 32 (keyScalar b • basePoint).u.val)) := by
    rw [remotePublicKey, if_pos rfl, hr']
  have hremote' : remotePublicKey r.ephemeralPublicKeyHex i r =
      .ok (hex (leBytes 32 (keyScalar a • basePoint).u.val)) := by
    rw [remotePublicKey, if_pos rfl, hi']
    split_ifs with heq
    · rw [heq]
    · rfl
  rw [deriveSessionKey_eq sha256 hi hremote hshared,
    deriveSessionKey_eq sha256 hr hremote' hshared']
  refine ⟨rfl, fun hrole hrole' hnetwork hne => ?_⟩
  have hne' : leBytes 32 (keyScalar a • keyScalar b • basePoint).u.val ≠ List.replicate 32 0 :=
    fun h => hne (congrArg Except.ok h)
  rw [require_of_pos ⟨hrole, hrole'⟩, require_of_pos hnetwork, require_of_pos hne']
  exact ⟨_, _, rfl, rfl⟩

namespace Sample

def session (role peerId ephemeralPublicKeyHex : String) : Hello where
  format := protocol
  messageType := ascii "session_hello"
  networkId := Multihost.networkId
  role := ascii role
  peerId := ascii peerId
  identityAlgorithm := Multihost.identityAlgorithm
  identityPublicKeyHex := hex (List.replicate 32 3)
  operatorGroup := ascii "group"
  transport := ascii "tcp"
  endpoint := ascii "192.0.2.1:4000"
  ephemeralAlgorithm := Multihost.ephemeralAlgorithm
  ephemeralPublicKeyHex := ascii ephemeralPublicKeyHex
  nonceHex := hex (List.replicate 32 5)
  issuedTick := 10
  expiresTick := 10 + helloLifetimeTicks
  signatureHex := hex (List.replicate 64 7)

def alpha : Hello :=
  session "initiator" "alpha" "2fe57da347cd62431528daac5fbb290730fff684afc4cfc2ed90995f58cb3b74"

def bravo : Hello :=
  session "responder" "bravo" "a4e09292b651c278b9772c569f5fa9bb13d906b46ab68c9df9dc2b4409f8a209"

end Sample

open Sample

theorem session_keys_agree_alpha_bravo :
    ∃ key commitment,
      deriveSessionKey Sha256.sha256 (List.replicate 32 0) alpha bravo =
          .ok (key, commitment) ∧
        deriveSessionKey Sha256.sha256 (List.replicate 32 1) alpha bravo =
          .ok (key, commitment) :=
  ((session_keys_agree Sha256.sha256 rfl rfl).2 alpha bravo (by decide +kernel)
    (by decide +kernel)).2 rfl rfl rfl (by decide +kernel)

end Soveroot.Multihost
