import Soveroot.Lib.Edwards
import Soveroot.Lib.Hex
import Soveroot.Lib.Pratt
import Soveroot.Multihost.Admission

/-!
# Identity keys

The Ed25519 reference of `contrib/mining_autonomy/sharechain_multihost_v1.py`. A point is a pair of
integers; its coordinates are reduced modulo `Q` by every addition, but not by `decodePoint`.

SHA-512 is a parameter: any function to 64 bytes.
-/

namespace Soveroot.Multihost

open Py Check Wire

abbrev Sha512 := Bytes → { digest : Bytes // digest.length = 64 }

namespace Ed25519

def Q : Nat := 57896044618658097711785492504343953926634992332820282019728792003956564819949

example : Q = 2 ^ 255 - 19 := by decide +kernel

def L : Nat := 7237005577332262213973186563042994240857116359379907606001950938285454250989

example : L = 2 ^ 252 + 27742317777372353535851937790883648493 := by decide +kernel

def D : Int := -121665 * modPow 121666 (Q - 2) Q % Q

def I : Int := modPow 2 ((Q - 1) / 4) Q

/-- The root in `_xrecover`, before its sign is chosen. -/
def squareRoot (xx : Int) : Int :=
  let x := modPow xx ((Q + 3) / 8) Q
  if (x * x - xx) % Q ≠ 0 then x * I % Q else x

def xrecover (y : Int) : Int :=
  let x := squareRoot ((y * y - 1) * modPow (D * y * y + 1) (Q - 2) Q % Q)
  if x % 2 = 1 then Q - x else x

def BY : Int := 4 * modPow 5 (Q - 2) Q % Q

def BX : Int := xrecover BY

def B : Int × Int := (BX, BY)

def edAdd (left right : Int × Int) : Int × Int :=
  let common := D * left.1 * right.1 * left.2 * right.2 % Q
  ((left.1 * right.2 + right.1 * left.2) * modPow (1 + common) (Q - 2) Q % Q,
    (left.2 * right.2 + left.1 * right.1) * modPow (1 - common) (Q - 2) Q % Q)

def edScalar (point : Int × Int) (scalar : Nat) : Int × Int :=
  doubleAndAdd edAdd (scalar.log2 + 1) (0, 1) point scalar

def encodePoint (point : Int × Int) : Bytes :=
  leBytes 32 (point.2.toNat ||| ((point.1 % 2).toNat <<< 255))

def decodePoint (encoded : Bytes) : Except SafetyError (Int × Int) := do
  require (encoded.length = 32) ⟨"identity_point", "Ed25519 point must be 32 bytes"⟩
  let value := fromBytesLE encoded
  let sign : Int := (value >>> 255 : Nat)
  let y : Int := (value &&& (2 ^ 255 - 1) : Nat)
  require (¬ (Q : Int) ≤ y) ⟨"identity_point", "Ed25519 point is non-canonical"⟩
  let root := xrecover y
  let x := if root % 2 ≠ sign then Q - root else root
  require ((y * y - x * x - 1 - D * x * x * y * y) % Q = 0)
    ⟨"identity_point", "Ed25519 point is not on the curve"⟩
  pure (x, y)

/-- The clamping of a secret scalar: the lowest three bits and those outside the mask are cleared,
and the bit `254` is set. -/
def clampBytes (mask : UInt8) (scalarBytes : Bytes) : Bytes :=
  let scalarBytes := scalarBytes.modify 0 (· &&& 248)
  let scalarBytes := scalarBytes.modify 31 (· &&& mask)
  scalarBytes.modify 31 (· ||| 64)

end Ed25519

section

open Ed25519

variable (sha512 : Sha512)

def secretScalar (seed : Bytes) : Except SafetyError (Nat × Bytes) := do
  require (seed.length = 32) ⟨"identity_seed", "identity seed must be exactly 32 bytes"⟩
  let digest := (sha512 seed).1
  pure (fromBytesLE (clampBytes 63 (digest.take 32)), digest.drop 32)

/-- `bytes.fromhex(require_hex(…))`. -/
def hexBytes (value : Text) (size : Nat) (reason label : String) : Except SafetyError Bytes := do
  let text ← requireHex (.str value) size reason label
  orRaise (fromHex text) ⟨reason, s!"{label} must be hexadecimal"⟩

def identityPublicKey (seedHex : Text) : Except SafetyError Text := do
  let seed ← hexBytes seedHex 32 "identity_seed" "identity seed"
  let (scalar, _) ← secretScalar sha512 seed
  pure (hex (encodePoint (edScalar B scalar)))

def identitySign (seedHex : Text) (message : Bytes) : Except SafetyError Text := do
  let seed ← hexBytes seedHex 32 "identity_seed" "identity seed"
  let (scalar, tail) ← secretScalar sha512 seed
  let publicHex ← identityPublicKey sha512 seedHex
  let key ← orRaise (fromHex publicHex) ⟨"identity_key", "identity public key must be hexadecimal"⟩
  let nonce := fromBytesLE (sha512 (tail ++ message)).1 % L
  let encodedR := encodePoint (edScalar B nonce)
  let challenge := fromBytesLE (sha512 (encodedR ++ key ++ message)).1 % L
  let encodedS := leBytes 32 ((nonce + challenge * scalar) % L)
  pure (hex (encodedR ++ encodedS))

/-- The body of `identity_verify`. -/
def verifySignature (publicKeyHex : Text) (message : Bytes) (signatureHex : Text) :
    Except SafetyError Bool := do
  let key ← hexBytes publicKeyHex 32 "identity_key" "identity public key"
  let signature ← hexBytes signatureHex 64 "identity_signature" "identity signature"
  let pointA ← decodePoint key
  if pointA = (0, 1) ∨ edScalar pointA L ≠ (0, 1) then pure false
  else do
    let pointR ← decodePoint (signature.take 32)
    let scalarS := fromBytesLE (signature.drop 32)
    if L ≤ scalarS then pure false
    else do
      let challenge := fromBytesLE (sha512 (signature.take 32 ++ key ++ message)).1 % L
      pure (encodePoint (edScalar B scalarS) =
        encodePoint (edAdd pointR (edScalar pointA challenge)))

/-- `identity_verify`: every error is a refusal. -/
def identityVerify (publicKeyHex : Text) (message : Bytes) (signatureHex : Text) : Bool :=
  match verifySignature sha512 publicKeyHex message signatureHex with
  | .ok accepted => accepted
  | .error _ => false

end

end Soveroot.Multihost
