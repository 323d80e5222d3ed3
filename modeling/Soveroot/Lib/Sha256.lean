import Soveroot.Lib.Hex

/-!
# SHA-256 and HMAC

Protocol code is modelled over an arbitrary hash function `Bytes → Digest`. This file has the type
of digests, `hmac` over any such function, and SHA-256 itself (FIPS 180-4). Words are natural
numbers below `2 ^ 32`, with the arithmetic of `Nat`: it runs on literals, which lets whole
documents be hashed inside a proof.
-/

namespace Py

/-- Thirty-two bytes. -/
structure Digest where
  /-- The bytes of the digest. -/
  bytes : Bytes
  /-- There are thirty-two of them. -/
  length_bytes : bytes.length = 32

def Digest.filled (b : UInt8) : Digest := ⟨List.replicate 32 b, List.length_replicate⟩

/-- `digest.hex()`. -/
def Digest.hexdigest (d : Digest) : Text := hex d.bytes

@[simp] theorem Digest.length_hexdigest (d : Digest) : d.hexdigest.length = 64 := by
  rw [Digest.hexdigest, length_hex, d.length_bytes]

abbrev HashFn := Bytes → Digest

/-- The key block of HMAC: hashed when longer than a block, then padded with zeros. -/
def hmacKey (h : HashFn) (key : Bytes) : Bytes :=
  let short := if 64 < key.length then (h key).bytes else key
  short ++ List.replicate (64 - short.length) 0

/-- `hmac.new(key, message, h).digest()`. -/
def hmac (h : HashFn) (key message : Bytes) : Digest :=
  let block := hmacKey h key
  h (block.map (· ^^^ 0x5c) ++ (h (block.map (· ^^^ 0x36) ++ message)).bytes)

namespace Sha256

def rotr (x n : Nat) : Nat :=
  Nat.lor (Nat.shiftRight x n) (Nat.mod (Nat.shiftLeft x (Nat.sub 32 n)) 4294967296)

def ch (x y z : Nat) : Nat := Nat.xor (Nat.land x y) (Nat.land (Nat.sub 4294967295 x) z)

def maj (x y z : Nat) : Nat := Nat.xor (Nat.land x y) (Nat.xor (Nat.land x z) (Nat.land y z))

def bigSigma0 (x : Nat) : Nat := Nat.xor (rotr x 2) (Nat.xor (rotr x 13) (rotr x 22))

def bigSigma1 (x : Nat) : Nat := Nat.xor (rotr x 6) (Nat.xor (rotr x 11) (rotr x 25))

def sigma0 (x : Nat) : Nat := Nat.xor (rotr x 7) (Nat.xor (rotr x 18) (Nat.shiftRight x 3))

def sigma1 (x : Nat) : Nat := Nat.xor (rotr x 17) (Nat.xor (rotr x 19) (Nat.shiftRight x 10))

def add32 (a b : Nat) : Nat := Nat.mod (Nat.add a b) 4294967296

def roundConstants : List Nat :=
  [0x428a2f98, 0x71374491, 0xb5c0fbcf, 0xe9b5dba5, 0x3956c25b, 0x59f111f1, 0x923f82a4, 0xab1c5ed5,
    0xd807aa98, 0x12835b01, 0x243185be, 0x550c7dc3, 0x72be5d74, 0x80deb1fe, 0x9bdc06a7, 0xc19bf174,
    0xe49b69c1, 0xefbe4786, 0x0fc19dc6, 0x240ca1cc, 0x2de92c6f, 0x4a7484aa, 0x5cb0a9dc, 0x76f988da,
    0x983e5152, 0xa831c66d, 0xb00327c8, 0xbf597fc7, 0xc6e00bf3, 0xd5a79147, 0x06ca6351, 0x14292967,
    0x27b70a85, 0x2e1b2138, 0x4d2c6dfc, 0x53380d13, 0x650a7354, 0x766a0abb, 0x81c2c92e, 0x92722c85,
    0xa2bfe8a1, 0xa81a664b, 0xc24b8b70, 0xc76c51a3, 0xd192e819, 0xd6990624, 0xf40e3585, 0x106aa070,
    0x19a4c116, 0x1e376c08, 0x2748774c, 0x34b0bcb5, 0x391c0cb3, 0x4ed8aa4a, 0x5b9cca4f, 0x682e6ff3,
    0x748f82ee, 0x78a5636f, 0x84c87814, 0x8cc70208, 0x90befffa, 0xa4506ceb, 0xbef9a3f7, 0xc67178f2]

structure Words where
  a : Nat
  b : Nat
  c : Nat
  d : Nat
  e : Nat
  f : Nat
  g : Nat
  h : Nat

def initial : Words :=
  ⟨0x6a09e667, 0xbb67ae85, 0x3c6ef372, 0xa54ff53a, 0x510e527f, 0x9b05688c, 0x1f83d9ab, 0x5be0cd19⟩

def round (s : Words) (k w : Nat) : Words :=
  let t1 := Nat.add s.h (Nat.add (bigSigma1 s.e) (Nat.add (ch s.e s.f s.g) (Nat.add k w)))
  let t2 := Nat.add (bigSigma0 s.a) (maj s.a s.b s.c)
  ⟨add32 t1 t2, s.a, s.b, s.c, add32 s.d t1, s.e, s.f, s.g⟩

structure Window where
  (w0 w1 w2 w3 w4 w5 w6 w7 w8 w9 w10 w11 w12 w13 w14 w15 : Nat)

def Window.ofBlock (l : List Nat) : Window :=
  ⟨l.getD 0 0, l.getD 1 0, l.getD 2 0, l.getD 3 0, l.getD 4 0, l.getD 5 0, l.getD 6 0, l.getD 7 0,
    l.getD 8 0, l.getD 9 0, l.getD 10 0, l.getD 11 0, l.getD 12 0, l.getD 13 0, l.getD 14 0,
    l.getD 15 0⟩

def Window.shift (w : Window) : Window :=
  ⟨w.w1, w.w2, w.w3, w.w4, w.w5, w.w6, w.w7, w.w8, w.w9, w.w10, w.w11, w.w12, w.w13, w.w14, w.w15,
    add32 (Nat.add (sigma1 w.w14) w.w9) (Nat.add (sigma0 w.w1) w.w0)⟩

def rounds : List Nat → Window → Words → Words
  | [], _, s => s
  | k :: ks, w, s => rounds ks w.shift (round s k w.w0)

def compress (s : Words) (block : List Nat) : Words :=
  let r := rounds roundConstants (.ofBlock block) s
  ⟨add32 s.a r.a, add32 s.b r.b, add32 s.c r.c, add32 s.d r.d,
    add32 s.e r.e, add32 s.f r.f, add32 s.g r.g, add32 s.h r.h⟩

/-- Compress the first `n` blocks of a word list. -/
def compressBlocks : Nat → List Nat → Words → Words
  | 0, _, s => s
  | n + 1, ws, s => compressBlocks n (ws.drop 16) (compress s (ws.take 16))

def toWords : Bytes → List Nat
  | a :: b :: c :: d :: rest =>
    (((a.toNat * 256 + b.toNat) * 256 + c.toNat) * 256 + d.toNat) :: toWords rest
  | _ => []

def wordBytes (w : Nat) : Bytes :=
  [UInt8.ofNat (w / 16777216), UInt8.ofNat (w / 65536), UInt8.ofNat (w / 256), UInt8.ofNat w]

/-- The message, the bit `1`, zeros up to eight bytes before the end of a block, and the length
in bits. -/
def pad (message : Bytes) : Bytes :=
  let bits := 8 * message.length
  message ++ 0x80 :: List.replicate ((119 - message.length % 64) % 64) 0 ++
    (wordBytes (bits / 4294967296) ++ wordBytes bits)

def sha256 : HashFn := fun message =>
  let ws := toWords (pad message)
  let r := compressBlocks (ws.length / 16) ws initial
  ⟨wordBytes r.a ++ wordBytes r.b ++ wordBytes r.c ++ wordBytes r.d ++
    (wordBytes r.e ++ wordBytes r.f ++ wordBytes r.g ++ wordBytes r.h), rfl⟩

example : (sha256 (encodeAscii (ascii "abc"))).hexdigest =
    ascii "ba7816bf8f01cfea414140de5dae2223b00361a396177a9cb410ff61f20015ad" := by
  decide +kernel

end Sha256

end Py
