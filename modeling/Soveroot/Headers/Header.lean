import Soveroot.Miner.Compact
import Soveroot.Coins.View

/-!
# Block headers

A header, its hash, the work its `nBits` stands for and the changes of `nBits` that are permitted
from one header to the next. The two phases of a headers sync apply these functions to state they
keep in different ways.
-/

namespace Soveroot.Headers

open Py Wire Miner.Node

structure CBlockHeader where
  nVersion : UInt32
  hashPrevBlock : Digest
  hashMerkleRoot : Digest
  nTime : UInt32
  nBits : UInt32
  nNonce : UInt32
  deriving DecidableEq

namespace CBlockHeader

def serialize (h : CBlockHeader) : Bytes :=
  leBytes 4 h.nVersion.toNat ++ h.hashPrevBlock.bytes ++ h.hashMerkleRoot.bytes ++
    leBytes 4 h.nTime.toNat ++ leBytes 4 h.nBits.toNat ++ leBytes 4 h.nNonce.toNat

def getHash (sha256 : HashFn) (h : CBlockHeader) : Digest := sha256 (sha256 h.serialize).bytes

/-- `SetNull`. -/
def null : CBlockHeader :=
  ⟨0, .filled 0, .filled 0, 0, 0, 0⟩

end CBlockHeader

/-- `CompressedHeader`: a header without the hash of the one before. -/
structure CompressedHeader where
  nVersion : UInt32
  hashMerkleRoot : Digest
  nTime : UInt32
  nBits : UInt32
  nNonce : UInt32
  deriving DecidableEq

def CBlockHeader.compress (h : CBlockHeader) : CompressedHeader :=
  ⟨h.nVersion, h.hashMerkleRoot, h.nTime, h.nBits, h.nNonce⟩

def CompressedHeader.getFullHeader (h : CompressedHeader) (hashPrevBlock : Digest) : CBlockHeader :=
  ⟨h.nVersion, hashPrevBlock, h.hashMerkleRoot, h.nTime, h.nBits, h.nNonce⟩

@[simp] theorem CBlockHeader.getFullHeader_compress (h : CBlockHeader) :
    h.compress.getFullHeader h.hashPrevBlock = h := rfl

@[simp] theorem CBlockHeader.nBits_compress (h : CBlockHeader) : h.compress.nBits = h.nBits := rfl

/-! ## Salted hashes -/

structure SipState where
  v0 : UInt64
  v1 : UInt64
  v2 : UInt64
  v3 : UInt64

def rotl (x : UInt64) (n : UInt64) : UInt64 := (x <<< n) ||| (x >>> (64 - n))

/-- `SIPROUND`. -/
def SipState.round (s : SipState) : SipState :=
  let v0 := s.v0 + s.v1
  let v1 := rotl s.v1 13 ^^^ v0
  let v0 := rotl v0 32
  let v2 := s.v2 + s.v3
  let v3 := rotl s.v3 16 ^^^ v2
  let v0 := v0 + v3
  let v3 := rotl v3 21 ^^^ v0
  let v2 := v2 + v1
  let v1 := rotl v1 17 ^^^ v2
  let v2 := rotl v2 32
  ⟨v0, v1, v2, v3⟩

/-- A word taken in. -/
def SipState.absorb (s : SipState) (d : UInt64) : SipState :=
  let s := { s with v3 := s.v3 ^^^ d }.round.round
  { s with v0 := s.v0 ^^^ d }

def getUint64 (val : Digest) (pos : Nat) : UInt64 :=
  UInt64.ofNat (fromBytesLE ((val.bytes.drop (8 * pos)).take 8))

/-- The two keys of a `SaltedUint256Hasher`. -/
structure Salt where
  k0 : UInt64
  k1 : UInt64

/-- `PresaltedSipHasher::operator()`. -/
def Salt.hasher (salt : Salt) (val : Digest) : UInt64 :=
  let s : SipState := ⟨0x736f6d6570736575 ^^^ salt.k0, 0x646f72616e646f6d ^^^ salt.k1,
    0x6c7967656e657261 ^^^ salt.k0, 0x7465646279746573 ^^^ salt.k1⟩
  let s := (List.range 4).foldl (fun s pos => s.absorb (getUint64 val pos)) s
  let s := s.absorb ((4 : UInt64) <<< 59)
  let s := { s with v2 := s.v2 ^^^ 0xFF }.round.round.round.round
  s.v0 ^^^ s.v1 ^^^ s.v2 ^^^ s.v3

/-! ## Work and difficulty -/

def getBitsProof (bits : UInt32) : BitVec 256 :=
  let (target, negative, overflow) := setCompact bits
  if negative ∨ overflow ∨ target = 0 then 0 else ~~~target / (target + 1) + 1

/-- `bits()`. -/
def bitLength (n : BitVec 256) : Nat := if n = 0 then 0 else n.toNat.log2 + 1

/-- `GetCompact`, of a number that is not negative. -/
def getCompact (n : BitVec 256) : UInt32 :=
  let nSize := (bitLength n + 7) / 8
  let nCompact : Nat :=
    if nSize ≤ 3 then (n.toNat % 2 ^ 64) <<< (8 * (3 - nSize))
    else (n >>> (8 * (nSize - 3))).toNat % 2 ^ 64
  let (nCompact, nSize) :=
    if nCompact &&& 0x00800000 ≠ 0 then (nCompact >>> 8, nSize + 1) else (nCompact, nSize)
  UInt32.ofNat (nCompact ||| nSize <<< 24)

/-- The part of `Consensus::Params` that the difficulty depends on. -/
structure ConsensusParams where
  powLimit : BitVec 256
  fPowAllowMinDifficultyBlocks : Bool
  nPowTargetSpacing : Int
  nPowTargetTimespan : Int

namespace ConsensusParams

def difficultyAdjustmentInterval (params : ConsensusParams) : Int :=
  params.nPowTargetTimespan.tdiv params.nPowTargetSpacing

/-- A target after a period of the given timespan, no more than the limit and rounded. A number is
multiplied by a `uint32_t`, and divided by what a `uint64_t` holds. -/
def adjusted (params : ConsensusParams) (nbits : UInt32) (timespan : Int) : BitVec 256 :=
  let target := (setCompact nbits).1 * BitVec.ofNat 256 (timespan % 2 ^ 32).toNat /
    BitVec.ofNat 256 (params.nPowTargetTimespan % 2 ^ 64).toNat
  let target := if params.powLimit < target then params.powLimit else target
  (setCompact (getCompact target)).1

def permittedDifficultyTransition (params : ConsensusParams) (height : Int)
    (oldNbits newNbits : UInt32) :
    Bool :=
  if params.fPowAllowMinDifficultyBlocks then true
  else if height.tmod params.difficultyAdjustmentInterval = 0 then
    let observed := (setCompact newNbits).1
    if params.adjusted oldNbits (params.nPowTargetTimespan * 4) < observed then false
    else if observed < params.adjusted oldNbits (params.nPowTargetTimespan.tdiv 4) then false
    else true
  else oldNbits = newNbits

end ConsensusParams

end Soveroot.Headers
