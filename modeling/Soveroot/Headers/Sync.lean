import Soveroot.Headers.Header
import Soveroot.Lib.Loop

/-!
# The headers sync

`HeadersSyncState` downloads the headers of a peer twice. In the first phase (`presync`) it adds up
the work of the chain and keeps one salted bit of the hash at every committed height. Once the work
suffices it asks for the headers again (`redownload`), compares the bits, and holds the headers in a
buffer until enough of them lie on top. A height is an `int` in the first phase and an `int64_t` in
the second.
-/

namespace Soveroot.Headers

open Py Loop

/-- What the sync reads of the block index entry it starts from. -/
structure ChainStart where
  header : CBlockHeader
  height : Nat
  chainWork : BitVec 256
  height_lt : height < 2 ^ 31

/-- The constant members of a `HeadersSyncState`, and the hash function. -/
structure Setup where
  sha256 : HashFn
  consensus : ConsensusParams
  commitmentPeriod : Nat
  redownloadBufferSize : Nat
  commitOffset : Nat
  salt : Salt
  chainStart : ChainStart
  minimumRequiredWork : BitVec 256
  maxCommitments : Nat
  commitOffset_lt : commitOffset < commitmentPeriod

inductive DownloadState where
  | presync
  | redownload
  | final
  deriving DecidableEq

/-- The other members. -/
structure SyncState where
  downloadState : DownloadState
  currentChainWork : BitVec 256
  headerCommitments : List Bool
  lastHeaderReceived : CBlockHeader
  currentHeight : Int
  redownloadedHeaders : List CompressedHeader
  redownloadBufferLastHeight : Int
  redownloadBufferLastHash : Digest
  redownloadBufferFirstPrevHash : Digest
  redownloadChainWork : BitVec 256
  processAllRemainingHeaders : Bool

structure ProcessingResult where
  powValidatedHeaders : List CBlockHeader
  success : Bool
  requestMore : Bool
  deriving DecidableEq

namespace Setup

variable (cfg : Setup)

def nullHash : Digest := .filled 0

def hashOf (h : CBlockHeader) : Digest := h.getHash cfg.sha256

def startHash : Digest := cfg.hashOf cfg.chainStart.header

/-- The constructor. -/
def initial : SyncState where
  downloadState := .presync
  currentChainWork := cfg.chainStart.chainWork
  headerCommitments := []
  lastHeaderReceived := cfg.chainStart.header
  currentHeight := cfg.chainStart.height
  redownloadedHeaders := []
  redownloadBufferLastHeight := 0
  redownloadBufferLastHash := nullHash
  redownloadBufferFirstPrevHash := nullHash
  redownloadChainWork := 0
  processAllRemainingHeaders := false

def finalize (s : SyncState) : SyncState :=
  { s with
    downloadState := .final
    headerCommitments := []
    lastHeaderReceived := .null
    redownloadedHeaders := []
    redownloadBufferLastHash := nullHash
    redownloadBufferFirstPrevHash := nullHash
    processAllRemainingHeaders := false
    currentHeight := 0 }

/-- Whether a height is committed to; it is converted to `size_t` first. -/
def isCommitted (height : Int) : Bool :=
  (height % 2 ^ 64).toNat % cfg.commitmentPeriod == cfg.commitOffset

/-- The bit that is committed to. -/
def commitment (h : CBlockHeader) : Bool := cfg.salt.hasher (cfg.hashOf h) &&& 1 == 1

def validateAndProcessSingleHeader (s : SyncState) (current : CBlockHeader) : Bool × SyncState :=
  if s.downloadState ≠ .presync then (false, s)
  else
    -- the height goes through an `int`
    let nextHeight := (s.currentHeight + 1).bmod (2 ^ 32)
    if !cfg.consensus.permittedDifficultyTransition nextHeight
      s.lastHeaderReceived.nBits current.nBits then
      (false, s)
    else
      let s :=
        if cfg.isCommitted nextHeight then
          { s with headerCommitments := s.headerCommitments ++ [cfg.commitment current] }
        else s
      if cfg.isCommitted nextHeight ∧ s.headerCommitments.length > cfg.maxCommitments then
        (false, s)
      else
        (true, { s with
          currentChainWork := s.currentChainWork + getBitsProof current.nBits
          lastHeaderReceived := current
          currentHeight := nextHeight })

/-- The switch to the second phase. -/
def startRedownload (s : SyncState) : SyncState :=
  { s with
    redownloadedHeaders := []
    redownloadBufferLastHeight := cfg.chainStart.height
    redownloadBufferFirstPrevHash := cfg.startHash
    redownloadBufferLastHash := cfg.startHash
    redownloadChainWork := cfg.chainStart.chainWork
    downloadState := .redownload }

def validateAndStoreHeadersCommitments (s : SyncState) (headers : List CBlockHeader) :
    Bool × SyncState :=
  match headers with
  | [] => (true, s)
  | first :: _ =>
    if s.downloadState ≠ .presync then (false, s)
    else if first.hashPrevBlock ≠ cfg.hashOf s.lastHeaderReceived then (false, s)
    else
      match untilRefused cfg.validateAndProcessSingleHeader headers s with
      | (false, s) => (false, s)
      | (true, s) =>
        (true, if s.currentChainWork ≥ cfg.minimumRequiredWork then cfg.startRedownload s else s)

/-- The `nBits` before the next redownloaded header. -/
def previousBits (s : SyncState) : UInt32 :=
  match s.redownloadedHeaders.getLast? with
  | some h => h.nBits
  | none => cfg.chainStart.header.nBits

/-- The comparison with the commitments of the first phase, at a height that may be committed to. -/
def checkCommitment (s : SyncState) (nextHeight : Int) (header : CBlockHeader) : Bool × SyncState :=
  if !s.processAllRemainingHeaders && cfg.isCommitted nextHeight then
    match s.headerCommitments with
    | [] => (false, s)
    | expected :: rest => (cfg.commitment header == expected, { s with headerCommitments := rest })
  else (true, s)

/-- The work of a redownloaded header, added before its commitment is compared. -/
def trackWork (s : SyncState) (header : CBlockHeader) : SyncState :=
  let work := s.redownloadChainWork + getBitsProof header.nBits
  { s with
    redownloadChainWork := work
    processAllRemainingHeaders :=
      s.processAllRemainingHeaders || decide (work ≥ cfg.minimumRequiredWork) }

def storeHeader (s : SyncState) (nextHeight : Int) (header : CBlockHeader) : SyncState :=
  { s with
    redownloadedHeaders := s.redownloadedHeaders ++ [header.compress]
    redownloadBufferLastHeight := nextHeight
    redownloadBufferLastHash := cfg.hashOf header }

def validateAndStoreRedownloadedHeader (s : SyncState) (header : CBlockHeader) : Bool × SyncState :=
  if s.downloadState ≠ .redownload then (false, s)
  else
    let nextHeight := s.redownloadBufferLastHeight + 1
    if header.hashPrevBlock ≠ s.redownloadBufferLastHash then (false, s)
    else if !cfg.consensus.permittedDifficultyTransition nextHeight (cfg.previousBits s)
      header.nBits then
      (false, s)
    else
      match cfg.checkCommitment (cfg.trackWork s header) nextHeight header with
      | (false, s) => (false, s)
      | (true, s) => (true, cfg.storeHeader s nextHeight header)

/-- The loop of `PopHeadersReadyForAcceptance`. -/
def popHeaders (s : SyncState) : List CompressedHeader → Digest → List CBlockHeader × SyncState
  | [], prevHash =>
    ([], { s with redownloadedHeaders := [], redownloadBufferFirstPrevHash := prevHash })
  | h :: rest, prevHash =>
    if rest.length + 1 > cfg.redownloadBufferSize ∨ s.processAllRemainingHeaders then
      let full := h.getFullHeader prevHash
      let (popped, s) := popHeaders s rest (cfg.hashOf full)
      (full :: popped, s)
    else
      ([], { s with redownloadedHeaders := h :: rest, redownloadBufferFirstPrevHash := prevHash })

def popHeadersReadyForAcceptance (s : SyncState) : List CBlockHeader × SyncState :=
  if s.downloadState ≠ .redownload then ([], s)
  else cfg.popHeaders s s.redownloadedHeaders s.redownloadBufferFirstPrevHash

/-- The branch of `ProcessNextHeaders` for the first phase. -/
def processPresync (s : SyncState) (headers : List CBlockHeader) (full : Bool) :
    ProcessingResult × SyncState :=
  let (success, s) := cfg.validateAndStoreHeadersCommitments s headers
  (⟨[], success, success && (full || s.downloadState == .redownload)⟩, s)

/-- The branch of `ProcessNextHeaders` for the second phase. -/
def processRedownload (s : SyncState) (headers : List CBlockHeader) (full : Bool) :
    ProcessingResult × SyncState :=
  match untilRefused cfg.validateAndStoreRedownloadedHeader headers s with
  | (false, s) => (⟨[], false, false⟩, s)
  | (true, s) =>
    let (released, s) := cfg.popHeadersReadyForAcceptance s
    (⟨released, true, !(s.redownloadedHeaders.isEmpty && s.processAllRemainingHeaders) && full⟩, s)

def processNextHeaders (s : SyncState) (headers : List CBlockHeader) (full : Bool) :
    ProcessingResult × SyncState :=
  if headers = [] then (⟨[], false, false⟩, s)
  else
    match s.downloadState with
    | .final => (⟨[], false, false⟩, s)
    | .presync =>
      let (ret, s) := cfg.processPresync s headers full
      (ret, if ret.success && ret.requestMore then s else finalize s)
    | .redownload =>
      let (ret, s) := cfg.processRedownload s headers full
      (ret, if ret.success && ret.requestMore then s else finalize s)

end Setup

end Soveroot.Headers
