import Soveroot.Lib.Hex
import Soveroot.Lib.Lines
import Soveroot.Sv2.HexText

/-!
# The miner's messages

`contrib/mining_autonomy/sv2-independent-miner/src/wire.rs` and `model.rs`: the payloads the
independent miner writes and the ones it reads, in the Stratum V2 encoding. Integers are little
endian; a `B0255`, `B064K` or `B016M` value is its length in one, two or three bytes and then its
bytes. Only the payloads with a text of the template in them can panic.
-/

namespace Soveroot.Sv2

open Py Check Wire

/-! ## Message types -/

def msgSetup : UInt8 := 0x00
def msgSetupSuccess : UInt8 := 0x01
def msgSetupError : UInt8 := 0x02
def msgOpenExtended : UInt8 := 0x13
def msgOpenExtendedSuccess : UInt8 := 0x14
def msgOpenError : UInt8 := 0x12
def msgSetCustom : UInt8 := 0x22
def msgSetCustomSuccess : UInt8 := 0x23
def msgSetCustomError : UInt8 := 0x24
def msgAllocateToken : UInt8 := 0x50
def msgAllocateTokenSuccess : UInt8 := 0x51
def msgProvideMissing : UInt8 := 0x55
def msgProvideMissingSuccess : UInt8 := 0x56
def msgDeclare : UInt8 := 0x57
def msgDeclareSuccess : UInt8 := 0x58
def msgDeclareError : UInt8 := 0x59

def version : UInt16 := 2
def jdFlags : UInt32 := 1
def miningFlags : UInt32 := 4

structure Candidate where
  chain : Text
  height : UInt64
  previousBlockHash : Text
  version : UInt32
  bits : UInt32
  curtime : UInt32
  coinbaseValue : UInt64
  payoutScriptHex : Text
  coinbaseTxVersion : UInt32
  coinbasePrefixHex : Text
  coinbaseSuffixHex : Text
  coinbaseTxHex : Text
  coinbaseOutputsHex : Text
  coinbaseTxInputNSequence : UInt32
  coinbaseTxLocktime : UInt32
  transactionIds : List Text
  transactionData : List Text
  coinbaseMerklePath : List Text
  merkleRootInternalHex : Text
  targetLeHex : Text
  templateCommitmentSha256 : Text

/-- The `direction` of a transcript frame. -/
inductive Direction where
  | minerToCoordinator
  | coordinatorToMiner
  deriving DecidableEq

structure TranscriptFrame where
  direction : Direction
  messageType : UInt8
  payloadHex : Text
  deriving DecidableEq

def record (direction : Direction) (messageType : UInt8) (payload : Bytes) : TranscriptFrame :=
  ⟨direction, messageType, hex payload⟩

/-! ## Writing -/

def putU16 (value : UInt16) : Bytes := leBytes 2 value.toNat

def putU32 (value : UInt32) : Bytes := leBytes 4 value.toNat

def putU24 (value : Nat) : Except String Bytes := do
  require (value ≤ 0x00ffffff) "B016M value exceeds 24-bit length"
  pure (leBytes 3 value)

def putB0255 (value : Bytes) : Except String Bytes := do
  require (value.length < 2 ^ 8) "B0255 value is too long"
  pure (leBytes 1 value.length ++ value)

def putB064k (value : Bytes) : Except String Bytes := do
  require (value.length < 2 ^ 16) "B064K value is too long"
  pure (leBytes 2 value.length ++ value)

def putB016m (value : Bytes) : Except String Bytes := do
  let length ← putU24 value.length
  pure (length ++ value)

/-- A byte-string literal. -/
def literal (s : String) : Bytes := encodeAscii (ascii s)

def setupPayload (protocol : UInt8) (flags : UInt32) (port : UInt16) : Except String Bytes := do
  let host ← putB0255 (literal "127.0.0.1")
  let vendor ← putB0255 (literal "Soveroot")
  let hardware ← putB0255 (literal "labnet")
  let firmware ← putB0255 (literal "interop-v0")
  let device ← putB0255 []
  pure ([protocol] ++ putU16 version ++ putU16 version ++ putU32 flags ++ host ++ putU16 port ++
    vendor ++ hardware ++ firmware ++ device)

def allocatePayload (requestId : UInt32) : Except String Bytes := do
  let identifier ← putB0255 (literal "soveroot-independent-miner")
  pure (identifier ++ putU32 requestId)

def validateCandidate (candidate : Candidate) : Except String Unit := do
  require (candidate.chain = ascii "labnet") "candidate is not for chain=labnet"
  require (candidate.transactionIds.length = candidate.transactionData.length)
    "transaction id/data count mismatch"

def hashFromHex (value : Text) (label : String) : Result Bytes := do
  let bytes ← decodeHex value label
  require (bytes.length = 32) s!"{label} must be 32 bytes"
  pure bytes

def declarePayload (candidate : Candidate) (token : Bytes) (requestId : UInt32) :
    Result Bytes := do
  validateCandidate candidate
  let token ← putB0255 token
  let coinbasePrefix ← putB064k (← decodeHex candidate.coinbasePrefixHex "coinbase prefix")
  let coinbaseSuffix ← putB064k (← decodeHex candidate.coinbaseSuffixHex "coinbase suffix")
  require (candidate.transactionIds.length < 2 ^ 16) "too many transaction identifiers"
  let ids ← candidate.transactionIds.mapM fun txid => do
    return (← hashFromHex txid "transaction id").reverse
  let excess ← putB064k []
  pure (putU32 requestId ++ token ++ putU32 candidate.version ++ coinbasePrefix ++
    coinbaseSuffix ++ putU16 (UInt16.ofNat candidate.transactionIds.length) ++ ids.flatten ++
    excess)

def missingSuccessPayload (candidate : Candidate) (requestId : UInt32) (positions : List UInt16) :
    Result Bytes := do
  require (positions.length < 2 ^ 16) "too many missing positions"
  let transactions ← positions.mapM fun position => do
    let transaction ← orRaise candidate.transactionData[position.toNat]?
      s!"missing transaction position {position} is out of range"
    putB016m (← decodeHex transaction "transaction data")
  pure (putU32 requestId ++ putU16 (UInt16.ofNat positions.length) ++ transactions.flatten)

/-- `open_channel_payload`. The nominal hash rate is the float `0.0`. -/
def openChannelPayload (candidate : Candidate) (requestId : UInt32) : Result Bytes := do
  let identity ← putB0255 (literal "soveroot-independent-miner")
  let target ← hashFromHex candidate.targetLeHex "target"
  pure (putU32 requestId ++ identity ++ leBytes 4 0 ++ target ++ putU16 0)

def setCustomPayload (candidate : Candidate) (token : Bytes) (channelId requestId : UInt32) :
    Result Bytes := do
  validateCandidate candidate
  let token ← putB0255 token
  let previous ← hashFromHex candidate.previousBlockHash "previous block hash"
  let coinbasePrefix ← putB0255 (← decodeHex candidate.coinbasePrefixHex "coinbase prefix")
  let outputs ← putB064k (← decodeHex candidate.coinbaseOutputsHex "coinbase outputs")
  require (candidate.coinbaseMerklePath.length < 2 ^ 8) "merkle path is too long"
  let path ← candidate.coinbaseMerklePath.mapM (hashFromHex · "merkle path hash")
  pure (putU32 channelId ++ putU32 requestId ++ token ++ putU32 candidate.version ++
    previous.reverse ++ putU32 candidate.curtime ++ putU32 candidate.bits ++
    putU32 candidate.coinbaseTxVersion ++ coinbasePrefix ++
    putU32 candidate.coinbaseTxInputNSequence ++ outputs ++ putU32 candidate.coinbaseTxLocktime ++
    [UInt8.ofNat candidate.coinbaseMerklePath.length] ++ path.flatten)

/-! ## Panics -/

/-- The texts the payloads decode. -/
def Candidate.hexTexts (candidate : Candidate) : List Text :=
  [candidate.coinbasePrefixHex, candidate.coinbaseSuffixHex, candidate.targetLeHex,
    candidate.previousBlockHash, candidate.coinbaseOutputsHex] ++
  candidate.transactionIds ++ candidate.transactionData ++ candidate.coinbaseMerklePath

/-- No text of the template makes `decode_hex` panic. -/
def Candidate.Sliceable (candidate : Candidate) : Prop :=
  ∀ value ∈ candidate.hexTexts, ¬ Panics value

instance : DecidablePred Candidate.Sliceable := fun candidate =>
  inferInstanceAs (Decidable (∀ value ∈ candidate.hexTexts, ¬ Panics value))

theorem hashFromHex_raises {value : Text} (h : ¬ Panics value) (label : String) :
    Raises Fault.Returned (hashFromHex value label) :=
  (decodeHex_raises h label).bind fun _ _ => (require_raises _).bind fun _ _ => .ok _

namespace Candidate.Sliceable

variable {candidate : Candidate} (h : candidate.Sliceable)

include h

theorem declarePayload (token : Bytes) (requestId : UInt32) :
    Raises Fault.Returned (declarePayload candidate token requestId) := by
  refine (liftM_raises _).bind fun _ _ => (liftM_raises _).bind fun _ _ => ?_
  refine (decodeHex_raises (h _ (by simp [hexTexts])) _).bind fun _ _ => ?_
  refine (liftM_raises _).bind fun _ _ => ?_
  refine (decodeHex_raises (h _ (by simp [hexTexts])) _).bind fun _ _ => ?_
  refine (liftM_raises _).bind fun _ _ => (require_raises _).bind fun _ _ => ?_
  refine (Raises.mapM fun txid htxid => ?_).bind fun _ _ => ?_
  · exact (hashFromHex_raises (h txid (by simp [hexTexts, htxid])) _).bind fun _ _ => .ok _
  · exact (liftM_raises _).bind fun _ _ => .ok _

theorem missingSuccessPayload (requestId : UInt32) (positions : List UInt16) :
    Raises Fault.Returned (missingSuccessPayload candidate requestId positions) := by
  refine (require_raises _).bind fun _ _ => ?_
  refine (Raises.mapM fun position _ => ?_).bind fun _ _ => .ok _
  refine (Raises.orRaise Fault.noConfusion).bind fun transaction htransaction => ?_
  have hmem := List.mem_of_getElem? (orRaise_eq_ok.1 htransaction)
  exact (decodeHex_raises (h transaction (by simp [hexTexts, hmem])) _).bind fun _ _ =>
    liftM_raises _

theorem openChannelPayload (requestId : UInt32) :
    Raises Fault.Returned (openChannelPayload candidate requestId) :=
  (liftM_raises _).bind fun _ _ =>
    (hashFromHex_raises (h _ (by simp [hexTexts])) _).bind fun _ _ => .ok _

theorem setCustomPayload (token : Bytes) (channelId requestId : UInt32) :
    Raises Fault.Returned (setCustomPayload candidate token channelId requestId) := by
  refine (liftM_raises _).bind fun _ _ => (liftM_raises _).bind fun _ _ => ?_
  refine (hashFromHex_raises (h _ (by simp [hexTexts])) _).bind fun _ _ => ?_
  refine (decodeHex_raises (h _ (by simp [hexTexts])) _).bind fun _ _ => ?_
  refine (liftM_raises _).bind fun _ _ => ?_
  refine (decodeHex_raises (h _ (by simp [hexTexts])) _).bind fun _ _ => ?_
  refine (liftM_raises _).bind fun _ _ => (require_raises _).bind fun _ _ => ?_
  refine (Raises.mapM fun hash hhash => ?_).bind fun _ _ => .ok _
  exact hashFromHex_raises (h hash (by simp [hexTexts, hhash])) _

end Candidate.Sliceable

/-! ## Reading -/

structure Cursor where
  bytes : Bytes
  offset : Nat

/-- A reader moves a cursor. -/
abbrev Reader := StateT Cursor (Except String)

namespace Reader

def take (length : Nat) : Reader Bytes := fun cursor => do
  let offset := cursor.offset
  let remain := cursor.bytes.length - offset
  require (offset + length < 2 ^ 64) "length overflow"
  require (offset + length ≤ cursor.bytes.length)
    s!"malformed length: need {length} bytes at {offset}, only {remain} remain"
  pure ((cursor.bytes.drop offset).take length, { cursor with offset := offset + length })

def u8 : Reader UInt8 := do return UInt8.ofNat (fromBytesLE (← take 1))

def u16 : Reader UInt16 := do return UInt16.ofNat (fromBytesLE (← take 2))

def u32 : Reader UInt32 := do return UInt32.ofNat (fromBytesLE (← take 4))

def b0255 : Reader Bytes := do take (← u8).toNat

def b032 : Reader Bytes := do
  let value ← b0255
  require (value.length ≤ 32) "B032 exceeds 32 bytes"
  pure value

def b064k : Reader Bytes := do take (← u16).toNat

def finish : Reader Unit := fun cursor => do
  let trailing := cursor.bytes.length - cursor.offset
  require (cursor.offset = cursor.bytes.length) s!"malformed length: {trailing} trailing bytes"
  pure ((), cursor)

/-- Read `count` times. -/
def times {α : Type} (reader : Reader α) : Nat → Reader (List α)
  | 0 => pure []
  | count + 1 => do return (← reader) :: (← times reader count)

def parse {α : Type} (reader : Reader α) (payload : Bytes) : Except String α :=
  reader.run' ⟨payload, 0⟩

end Reader

open Reader

def parseSetupSuccess (payload : Bytes) (requiredFlags : UInt32) : Except String Unit :=
  parse (do
    let used ← u16
    let flags ← u32
    finish
    require (used = version ∧ flags &&& requiredFlags = requiredFlags) "setup downgrade") payload

def parseAllocateSuccess (payload : Bytes) (requestId : UInt32) : Except String Bytes :=
  parse (do
    require ((← u32) = requestId) "allocation request mismatch"
    let token ← b0255
    let _ ← b064k
    finish
    require (token ≠ []) "allocation token is empty"
    pure token) payload

def parseMissing (payload : Bytes) (requestId : UInt32) : Except String (List UInt16) :=
  parse (do
    require ((← u32) = requestId) "missing-transaction request mismatch"
    let positions ← times u16 (← u16).toNat
    finish
    pure positions) payload

def parseDeclareSuccess (payload : Bytes) (requestId : UInt32) : Except String Bytes :=
  parse (do
    require ((← u32) = requestId) "declaration request mismatch"
    let token ← b0255
    finish
    require (token ≠ []) "signed job token is empty"
    pure token) payload

/-- `String::from_utf8`. -/
def errorCode (bytes : Bytes) : Except String String := do
  let code ← orRaise (decodeUtf8 bytes) "error code is not UTF-8"
  pure (String.ofList (code.map Char.ofNat))

def parseDeclareError (payload : Bytes) (requestId : UInt32) : Except String String :=
  parse (do
    require ((← u32) = requestId) "declaration error request mismatch"
    let code ← errorCode (← b0255)
    let _ ← b064k
    finish
    pure code) payload

def parseOpenSuccess (payload : Bytes) (requestId : UInt32) : Except String UInt32 :=
  parse (do
    require ((← u32) = requestId) "open-channel request mismatch"
    let channelId ← u32
    let _ ← take 32
    let extranonceSize ← u16
    let extranonce ← b032
    finish
    require (extranonceSize = 0 ∧ extranonce = [])
      "coordinator changed the zero-extranonce profile"
    pure channelId) payload

def parseSetCustomSuccess (payload : Bytes) (channelId requestId : UInt32) :
    Except String UInt32 :=
  parse (do
    -- the request is read only behind the right channel
    require ((← u32) = channelId) "custom-job response mismatch"
    require ((← u32) = requestId) "custom-job response mismatch"
    let jobId ← u32
    finish
    pure jobId) payload

def parseSetCustomError (payload : Bytes) (channelId requestId : UInt32) : Except String String :=
  parse (do
    require ((← u32) = channelId) "custom-job error mismatch"
    require ((← u32) = requestId) "custom-job error mismatch"
    let code ← errorCode (← b0255)
    finish
    pure code) payload

end Soveroot.Sv2
