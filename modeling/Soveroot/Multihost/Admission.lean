import Soveroot.Lib.Bucket
import Soveroot.Lib.Check
import Soveroot.Lib.IpAddress
import Soveroot.Lib.Json
import Soveroot.Lib.Stateful

/-!
# Admission control

`AdmissionController` of `contrib/mining_autonomy/sharechain_multihost_v1.py`: the local state that
decides which handshakes and messages a node lets in. They are paid for out of token buckets, the
nonces of admitted handshakes are remembered until they expire, identities can be quarantined, and
the open sessions are counted per identity and per source network. A method that rejects has often
changed the state before, so the methods are computations whose state survives an exception.

Discarding filled buckets is a parameter of the methods (`sweep`); the source's methods are the ones
with `Bucket.discard`.
-/

namespace Soveroot.Multihost

open Py Check Stateful

structure SafetyError where
  reason : String
  detail : String
  deriving DecidableEq

/-! ## Checks -/

def protocol : Text := ascii "soveroot-share-sync-multihost-lab-v1"

def requireHex (value : Json) (size : Nat) (reason label : String) : Except SafetyError Text := do
  let text ← orRaise (value.asText.filter fun t => t.length = size * 2 ∧ t = lower t)
    ⟨reason, s!"{label} must be canonical lowercase {size}-byte hex"⟩
  let _ ← orRaise (fromHex text) ⟨reason, s!"{label} must be hexadecimal"⟩
  pure text

theorem requireHex_eq_ok {value : Json} {size : Nat} {reason label : String} {text : Text}
    (h : requireHex value size reason label = .ok text) : value = .str text := by
  simp only [requireHex, bind_eq_ok, orRaise_eq_ok, Option.filter_eq_some_iff,
    Json.asText_eq_some] at h
  obtain ⟨t, ⟨ht, -⟩, _, -, h⟩ := h
  rw [ht, Except.ok.inj h]

def requireText (value : Json) (reason label : String) (limit : Nat) : Except SafetyError Text :=
  orRaise (value.asText.filter fun t => t ≠ [] ∧ t.length ≤ limit ∧ t.all (· < 128))
    ⟨reason, s!"{label} must be 1-{limit} ASCII characters"⟩

def sourcePrefix (address : Json) : Except SafetyError Text := do
  let text ← orRaise (address.asText.filter fun t => 37 ∉ t)
    ⟨"source_address", "source address must be an unscoped IP literal"⟩
  let parsed ← orRaise (IpAddress.parse text) ⟨"source_address", "source address is invalid"⟩
  pure (parsed.unmapped.networkText 24 48)

/-! ## The controller -/

def helloLifetimeTicks : Int := 16
def maxActiveSessions : Int := 16
def maxSessionsPerIdentity : Int := 2
def maxSessionsPerSourcePrefix : Int := 4
def maxFrameBytes : Int := 131072
def maxReplayNonces : Nat := 256
def maxQuarantines : Nat := 128
def maxAdmissionBuckets : Nat := 512
def quarantineTicks : Int := 32

def handshakeRate : Bucket.Rate := ⟨8, 1, by decide, by decide⟩

def messageRate : Bucket.Rate := ⟨64, 4, by decide, by decide⟩

/-- The fields of `AdmissionController`. -/
structure Controller where
  tick : Int
  handshakeBuckets : Dict Text Bucket
  messageBuckets : Dict Text Bucket
  replayNonces : Dict Text Int
  quarantines : Dict Text Int
  activeIdentity : Dict Text Int
  activePrefix : Dict Text Int
  rejections : Dict Text Int

/-- `AdmissionController()`. -/
def Controller.fresh : Controller :=
  ⟨0, Dict.empty, Dict.empty, Dict.empty, Dict.empty, Dict.empty, Dict.empty, Dict.empty⟩

/-- The two families of buckets. -/
inductive Family where
  | handshake
  | message
  deriving DecidableEq

def Family.rate : Family → Bucket.Rate
  | .handshake => handshakeRate
  | .message => messageRate

def Controller.table (c : Controller) : Family → Dict Text Bucket
  | .handshake => c.handshakeBuckets
  | .message => c.messageBuckets

def Controller.setTable (c : Controller) : Family → Dict Text Bucket → Controller
  | .handshake, table => { c with handshakeBuckets := table }
  | .message, table => { c with messageBuckets := table }

abbrev Method := Stateful Controller SafetyError

/-- What `_advance` does to a family of buckets. -/
abbrev Sweep := Bucket.Rate → Dict Text Bucket → Int → Dict Text Bucket

/-- `d[key] = d.get(key, 0) + 1`. -/
def bump (d : Dict Text Int) (key : Text) : Dict Text Int := d.set key ((d.get? key).getD 0 + 1)

def reject {α : Type} (reason detail : String) : Method α := do
  update fun c => { c with rejections := bump c.rejections (ascii reason) }
  raise ⟨reason, detail⟩

/-- `if condition: self._reject(reason, detail)`. -/
def rejectIf (condition : Prop) [Decidable condition] (reason detail : String) : Method Unit :=
  if condition then reject reason detail else pure ()

/-- The state at a later tick: what has expired is gone. -/
def Controller.advanced (sweep : Sweep) (tick : Int) (c : Controller) : Controller :=
  { c with
    tick := tick
    replayNonces := c.replayNonces.filter fun _ expiry => tick ≤ expiry
    quarantines := c.quarantines.filter fun _ expiry => tick ≤ expiry
    handshakeBuckets := sweep handshakeRate c.handshakeBuckets tick
    messageBuckets := sweep messageRate c.messageBuckets tick }

section

variable (sweep : Sweep)

/-- `_advance`. -/
def advanceWith (tick : Int) : Method Unit := do
  let c ← read
  rejectIf (tick < c.tick) "admission_tick" "admission tick cannot move backward"
  update (Controller.advanced sweep tick)

variable {tick : Int} {c : Controller}

theorem advanceWith_of_lt (h : tick < c.tick) : advanceWith sweep tick c =
      (.error ⟨"admission_tick", "admission tick cannot move backward"⟩,
        { c with rejections := bump c.rejections (ascii "admission_tick") }) := by
  simp only [advanceWith, bind_apply, Stateful.read, Stateful.next, rejectIf, if_pos h]
  rfl

theorem advanceWith_of_le (h : c.tick ≤ tick) :
    advanceWith sweep tick c = (.ok (), c.advanced sweep tick) := by
  simp only [advanceWith, bind_apply, Stateful.read, Stateful.next, rejectIf, if_neg (not_lt.2 h)]
  rfl

def consume (family : Family) (key : Text) (tick cost : Int) : Method (Option Bool) := fun c =>
  let result := Bucket.consume family.rate maxAdmissionBuckets (c.table family) key tick cost
  (.ok result.1, c.setTable family result.2)

/-- `f"identity:{peer_id}"`. -/
def identityKey (peerId : Text) : Text := ascii "identity:" ++ peerId

def networkKey (network : Text) : Text := ascii "prefix:" ++ network

def Controller.admitted (peerId network nonce : Text) (tick : Int) (c : Controller) : Controller :=
  { c with
    replayNonces := c.replayNonces.set nonce (tick + helloLifetimeTicks)
    activeIdentity := bump c.activeIdentity peerId
    activePrefix := bump c.activePrefix network }

/-- The checks of `admit_handshake` against quarantines and nonces. -/
def screen (peerId nonce : Text) (tick : Int) : Method Unit := do
  let c ← read
  rejectIf (tick ≤ (c.quarantines.get? peerId).getD (-1)) "quarantined_identity"
    "identity is locally quarantined"
  rejectIf (c.replayNonces.contains nonce) "replayed_handshake"
    "handshake nonce was already admitted"
  rejectIf (maxReplayNonces ≤ c.replayNonces.size) "replay_state_limit"
    "replay state reached its frozen limit"

/-- What the callers of `_consume` do with its result. -/
def settle (full reason detail : String) (result : Option Bool) : Method Unit := do
  rejectIf (result = none) "admission_bucket_limit" full
  rejectIf (result = some false) reason detail

/-- A call of `_consume`: a full table and an empty bucket are rejected. -/
def pay (family : Family) (key : Text) (tick cost : Int) (full reason detail : String) :
    Method Unit := do
  settle full reason detail (← consume family key tick cost)

/-- The checks of `admit_handshake` against the open sessions. -/
def screenSessions (peerId network : Text) : Method Unit := do
  let c ← read
  rejectIf (maxActiveSessions ≤ c.activeIdentity.sum) "active_session_limit"
    "active-session limit is full"
  rejectIf (maxSessionsPerIdentity ≤ (c.activeIdentity.get? peerId).getD 0)
    "identity_session_limit" "identity session limit is full"
  rejectIf (maxSessionsPerSourcePrefix ≤ (c.activePrefix.get? network).getD 0)
    "prefix_session_limit" "source-prefix session limit is full"

/-- `admit_handshake`. -/
def admitHandshakeWith (peerId sourceIp : Text) (nonceHex : Json) (tick : Int) : Method Text := do
  advanceWith sweep tick
  let _ ← check (requireText (.str peerId) "admission_identity" "peer id" 32)
  let nonce ← check (requireHex nonceHex 32 "hello_nonce" "hello nonce")
  let network ← check (sourcePrefix (.str sourceIp))
  screen peerId nonce tick
  pay .handshake (identityKey peerId) tick 1 "handshake bucket state reached its frozen limit"
    "identity_handshake_rate" "identity handshake bucket is empty"
  pay .handshake (networkKey network) tick 1 "handshake bucket state reached its frozen limit"
    "prefix_handshake_rate" "source-prefix handshake bucket is empty"
  screenSessions peerId network
  update (Controller.admitted peerId network nonce tick)
  pure network

/-- One session less. -/
def release (d : Dict Text Int) (key : Text) : Dict Text Int :=
  let count := (d.get? key).getD 0
  if 0 < count then if count - 1 = 0 then d.erase key else d.set key (count - 1) else d

def closeSession (peerId sourceIp : Text) : Method Unit := do
  let network ← check (sourcePrefix (.str sourceIp))
  update fun c => { c with
    activeIdentity := release c.activeIdentity peerId
    activePrefix := release c.activePrefix network }

/-- `admit_message`. -/
def admitMessageWith (peerId : Text) (frameBytes tick : Int) : Method Int := do
  advanceWith sweep tick
  rejectIf (frameBytes < 1 ∨ maxFrameBytes < frameBytes) "frame_size"
    "frame length is outside the frozen bound"
  let cost := 1 + (frameBytes - 1) / 4096
  pay .message peerId tick cost "message bucket state reached its frozen limit" "message_rate"
    "identity message bucket is empty"
  pure cost

/-- `quarantine`. -/
def quarantineWith (peerId : Text) (tick : Int) : Method Unit := do
  advanceWith sweep tick
  let c ← read
  rejectIf (c.quarantines.contains peerId = false ∧ maxQuarantines ≤ c.quarantines.size)
    "quarantine_limit" "quarantine state reached its frozen limit"
  update fun c => { c with quarantines := c.quarantines.set peerId (tick + quarantineTicks) }

end

/-- `admit_handshake`, as the source has it. -/
def admitHandshake : Text → Text → Json → Int → Method Text := admitHandshakeWith Bucket.discard

/-- `admit_message`, as the source has it. -/
def admitMessage : Text → Int → Int → Method Int := admitMessageWith Bucket.discard

/-- `quarantine`, as the source has it. -/
def quarantine : Text → Int → Method Unit := quarantineWith Bucket.discard

/-! ## Runs -/

inductive Op where
  | handshake (peerId sourceIp : Text) (nonceHex : Json) (tick : Int)
  | close (peerId sourceIp : Text)
  | message (peerId : Text) (frameBytes tick : Int)
  | quarantine (peerId : Text) (tick : Int)

/-- What a method returns. -/
inductive Grant where
  | network (text : Text)
  | cost (tokens : Int)
  | done
  deriving DecidableEq

def performWith (sweep : Sweep) : Op → Method Grant
  | .handshake peerId sourceIp nonceHex tick => do
      return .network (← admitHandshakeWith sweep peerId sourceIp nonceHex tick)
  | .close peerId sourceIp => do
      closeSession peerId sourceIp
      return .done
  | .message peerId frameBytes tick => do
      return .cost (← admitMessageWith sweep peerId frameBytes tick)
  | .quarantine peerId tick => do
      quarantineWith sweep peerId tick
      return .done

def traceWith (sweep : Sweep) : List Op → Controller → List (Op × Except SafetyError Grant)
  | [], _ => []
  | op :: ops, c =>
    (op, (performWith sweep op c).1) :: traceWith sweep ops (performWith sweep op c).2

def perform : Op → Method Grant := performWith Bucket.discard

def trace : List Op → Controller → List (Op × Except SafetyError Grant) := traceWith Bucket.discard

/-! ## Snapshots -/

inductive SnapshotField where
  | format
  | tick
  | handshakeBuckets
  | messageBuckets
  | replayNonces
  | quarantines
  | activeIdentity
  | activePrefix
  | rejections
  deriving DecidableEq

instance : Json.Keys SnapshotField where
  all := [.format, .tick, .handshakeBuckets, .messageBuckets, .replayNonces, .quarantines,
    .activeIdentity, .activePrefix, .rejections]
  name
    | .format => ascii "format"
    | .tick => ascii "tick"
    | .handshakeBuckets => ascii "handshake_buckets"
    | .messageBuckets => ascii "message_buckets"
    | .replayNonces => ascii "replay_nonces"
    | .quarantines => ascii "quarantines"
    | .activeIdentity => ascii "active_identity"
    | .activePrefix => ascii "active_prefix"
    | .rejections => ascii "rejections"
  mem_all f := by cases f <;> decide
  nodup := by decide +kernel

inductive BucketField where
  | tokens
  | tick
  deriving DecidableEq

instance : Json.Keys BucketField where
  all := [.tokens, .tick]
  name
    | .tokens => ascii "tokens"
    | .tick => ascii "tick"
  mem_all f := by cases f <;> decide
  nodup := by decide +kernel

/-- `{key: write(value) for key, value in sorted(d.items())}`. -/
def sortedJson {α : Type} (write : α → Json) (d : Dict Text α) : Json :=
  .obj ((d.entries.insertionSort fun a b => a.1 ≤ b.1).map fun e => (e.1, write e.2))

def bucketJson (b : Bucket) : Json :=
  Json.ofRecord (F := BucketField) fun
    | .tokens => .int b.tokens
    | .tick => .int b.tick

def Controller.snapshot (c : Controller) : Json :=
  Json.ofRecord (F := SnapshotField) fun
    | .format => .str protocol
    | .tick => .int c.tick
    | .handshakeBuckets => sortedJson bucketJson c.handshakeBuckets
    | .messageBuckets => sortedJson bucketJson c.messageBuckets
    | .replayNonces => sortedJson .int c.replayNonces
    | .quarantines => sortedJson .int c.quarantines
    | .activeIdentity => sortedJson .int c.activeIdentity
    | .activePrefix => sortedJson .int c.activePrefix
    | .rejections => sortedJson .int c.rejections

def stateError (detail : String) : SafetyError := ⟨"admission_state", detail⟩

/-- A row of a bucket family. -/
def restoreBucket (capacity now : Int) (row : Json) : Except SafetyError Bucket := do
  let row ← orRaise (Json.record? BucketField row) (stateError "bucket row is invalid")
  let tokens ← orRaise ((row .tokens).asIntOrBool.filter fun n => 0 ≤ n ∧ n ≤ capacity)
    (stateError "bucket values are invalid")
  let tick ← orRaise ((row .tick).asIntOrBool.filter fun n => 0 ≤ n ∧ n ≤ now)
    (stateError "bucket values are invalid")
  pure ⟨tokens, tick⟩

/-- A bucket family of `_restore`. -/
def restoreBuckets (capacity now : Int) (value : Json) : Except SafetyError (Dict Text Bucket) := do
  let rows ← orRaise (value.asObj.filter fun rows => rows.length ≤ maxAdmissionBuckets)
    (stateError "bucket snapshot is invalid")
  let entries ← rows.mapM fun e => do return (e.1, ← restoreBucket capacity now e.2)
  pure (Dict.ofList entries)

/-- A table of integers of `_restore`. -/
def restoreCounts (name : String) (limit : Nat) (value : Json) :
    Except SafetyError (Dict Text Int) := do
  let rows ← orRaise (value.asObj.filter fun rows => rows.length ≤ limit)
    (stateError s!"{name} snapshot is invalid")
  let entries ← rows.mapM fun e => do
    return (e.1, ← orRaise (e.2.asIntOrBool.filter fun n => 0 ≤ n)
      (stateError s!"{name} snapshot is invalid"))
  pure (Dict.ofList entries)

/-- `_restore`, and so `AdmissionController(snapshot)`. -/
def restore (snapshot : Json) : Except SafetyError Controller := do
  let fields ← orRaise ((Json.record? SnapshotField snapshot).filter fun r =>
    (r .format).isText protocol) (stateError "admission snapshot fields are invalid")
  let tick ← orRaise ((fields .tick).asIntOrBool.filter fun n => 0 ≤ n)
    (stateError "admission snapshot tick is invalid")
  let handshakeBuckets ←
    restoreBuckets handshakeRate.capacity tick (fields .handshakeBuckets)
  let messageBuckets ← restoreBuckets messageRate.capacity tick (fields .messageBuckets)
  let replayNonces ← restoreCounts "replay_nonces" maxReplayNonces (fields .replayNonces)
  let quarantines ← restoreCounts "quarantines" maxQuarantines (fields .quarantines)
  let activeIdentity ← restoreCounts "active_identity" 16 (fields .activeIdentity)
  let activePrefix ← restoreCounts "active_prefix" 16 (fields .activePrefix)
  let rejections ← restoreCounts "rejections" 64 (fields .rejections)
  require (activeIdentity.sum ≤ maxActiveSessions ∧ activePrefix.sum ≤ maxActiveSessions)
    (stateError "active-session snapshot exceeds its global limit")
  require (activeIdentity.entries.all fun e => e.2 ≤ maxSessionsPerIdentity)
    (stateError "identity session snapshot exceeds its limit")
  require (activePrefix.entries.all fun e => e.2 ≤ maxSessionsPerSourcePrefix)
    (stateError "source-prefix session snapshot exceeds its limit")
  pure ⟨tick, handshakeBuckets, messageBuckets, replayNonces, quarantines, activeIdentity,
    activePrefix, rejections⟩

end Soveroot.Multihost
