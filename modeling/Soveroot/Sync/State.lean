import Soveroot.Sharechain.Agreement
import Soveroot.Sync.Envelope

/-!
# The state of a sync node

What `ShareSyncNode` keeps, the file `_save` writes and the checks `_load_state` makes. The file is
modelled as the JSON value it holds. Announcement records and equivocation evidence are held as the
JSON values they are, since the loader does not look inside.
-/

namespace Soveroot.Sync

open Py Check

/-- The configuration of a node, with what `load_config` has checked. -/
structure Config where
  nodeId : Text
  controlKeyHex : Text
  /-- The `trusted_rounds` document. -/
  rounds : Json
  /-- The table it validates to. -/
  roundIndex : RoundTable
  /-- The shared key of every peer, by peer id. -/
  peers : Dict Text Text
  validateRounds_rounds : validateRounds rounds = .ok roundIndex
  isHex_controlKeyHex : IsHex 32 controlKeyHex
  isHex_sharedKeyHex : ∀ e ∈ peers.entries, IsHex 32 e.2
  nodeId_not_mem : nodeId ∉ peers.keys

structure Orphan where
  share : Share
  arrivalTick : Nat
  deriving DecidableEq

structure NodeState where
  tick : Nat
  acceptedShares : List Share
  orphans : List Orphan
  inboundSequences : Dict Text Nat
  outboundSequences : Dict Text Nat
  /-- By peer and by the text of the slot. -/
  announcements : Dict Text (Dict Text Json)
  equivocations : List Json
  rejectionCounts : Dict Text Nat

def emptyState : NodeState :=
  ⟨0, [], [], Dict.empty, Dict.empty, Dict.empty, [], Dict.empty⟩

def documents (l : List Share) : List Json := l.map Share.toJson

/-! ## Both validators -/

section Validation

variable (sha256 : HashFn) (cfg : Config)

def validateGraphPair (shares : List Json) : Except Exn (Option GraphState) :=
  if shares.isEmpty then pure none
  else do
    let referenceState ← evaluateGraph sha256 (.arr shares) cfg.rounds
    let independentState ← Independent.selectState sha256 (.arr shares) cfg.rounds
    require (referenceState = independentState) (Exn.syncError .validatorDisagreement
      "reference and independent sharechain states disagree")
    pure (some referenceState)

/-! ## What a node reports -/

/-- What `_state_view` returns. -/
structure StateView where
  nodeId : Text
  tick : Nat
  acceptedShareCount : Nat
  orphanCount : Nat
  equivocationCount : Nat
  selectedState : Option GraphState
  stateCommitment : Text
  rejectionCounts : Dict Text Nat

/-- The hash of the selected state, or of `None` when nothing has been accepted. -/
def commitmentOf (graphState : Option GraphState) : Text :=
  canonicalHash sha256 ((graphState.map GraphState.toJson).getD .null)

def stateView (st : NodeState) : Except Exn StateView := do
  let graphState ← validateGraphPair sha256 cfg (documents st.acceptedShares)
  pure {
    nodeId := cfg.nodeId
    tick := st.tick
    acceptedShareCount := st.acceptedShares.length
    orphanCount := st.orphans.length
    equivocationCount := st.equivocations.length
    selectedState := graphState
    stateCommitment := commitmentOf sha256 graphState
    rejectionCounts := st.rejectionCounts }

/-- What a node says about its state at a tick. -/
structure Announcement where
  slot : Nat
  stateCommitment : Text
  selectedTip : Text
  deriving DecidableEq

def announcement (st : NodeState) : Except Exn Announcement := do
  let view ← stateView sha256 cfg st
  pure {
    slot := st.tick
    stateCommitment := view.stateCommitment
    selectedTip := (view.selectedState.map GraphState.selectedTipShareId).getD zeroId }

end Validation

/-! ## The file -/

inductive StateField where
  | format
  | nodeId
  | tick
  | acceptedShares
  | orphans
  | inboundSequences
  | outboundSequences
  | announcements
  | equivocations
  | rejectionCounts
  deriving DecidableEq

instance : Json.Keys StateField where
  all := [.format, .nodeId, .tick, .acceptedShares, .orphans, .inboundSequences,
    .outboundSequences, .announcements, .equivocations, .rejectionCounts]
  name
    | .format => ascii "format"
    | .nodeId => ascii "node_id"
    | .tick => ascii "tick"
    | .acceptedShares => ascii "accepted_shares"
    | .orphans => ascii "orphans"
    | .inboundSequences => ascii "inbound_sequences"
    | .outboundSequences => ascii "outbound_sequences"
    | .announcements => ascii "announcements"
    | .equivocations => ascii "equivocations"
    | .rejectionCounts => ascii "rejection_counts"
  mem_all f := by cases f <;> decide
  nodup := by decide +kernel

inductive OrphanField where
  | share
  | arrivalTick
  deriving DecidableEq

instance : Json.Keys OrphanField where
  all := [.share, .arrivalTick]
  name
    | .share => ascii "share"
    | .arrivalTick => ascii "arrival_tick"
  mem_all f := by cases f <;> decide
  nodup := by decide +kernel

def stateFormat : Text := ascii "soveroot-share-sync-state-v0"

def dictJson {α : Type} (write : α → Json) (d : Dict Text α) : Json :=
  .obj (d.entries.map fun e => (e.1, write e.2))

def Orphan.toJson (o : Orphan) : Json := Json.ofRecord (F := OrphanField) fun
  | .share => o.share.toJson
  | .arrivalTick => .int o.arrivalTick

/-- What `_save` writes. -/
def NodeState.toJson (cfg : Config) (st : NodeState) : Json := Json.ofRecord (F := StateField) fun
  | .format => .str stateFormat
  | .nodeId => .str cfg.nodeId
  | .tick => .int st.tick
  | .acceptedShares => .arr (documents st.acceptedShares)
  | .orphans => .arr (st.orphans.map Orphan.toJson)
  | .inboundSequences => dictJson (fun n : Nat => .int n) st.inboundSequences
  | .outboundSequences => dictJson (fun n : Nat => .int n) st.outboundSequences
  | .announcements => dictJson (dictJson id) st.announcements
  | .equivocations => .arr st.equivocations
  | .rejectionCounts => dictJson (fun n : Nat => .int n) st.rejectionCounts

/-! ## Loading -/

/-- `key.isdecimal()`, of an ASCII text. -/
def isDecimal (t : Text) : Bool := !t.isEmpty && t.all fun c => 48 ≤ c && c ≤ 57

/-- Read an integer that is not a Boolean and lies where `p` says. -/
def readNat (p : Int → Bool) (e : Exn) (value : Json) : Except Exn Nat := do
  let n ← orRaise (value.asInt.filter p) e
  pure n.toNat

def readEntry {α : Type} (read : Json → Except Exn α) (e : Text × Json) :
    Except Exn (Text × α) := do
  let v ← read e.2
  pure (e.1, v)

def readDict {α : Type} (read : Json → Except Exn α) (rows : Fields) :
    Except Exn (Dict Text α) := do
  let entries ← rows.mapM (readEntry read)
  pure (Dict.ofList entries)

section Loading

variable (sha256 : HashFn) (cfg : Config)

def loadOrphan (tick : Nat) (value : Json) : Except Exn Orphan := do
  let fields ← orRaise (Json.record? OrphanField value)
    (.syncError .stateOrphans "persisted orphan fields are invalid")
  let share ← validateShare sha256 (fields .share) cfg.roundIndex
  let arrival ← readNat (fun n => 0 ≤ n ∧ n ≤ tick)
    (.syncError .stateOrphans "persisted orphan arrival tick is invalid") (fields .arrivalTick)
  pure ⟨share, arrival⟩

def loadSequences (value : Json) : Except Exn (Dict Text Nat) := do
  let rows ← orRaise (value.asObj.filter fun rows => rows.all fun e =>
      cfg.peers.contains e.1 || decide (e.1 = controlId))
    (.syncError .stateSequences "persisted sequence routes are invalid")
  readDict (readNat (fun n => 0 < n ∧ n < 9223372036854775808)
    (.syncError .stateSequences "persisted sequence values are invalid")) rows

def loadSlots (value : Json) : Except Exn (Dict Text Json) := do
  let rows ← orRaise (value.asObj.filter fun rows => rows.length ≤ maxAnnouncementSlotsPerPeer)
    (.syncError .stateAnnouncements "persisted announcement history exceeds its limit")
  require (rows.all fun e => isDecimal e.1)
    (Exn.syncError .stateAnnouncements "persisted announcement slot is invalid")
  require (rows.all fun e => e.2.canonicalBytes.length ≤ maxMessageBytes * 2)
    (Exn.syncError .stateAnnouncements "persisted announcement record is oversized")
  pure (Dict.ofList rows)

/-- `_load_state`, on the value in the file. -/
def loadState (state : Json) : Except Exn NodeState := do
  let fields ← orRaise (Json.record? StateField state)
    (.syncError .stateFields "persisted state fields are not canonical")
  require ((fields .format).isText stateFormat ∧ (fields .nodeId).isText cfg.nodeId)
    (Exn.syncError .stateProfile "persisted state belongs to another profile or node")
  let tick ← orRaise ((fields .tick).asIntOrBool.filter fun n => 0 ≤ n)
    (.syncError .stateTick "persisted tick is invalid")
  let accepted ← orRaise (fields .acceptedShares).asArr
    (.syncError .stateShares "persisted accepted shares must be a list")
  let _ ← validateGraphPair sha256 cfg accepted
  -- each of them has validated as part of the graph
  let acceptedShares ← accepted.mapM fun v => validateShare sha256 v cfg.roundIndex
  let orphanRows ← orRaise ((fields .orphans).asArr.filter fun l => l.length ≤ maxOrphans)
    (.syncError .stateOrphans "persisted orphan set exceeds the frozen limit")
  let orphans ← orphanRows.mapM (loadOrphan sha256 cfg tick.toNat)
  let records := acceptedShares ++ orphans.map Orphan.share
  require (records.length ≤ maxKnownShares)
    (Exn.syncError .stateShares "persisted known-share set exceeds the frozen limit")
  require (records.map Share.shareId).Nodup
    (Exn.syncError .stateShares "persisted state repeats a share identifier")
  require (records.map Share.workId).Nodup
    (Exn.syncError .stateShares "persisted state repeats a proof identity")
  let inbound ← loadSequences cfg (fields .inboundSequences)
  let outbound ← loadSequences cfg (fields .outboundSequences)
  let peerRows ← orRaise ((fields .announcements).asObj.filter fun rows =>
      rows.all fun e => cfg.peers.contains e.1)
    (.syncError .stateAnnouncements "persisted announcement peers are invalid")
  let announcements ← readDict loadSlots peerRows
  let equivocations ← orRaise
    ((fields .equivocations).asArr.filter fun l => l.length ≤ maxEquivocations)
    (.syncError .stateEquivocations "persisted equivocation evidence exceeds its limit")
  let counts ← orRaise ((fields .rejectionCounts).asObj.filter fun rows => rows.length ≤ 64)
    (.syncError .stateRejections "persisted rejection counters are invalid")
  let rejectionCounts ← readDict (readNat (fun n => 0 ≤ n)
    (.syncError .stateRejections "persisted rejection counters are invalid")) counts
  pure ⟨tick.toNat, acceptedShares, orphans, inbound, outbound, announcements, equivocations,
    rejectionCounts⟩

end Loading

end Soveroot.Sync
