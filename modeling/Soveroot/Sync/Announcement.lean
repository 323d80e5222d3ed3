import Soveroot.Sync.State

/-!
# Announcements

With every message a node sends goes an announcement: its tick, and the commitment and tip of the
state it has selected. A node remembers the announcements of each peer by slot, and a second one
that differs is evidence of equivocation. `rememberAnnouncement` is the end of both
`_observe_announcement` methods.
-/

namespace Soveroot.Sync

open Py Check

inductive AnnouncementField where
  | slot
  | stateCommitmentSha256
  | selectedTipShareId
  deriving DecidableEq

instance : Json.Keys AnnouncementField where
  all := [.slot, .stateCommitmentSha256, .selectedTipShareId]
  name
    | .slot => ascii "slot"
    | .stateCommitmentSha256 => ascii "state_commitment_sha256"
    | .selectedTipShareId => ascii "selected_tip_share_id"
  mem_all f := by cases f <;> decide
  nodup := by decide +kernel

def Announcement.toJson (a : Announcement) : Json := Json.ofRecord (F := AnnouncementField) fun
  | .slot => .int a.slot
  | .stateCommitmentSha256 => .str a.stateCommitment
  | .selectedTipShareId => .str a.selectedTip

/-- `value[key]`. -/
def subscript (value : Json) (key : Text) : Except Exn Json :=
  match value with
  | .obj fields => orRaise (Json.member fields key) .keyError
  | _ => throw .typeError

/-- `str(slot)`, of an `int`. -/
def slotText : Json → Text
  | .bool true => ascii "True"
  | .bool false => ascii "False"
  | .int n => decimal n
  | _ => []

/-- `int(key)`. -/
def slotNumber (key : Text) : Except Exn Nat :=
  if isDecimal key then pure (key.foldl (fun n c => 10 * n + (c - 48)) 0) else throw .valueError

/-- `min(slots, key=lambda item: int(item))`, with the number of the slot. -/
def oldestSlot (slots : Dict Text Json) : Except Exn (Text × Nat) := do
  let numbered ← slots.keys.mapM fun key => do
    let n ← slotNumber key
    pure (key, n)
  match numbered with
  | [] => throw .valueError
  | first :: rest =>
    pure (rest.foldl (fun best item => if item.2 < best.2 then item else best) first)

/-- A value as a member of a set. -/
def hashable (value : Json) : Except Exn Json :=
  match value with
  | .arr _ => throw .typeError
  | .obj _ => throw .typeError
  | _ => pure value

/-- `item["evidence_commitment_sha256"]`, as a member of a set. -/
def evidenceCommitment (item : Json) : Except Exn Json := do
  let value ← subscript item (ascii "evidence_commitment_sha256")
  hashable value

structure Evidence where
  json : Json
  commitment : Text

def NodeState.slotsOf (st : NodeState) (sender : Text) : Dict Text Json :=
  (st.announcements.get? sender).getD Dict.empty

/-- An announcement for a slot that is new. When the peer's slots are full, the oldest makes
room. -/
def rememberNew (st : NodeState) (sender key : Text) (slot : Int) (record : Json) :
    Except Exn NodeState :=
  let slots := st.slotsOf sender
  let remember (slots : Dict Text Json) : NodeState :=
    { st with announcements := st.announcements.set sender (slots.set key record) }
  if slots.size < maxAnnouncementSlotsPerPeer then pure (remember slots)
  else do
    let (oldest, number) ← oldestSlot slots
    if slot ≤ number then pure st else pure (remember (slots.erase oldest))

def keepEvidence (st : NodeState) (evidence : Evidence) : Except Exn NodeState := do
  require (st.equivocations.length < maxEquivocations)
    (Exn.syncError .equivocationLimit "equivocation evidence limit is full")
  let known ← st.equivocations.mapM evidenceCommitment
  if known.any fun value => value.isText evidence.commitment then pure st
  else pure { st with equivocations := st.equivocations ++ [evidence.json] }

/-- What both `_observe_announcement` methods do with an announcement they have checked.
`conflict` compares it with an earlier one for the slot. -/
def rememberAnnouncement (st : NodeState) (sender key : Text) (slot : Int) (record : Json)
    (conflict : Json → Except Exn (Option Evidence)) : Except Exn NodeState :=
  match (st.slotsOf sender).get? key with
  | none => rememberNew st sender key slot record
  | some .null => rememberNew st sender key slot record
  | some previous => do
      match ← conflict previous with
      | none => pure st
      | some evidence => keepEvidence st evidence

/-- Equality of the dictionaries of two announcements: the slots are `int`s, the other members
texts. -/
def sameAnnouncement (first : Json) (fields : AnnouncementField → Json) : Bool :=
  match Json.record? AnnouncementField first with
  | none => false
  | some other =>
    decide ((other .slot).asIntOrBool = (fields .slot).asIntOrBool) &&
      decide ((other .stateCommitmentSha256).asText = (fields .stateCommitmentSha256).asText) &&
      decide ((other .selectedTipShareId).asText = (fields .selectedTipShareId).asText)

section

variable (sha256 : HashFn)

/-- `previous["announcement"] != announcement`, and then the evidence. -/
def announcementConflict (sender : Text) (fields : AnnouncementField → Json) (record : Json)
    (previous : Json) : Except Exn (Option Evidence) := do
  let first ← subscript previous (ascii "announcement")
  if sameAnnouncement first fields then pure none
  else
    let evidence := [(ascii "sender_id", .str sender), (ascii "slot", fields .slot),
      (ascii "first", previous), (ascii "second", record)]
    let commitment := canonicalHash sha256 (.obj evidence)
    pure (some ⟨.obj (evidence ++ [(ascii "evidence_commitment_sha256", .str commitment)]),
      commitment⟩)

def announcementRecord (fields : AnnouncementField → Json) (envelope : Envelope) : Json :=
  .obj [(ascii "announcement", Json.ofRecord fields),
    (ascii "authenticated_envelope", envelope.toJson)]

def observeAnnouncement (st : NodeState) (envelope : Envelope) : Except Exn NodeState :=
  match Json.member envelope.payload (ascii "announcement") with
  | none => pure st
  | some .null => pure st
  | some announcement => do
      let fields ← orRaise (Json.record? AnnouncementField announcement)
        (.syncError .announcementFields "announcement fields are not canonical")
      let slot ← orRaise ((fields .slot).asIntOrBool.filter fun n => 0 ≤ n)
        (.syncError .announcementSlot "announcement slot is invalid")
      let _ ← requireHex (fields .stateCommitmentSha256) 32 .announcementCommitment
        "state commitment"
      let _ ← requireHex (fields .selectedTipShareId) 32 .announcementCommitment "selected tip"
      let record := announcementRecord fields envelope
      rememberAnnouncement st envelope.sender (slotText (fields .slot)) slot record
        (announcementConflict sha256 envelope.sender fields record)

end

end Soveroot.Sync
