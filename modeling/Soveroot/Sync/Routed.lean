import Soveroot.Sync.Observe

/-!
# The routed node

`RoutedShareSyncNode` of `contrib/mining_autonomy/sharechain_routed_v1.py` signs its announcements
with an identity key and verifies those of its peers. `routed` is its dialect; the functions on
announcements are those of `sharechain_multihost_v1.py`. The signature scheme is a parameter, as the
hash function is. The node sees an envelope it signs with the shared key, which is the one modelled
here.
-/

namespace Soveroot.Sync

open Py Check

/-- `identity_public_key`, `identity_sign` and `identity_verify`. -/
structure Identity where
  publicKey : Text → Except Exn Text
  sign : Text → Bytes → Except Exn Text
  verify : Text → Bytes → Json → Bool

def multihostProtocol : Text := ascii "soveroot-share-sync-multihost-lab-v1"

def identityAlgorithm : Text := ascii "ed25519-rfc8032-sha512-lab-reference"

/-- `b"soveroot/share-sync/multihost/announcement/v1\x00"`. -/
def announcementDomain : Bytes :=
  encodeAscii (ascii "soveroot/share-sync/multihost/announcement/v1") ++ [0]

inductive SignedField where
  | format
  | messageType
  | peerId
  | identityAlgorithm
  | identityPublicKeyHex
  | slot
  | selectedTipShareId
  | stateCommitmentSha256
  | signatureHex
  deriving DecidableEq

instance : Json.Keys SignedField where
  all := [.format, .messageType, .peerId, .identityAlgorithm, .identityPublicKeyHex, .slot,
    .selectedTipShareId, .stateCommitmentSha256, .signatureHex]
  name
    | .format => ascii "format"
    | .messageType => ascii "message_type"
    | .peerId => ascii "peer_id"
    | .identityAlgorithm => ascii "identity_algorithm"
    | .identityPublicKeyHex => ascii "identity_public_key_hex"
    | .slot => ascii "slot"
    | .selectedTipShareId => ascii "selected_tip_share_id"
    | .stateCommitmentSha256 => ascii "state_commitment_sha256"
    | .signatureHex => ascii "signature_hex"
  mem_all f := by cases f <;> decide
  nodup := by decide +kernel

def signedBody (fields : SignedField → Json) : Bytes :=
  announcementDomain ++ (Json.obj (((Json.Keys.all : List SignedField).filter
    (· ≠ .signatureHex)).map fun f => (Json.Keys.name f, fields f))).canonicalBytes

def safetyHex (value : Json) (size : Nat) (reason : SafetyReason) (label : String) :
    Except Exn Text :=
  hexText (.safetyError reason) value size label

section

variable (I : Identity)

def signedFields (publicKey peerId : Text) (slot : Nat) (tip commitment signature : Text) :
    SignedField → Json
  | .format => .str multihostProtocol
  | .messageType => .str (ascii "signed_announcement")
  | .peerId => .str peerId
  | .identityAlgorithm => .str identityAlgorithm
  | .identityPublicKeyHex => .str publicKey
  | .slot => .int slot
  | .selectedTipShareId => .str tip
  | .stateCommitmentSha256 => .str commitment
  | .signatureHex => .str signature

def signedAnnouncement (identitySeedHex peerId : Text) (a : Announcement) : Except Exn Json := do
  let tip ← safetyHex (.str a.selectedTip) 32 .announcementCommitment "selected tip"
  let commitment ← safetyHex (.str a.stateCommitment) 32 .announcementCommitment
    "state commitment"
  let publicKey ← I.publicKey identitySeedHex
  let signature ← I.sign identitySeedHex
    (signedBody (signedFields publicKey peerId a.slot tip commitment []))
  pure (Json.ofRecord (signedFields publicKey peerId a.slot tip commitment signature))

def verifyAnnouncement (value : Json) (expectedPublicKeyHex expectedPeerId : Text) :
    Except Exn (SignedField → Json) := do
  let fields ← orRaise (Json.record? SignedField value)
    (.safetyError .announcementFields "signed announcement fields are not canonical")
  require ((fields .format).isText multihostProtocol ∧
      (fields .messageType).isText (ascii "signed_announcement"))
    (Exn.safetyError .announcementProfile "announcement uses the wrong profile")
  require ((fields .identityAlgorithm).isText identityAlgorithm ∧
      (fields .identityPublicKeyHex).isText expectedPublicKeyHex)
    (Exn.safetyError .wrongIdentity "announcement identity is not pinned")
  require ((fields .peerId).isText expectedPeerId)
    (Exn.safetyError .wrongIdentity "announcement peer id is not pinned")
  let _ ← safetyHex (fields .selectedTipShareId) 32 .announcementCommitment "selected tip"
  let _ ← safetyHex (fields .stateCommitmentSha256) 32 .announcementCommitment "state commitment"
  let _ ← orRaise ((fields .slot).asInt.filter fun n => 0 ≤ n)
    (.safetyError .announcementSlot "announcement slot is invalid")
  require (I.verify expectedPublicKeyHex (signedBody fields) (fields .signatureHex) = true)
    (Exn.safetyError .identitySignature "announcement signature is invalid")
  pure fields

/-- Equality of the dictionaries of two signed announcements: the members are texts and one
`int`. -/
def sameSigned (first : Json) (fields : SignedField → Json) : Bool :=
  match Json.record? SignedField first with
  | none => false
  | some other => (Json.Keys.all : List SignedField).all fun f =>
    decide ((other f).asText = (fields f).asText) &&
      decide ((other f).asIntOrBool = (fields f).asIntOrBool)

variable (sha256 : HashFn)

def equivocationEvidence (first second : Json) (publicKeyHex expectedPeerId : Text) :
    Except Exn Evidence := do
  let one ← verifyAnnouncement I first publicKeyHex expectedPeerId
  let two ← verifyAnnouncement I second publicKeyHex expectedPeerId
  require ((one .peerId).asText = (two .peerId).asText ∧ (one .slot).asInt = (two .slot).asInt)
    (Exn.safetyError .notEquivocation "announcements do not share an identity and slot")
  require (¬ ((one .selectedTipShareId).asText = (two .selectedTipShareId).asText ∧
      (one .stateCommitmentSha256).asText = (two .stateCommitmentSha256).asText))
    (Exn.safetyError .notEquivocation "announcements do not conflict")
  let evidence := [(ascii "format", .str multihostProtocol),
    (ascii "type", .str (ascii "portable_equivocation_evidence")), (ascii "first", first),
    (ascii "second", second)]
  let commitment := canonicalHash sha256 (.obj evidence)
  pure ⟨.obj (evidence ++ [(ascii "evidence_commitment_sha256", .str commitment)]), commitment⟩

/-- `first != checked`, and then the evidence. -/
def signedConflict (sender publicKey : Text) (value : Json) (fields : SignedField → Json)
    (previous : Json) : Except Exn (Option Evidence) := do
  let first ← subscript previous (ascii "signed_announcement")
  if sameSigned first fields then pure none
  else do
    let evidence ← equivocationEvidence I sha256 first value publicKey sender
    pure (some evidence)

/-- `RoutedShareSyncNode._observe_announcement`. -/
def observeSigned (publicKeys : Dict Text Text) (st : NodeState) (envelope : Envelope) :
    Except Exn NodeState :=
  match Json.member envelope.payload (ascii "announcement") with
  | none => pure st
  | some .null => pure st
  | some value => do
      let publicKey ← orRaise (publicKeys.get? envelope.sender)
        (.routedUnknownPeer "peer is absent from the pinned table")
      let fields ← verifyAnnouncement I value publicKey envelope.sender
      rememberAnnouncement st envelope.sender (slotText (fields .slot))
        ((fields .slot).asInt.getD 0) (.obj [(ascii "signed_announcement", value)])
        (signedConflict I sha256 envelope.sender publicKey value fields)

end

/-! ## Its dialect -/

variable {I : Identity} {sha256 : HashFn}

theorem observeSigned_observed {publicKeys : Dict Text Text} {st st' : NodeState} {e : Envelope}
    (h : observeSigned I sha256 publicKeys st e = .ok st') :
    st' = st ∨ ∃ value publicKey fields,
      Json.member e.payload (ascii "announcement") = some value ∧
      publicKeys.get? e.sender = some publicKey ∧
      verifyAnnouncement I value publicKey e.sender = .ok fields ∧
      Remembered st e.sender (slotText (fields .slot))
        (.obj [(ascii "signed_announcement", value)])
        (signedConflict I sha256 e.sender publicKey value fields) st' := by
  rw [observeSigned] at h
  split at h
  · exact Or.inl (Except.ok.inj h).symm
  · exact Or.inl (Except.ok.inj h).symm
  · next value _ hvalue =>
      simp only [bind_eq_ok, orRaise_eq_ok] at h
      obtain ⟨publicKey, hkey, fields, hfields, h⟩ := h
      exact Or.inr ⟨value, publicKey, fields, hvalue, hkey, hfields,
        rememberAnnouncement_remembered h⟩

/-- The dialect of `RoutedShareSyncNode`. -/
def routed (I : Identity) (sha256 : HashFn) (nodeId identitySeedHex : Text)
    (publicKeys : Dict Text Text) (status : Fields)
    (addFloat : Json → Json → Except Exn Json) : Dialect where
  write := signedAnnouncement I identitySeedHex nodeId
  observe := observeSigned I sha256 publicKeys
  unknownPeer := .routedUnknownPeer "peer is absent from the pinned table"
  status := status
  addFloat := addFloat
  observe_frame st e st' h := by
    rcases observeSigned_observed h with rfl | ⟨_, _, _, -, -, -, hremembered⟩
    · exact ⟨rfl, rfl, rfl, rfl, rfl, rfl⟩
    · exact hremembered.frame

end Soveroot.Sync
