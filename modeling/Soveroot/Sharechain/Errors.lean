import Soveroot.Lib.Hex

/-!
# Exceptions

The exceptions of the sharechain programs. `ProfileError`, `Reject` and `SyncError` carry the reason
code with which a program refuses an input. The remaining constructors are exceptions no program
means to raise, and `Exn.diverges` stands for a loop that does not end; a validator *leaks* when it
ends in one of those.
-/

namespace Soveroot

open Py

inductive Reason where
  | invalidNetworkBits
  | invalidRoundTable
  | shareFields
  | shareProfile
  | shareSequence
  | untrustedRoundContext
  | shareIdentifier
  | headerHash
  | workIdentity
  | shareTargetMismatch
  | networkBitsMismatch
  | payoutScript
  | blockCandidate
  | malformedHeader
  | proofAboveShareTarget
  | emptyGraph
  | duplicateShareId
  | workReassigned
  | duplicateWorkIdentity
  | invalidRoot
  | unknownParent
  | parentSequence
  | roundTransition
  deriving DecidableEq

/-- The code as the programs write it. -/
def Reason.text : Reason → Text
  | invalidNetworkBits => ascii "invalid_network_bits"
  | invalidRoundTable => ascii "invalid_round_table"
  | shareFields => ascii "share_fields"
  | shareProfile => ascii "share_profile"
  | shareSequence => ascii "share_sequence"
  | untrustedRoundContext => ascii "untrusted_round_context"
  | shareIdentifier => ascii "share_identifier"
  | headerHash => ascii "header_hash"
  | workIdentity => ascii "work_identity"
  | shareTargetMismatch => ascii "share_target_mismatch"
  | networkBitsMismatch => ascii "network_bits_mismatch"
  | payoutScript => ascii "payout_script"
  | blockCandidate => ascii "block_candidate"
  | malformedHeader => ascii "malformed_header"
  | proofAboveShareTarget => ascii "proof_above_share_target"
  | emptyGraph => ascii "empty_graph"
  | duplicateShareId => ascii "duplicate_share_id"
  | workReassigned => ascii "work_reassigned"
  | duplicateWorkIdentity => ascii "duplicate_work_identity"
  | invalidRoot => ascii "invalid_root"
  | unknownParent => ascii "unknown_parent"
  | parentSequence => ascii "parent_sequence"
  | roundTransition => ascii "round_transition"

inductive SyncReason where
  | authKey
  | messageSequence
  | messageFields
  | messageProfile
  | messageRoute
  | messagePayload
  | messageAuthentication
  | messageTooLarge
  | messageReplay
  | invalidResponse
  | stateFields
  | stateProfile
  | stateTick
  | stateShares
  | stateOrphans
  | stateSequences
  | stateAnnouncements
  | stateEquivocations
  | stateRejections
  | validatorDisagreement
  | shareCollision
  | duplicateWorkIdentity
  | knownShareLimit
  | orphanLimit
  | shareBatchLimit
  | unknownPeer
  | announcementFields
  | announcementSlot
  | announcementCommitment
  | equivocationLimit
  | tickCount
  | controlOperation
  | peerOperation
  | inventoryCursor
  | inventoryLimit
  | inventoryIdentifier
  | inventoryPageLimit
  | pullLimit
  | pullIdentifiers
  | syncOperationLimit
  | syncNotConverged
  deriving DecidableEq

/-- The code as the node writes it. -/
def SyncReason.text : SyncReason → Text
  | authKey => ascii "auth_key"
  | messageSequence => ascii "message_sequence"
  | messageFields => ascii "message_fields"
  | messageProfile => ascii "message_profile"
  | messageRoute => ascii "message_route"
  | messagePayload => ascii "message_payload"
  | messageAuthentication => ascii "message_authentication"
  | messageTooLarge => ascii "message_too_large"
  | messageReplay => ascii "message_replay"
  | invalidResponse => ascii "invalid_response"
  | stateFields => ascii "state_fields"
  | stateProfile => ascii "state_profile"
  | stateTick => ascii "state_tick"
  | stateShares => ascii "state_shares"
  | stateOrphans => ascii "state_orphans"
  | stateSequences => ascii "state_sequences"
  | stateAnnouncements => ascii "state_announcements"
  | stateEquivocations => ascii "state_equivocations"
  | stateRejections => ascii "state_rejections"
  | validatorDisagreement => ascii "validator_disagreement"
  | shareCollision => ascii "share_collision"
  | duplicateWorkIdentity => ascii "duplicate_work_identity"
  | knownShareLimit => ascii "known_share_limit"
  | orphanLimit => ascii "orphan_limit"
  | shareBatchLimit => ascii "share_batch_limit"
  | unknownPeer => ascii "unknown_peer"
  | announcementFields => ascii "announcement_fields"
  | announcementSlot => ascii "announcement_slot"
  | announcementCommitment => ascii "announcement_commitment"
  | equivocationLimit => ascii "equivocation_limit"
  | tickCount => ascii "tick_count"
  | controlOperation => ascii "control_operation"
  | peerOperation => ascii "peer_operation"
  | inventoryCursor => ascii "inventory_cursor"
  | inventoryLimit => ascii "inventory_limit"
  | inventoryIdentifier => ascii "inventory_identifier"
  | inventoryPageLimit => ascii "inventory_page_limit"
  | pullLimit => ascii "pull_limit"
  | pullIdentifiers => ascii "pull_identifiers"
  | syncOperationLimit => ascii "sync_operation_limit"
  | syncNotConverged => ascii "sync_not_converged"

/-- The reason codes of `sharechain_multihost_v1.py` that announcements can raise. -/
inductive SafetyReason where
  | announcementFields
  | announcementProfile
  | announcementCommitment
  | announcementSlot
  | wrongIdentity
  | identitySignature
  | notEquivocation
  deriving DecidableEq

inductive Exn where
  /-- `sharechain_v0.ProfileError(reason, detail)`. -/
  | profileError (reason : Reason) (detail : String)
  /-- `independent_sharechain_v0.Reject(code)`. -/
  | reject (code : Reason)
  /-- `sharechain_sync_v0.SyncError(reason, detail)`. -/
  | syncError (reason : SyncReason) (detail : String)
  /-- `sharechain_multihost_v1.SafetyError(reason, detail)`. -/
  | safetyError (reason : SafetyReason) (detail : String)
  /-- `sharechain_routed_v1.RoutedError("unknown_peer", detail)`. -/
  | routedUnknownPeer (detail : String)
  | keyError
  | typeError
  | valueError
  | osError
  /-- The program does not return. -/
  | diverges
  deriving DecidableEq

end Soveroot
