import Soveroot.Sharechain.Profile

/-!
# Authenticated messages

`contrib/mining_autonomy/sharechain_sync_v0.py` up to `verify_envelope`: a message is an envelope
whose fields are bound together by a MAC under the key of one route. The hash function is a
parameter, as in the validators.

An envelope that has been verified is an `Envelope`. Its payload is kept as it was received.
-/

namespace Soveroot.Sync

open Py Check

def protocol : Text := ascii "soveroot-share-sync-labnet-v0"

/-- `b"soveroot/share-sync/auth/v0\x00"`. -/
def authDomain : Bytes := encodeAscii (ascii "soveroot/share-sync/auth/v0") ++ [0]

def controlId : Text := ascii "local-controller"

def maxMessageBytes : Nat := 131072

def maxSharesPerMessage : Nat := 64

def maxKnownShares : Nat := 4096

def maxInventoryIdsPerMessage : Nat := 512

def maxInventoryPages : Nat := 8

def maxOrphans : Nat := 16

def maxOrphanAgeTicks : Nat := 64

def maxAnnouncementSlotsPerPeer : Nat := 128

def maxEquivocations : Nat := 128

def maxSyncOperations : Nat := 144

def requireHex (value : Json) (size : Nat) (reason : SyncReason) (label : String) :
    Except Exn Text :=
  hexText (.syncError reason) value size label

theorem requireHex_eq_ok {value : Json} {size : Nat} {reason : SyncReason} {label : String}
    {t : Text} : requireHex value size reason label = .ok t ↔ value = .str t ∧ IsHex size t :=
  hexText_eq_ok

/-- A JSON object: what a Python `dict` with string keys holds. -/
abbrev Fields := List (Text × Json)

inductive EnvelopeField where
  | format
  | senderId
  | recipientId
  | sequence
  | payload
  | macSha256
  deriving DecidableEq

instance : Json.Keys EnvelopeField where
  all := [.format, .senderId, .recipientId, .sequence, .payload, .macSha256]
  name
    | .format => ascii "format"
    | .senderId => ascii "sender_id"
    | .recipientId => ascii "recipient_id"
    | .sequence => ascii "sequence"
    | .payload => ascii "payload"
    | .macSha256 => ascii "mac_sha256"
  mem_all f := by cases f <;> decide
  nodup := by decide +kernel

structure Envelope where
  sender : Text
  recipient : Text
  sequence : Nat
  payload : Fields
  mac : Text

/-- What `envelope_body` returns for a sequence it accepts. -/
def bodyJson (sender recipient : Text) (sequence : Nat) (payload : Fields) : Json :=
  .obj [(ascii "format", .str protocol), (ascii "sender_id", .str sender),
    (ascii "recipient_id", .str recipient), (ascii "sequence", .int sequence),
    (ascii "payload", .obj payload)]

/-- The fields of an envelope. -/
def Envelope.record (e : Envelope) : EnvelopeField → Json
  | .format => .str protocol
  | .senderId => .str e.sender
  | .recipientId => .str e.recipient
  | .sequence => .int e.sequence
  | .payload => .obj e.payload
  | .macSha256 => .str e.mac

def Envelope.toJson (e : Envelope) : Json := Json.ofRecord e.record

/-- `envelope_body` on the sequence: the values it accepts. -/
def envelopeSequence (sequence : Json) : Except Exn Nat := do
  let n ← orRaise (sequence.asInt.filter fun n => 0 < n ∧ n < 9223372036854775808)
    (.syncError .messageSequence "message sequence must be a positive signed 63-bit integer")
  pure n.toNat

def envelopeMac (sha256 : HashFn) (key : Bytes) (body : Json) : Text :=
  (hmac sha256 key (authDomain ++ body.canonicalBytes)).hexdigest

def signEnvelope (sha256 : HashFn) (sender recipient : Text) (sequence : Json) (payload : Fields)
    (keyHex : Text) : Except Exn Envelope := do
  let text ← requireHex (.str keyHex) 32 .authKey "authentication key"
  let key ← orRaise (fromHex text) .valueError
  let n ← envelopeSequence sequence
  let mac := envelopeMac sha256 key (bodyJson sender recipient n payload)
  pure ⟨sender, recipient, n, payload, mac⟩

def verifyEnvelope (sha256 : HashFn) (envelope : Json) (expectedSender expectedRecipient : Text)
    (keyHex : Text) : Except Exn Envelope := do
  let fields ← orRaise (Json.record? EnvelopeField envelope)
    (.syncError .messageFields "message fields are not canonical")
  require ((fields .format).isText protocol)
    (Exn.syncError .messageProfile "message uses the wrong protocol profile")
  require ((fields .senderId).isText expectedSender ∧
      (fields .recipientId).isText expectedRecipient)
    (Exn.syncError .messageRoute "message sender or recipient is not the pinned route")
  let payload ← orRaise (fields .payload).asObj
    (.syncError .messagePayload "message payload must be an object")
  let mac ← requireHex (fields .macSha256) 32 .messageAuthentication "message MAC"
  let expected ← signEnvelope sha256 expectedSender expectedRecipient (fields .sequence) payload
    keyHex
  require (expected.mac = mac)
    (Exn.syncError .messageAuthentication "message MAC does not match the pinned peer key")
  pure expected

/-! ## What verification guarantees -/

variable {sequence : Json}

theorem envelopeSequence_eq_ok {n : Nat} : envelopeSequence sequence = .ok n ↔
      sequence = .int n ∧ 0 < n ∧ n < 9223372036854775808 := by
  simp only [envelopeSequence, bind_eq_ok, orRaise_eq_ok, Option.filter_eq_some_iff,
    Json.asInt_eq_some, decide_eq_true_eq, pure_eq_ok, Except.ok.injEq]
  constructor
  · rintro ⟨i, ⟨rfl, hpos, hlt⟩, rfl⟩
    exact ⟨by rw [Int.toNat_of_nonneg (by omega)], by omega, by omega⟩
  · rintro ⟨rfl, hpos, hlt⟩
    exact ⟨n, ⟨rfl, by omega, by omega⟩, by omega⟩

variable {sha256 : HashFn} {sender recipient keyHex : Text} {e : Envelope}

theorem signEnvelope_eq_ok {payload : Fields}
    (h : signEnvelope sha256 sender recipient sequence payload keyHex = .ok e) :
    e.sender = sender ∧ e.recipient = recipient ∧ e.payload = payload ∧
      sequence = .int e.sequence ∧ 0 < e.sequence ∧ e.sequence < 9223372036854775808 := by
  simp only [signEnvelope, bind_eq_ok, pure_eq_ok, Except.ok.injEq] at h
  obtain ⟨text, -, key, -, n, hn, rfl⟩ := h
  obtain ⟨hseq, hpos, hlt⟩ := envelopeSequence_eq_ok.1 hn
  exact ⟨rfl, rfl, rfl, hseq, hpos, hlt⟩

variable {envelope : Json} (h : verifyEnvelope sha256 envelope sender recipient keyHex = .ok e)
include h

theorem verifyEnvelope_eq_ok :
    e.sender = sender ∧ e.recipient = recipient ∧ 0 < e.sequence ∧
      e.sequence < 9223372036854775808 := by
  simp only [verifyEnvelope, bind_eq_ok, pure_eq_ok, Except.ok.injEq] at h
  obtain ⟨fields, -, _, -, _, -, payload, -, mac, -, expected, hsign, _, -, rfl⟩ := h
  obtain ⟨hs, hr, -, -, hpos, hlt⟩ := signEnvelope_eq_ok hsign
  exact ⟨hs, hr, hpos, hlt⟩

theorem verifyEnvelope_record :
    Json.record? EnvelopeField envelope = some e.record := by
  simp only [verifyEnvelope, bind_eq_ok, require_eq_ok, orRaise_eq_ok, exists_const, pure_eq_ok,
    Except.ok.injEq, Json.isText_iff, Json.asObj_eq_some, requireHex_eq_ok] at h
  obtain ⟨fields, hfields, hformat, ⟨hsender, hrecipient⟩, payload, hpayload, mac, ⟨hmac, -⟩,
    expected, hsign, hexpected, rfl⟩ := h
  obtain ⟨hs, hr, hp, hseq, -⟩ := signEnvelope_eq_ok hsign
  rw [hfields, Option.some.injEq]
  funext field
  cases field with
  | format => exact hformat
  | senderId => rw [hsender, Envelope.record, hs]
  | recipientId => rw [hrecipient, Envelope.record, hr]
  | sequence => exact hseq
  | payload => rw [hpayload, Envelope.record, hp]
  | macSha256 => rw [hmac, Envelope.record, hexpected]

end Soveroot.Sync
