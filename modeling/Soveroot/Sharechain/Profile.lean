import Soveroot.Lib.Check
import Soveroot.Lib.Dict
import Soveroot.Lib.Json
import Soveroot.Lib.Sha256
import Soveroot.Sharechain.Errors

/-!
# Shares and rounds: the reference validator

`contrib/mining_autonomy/sharechain_v0.py` up to `validate_share`: the frozen profile, the
trusted-round table and the checks one share passes on its own. A share that has been validated is a
`Share`: the eleven fields that are not fixed by the profile. `Share.toJson` is the document the
share came from, up to the order of its keys.
-/

namespace Soveroot

open Py Check

/-! ## The frozen profile -/

/-- `int(text, 16)`. -/
def parseHex (t : Text) : Nat := t.foldl (fun acc c => 16 * acc + (hexValue c).getD 0) 0

theorem parseHex_formatHex (width n : Nat) : parseHex (formatHex width n) = n := by
  have hzeros : ∀ k, (List.replicate k 48).foldl
      (fun acc c => 16 * acc + (hexValue c).getD 0) 0 = 0 := by
    intro k
    induction k with
    | zero => rfl
    | succ k ih => exact ih
  have hdigits : ∀ l : List Nat, (∀ d ∈ l, d < 16) →
      l.foldr (fun d acc => 16 * acc + (hexValue (hexDigit d)).getD 0) 0 = Nat.ofDigits 16 l := by
    intro l
    induction l with
    | nil => simp
    | cons d l ih =>
      intro h
      rw [List.forall_mem_cons] at h
      rw [List.foldr_cons, ih h.2, hexValue_hexDigit h.1, Nat.ofDigits_cons, Option.getD_some,
        Nat.add_comm]
  rw [parseHex, formatHex, List.foldl_append, hzeros, List.foldl_map, List.foldl_reverse]
  rw [hdigits _ fun d hd => Nat.digits_lt_base (by decide) hd, Nat.ofDigits_digits]

def profileId : Text := ascii "soveroot-sharechain-labnet-v0"

def shareFormat : Text := ascii "soveroot-labnet-share-v0"

def chainName : Text := ascii "labnet"

/-- `"00" * 32`: the parent a root names. -/
def zeroId : Text := List.replicate 64 48

def networkBits : Text := ascii "207fffff"

def shareTargetHex : Text :=
  ascii "bfffffffffffffffffffffffffffffffffffffffffffffffffffffffffffffff"

def shareTarget : Nat := parseHex shareTargetHex

def finalityDepth : Nat := 2

def payoutWindow : Nat := 4

def maxShares : Nat := 4096

def maxTrustedRounds : Nat := 64

/-- `compact_target`, which stands in three programs, the same but for the exceptions. -/
def decodeCompact {ε : Type} (invalid outside : ε) (bits : Nat) : Except ε Nat := do
  let exponent := bits >>> 24
  let mantissa := bits &&& 0x007FFFFF
  require (bits &&& 0x00800000 = 0 ∧ mantissa ≠ 0) invalid
  let target :=
    if exponent ≤ 3 then mantissa >>> (8 * (3 - exponent)) else mantissa <<< (8 * (exponent - 3))
  require (0 < target ∧ target < 1 <<< 256) outside
  pure target

def compactTarget (bits : Nat) : Except Exn Nat :=
  decodeCompact (.profileError .invalidNetworkBits "network bits encode an invalid target")
    (.profileError .invalidNetworkBits "network target is outside the uint256 range") bits

/-- The target `compactTarget` decodes from `networkBits`, see `compactTarget_networkBits`. -/
def networkTarget : Nat := 0x7fffff * 2 ^ 232

def shareWorkUnits : Nat := (2 ^ 256 - 1) / (shareTarget + 1) + 1

theorem compactTarget_networkBits : compactTarget (parseHex networkBits) = .ok networkTarget := by
  rfl

theorem shareWorkUnits_eq : shareWorkUnits = 2 := by decide +kernel

/-! ## Documents -/

section Hashing

variable (sha256 : HashFn)

def canonicalHash (value : Json) : Text := (sha256 value.canonicalBytes).hexdigest

def hash256 (value : Bytes) : Digest := sha256 (sha256 value).bytes

end Hashing

/-- The texts of `size` bytes in canonical hexadecimal. -/
def IsHex (size : Nat) (t : Text) : Prop :=
  t.length = size * 2 ∧ t = lower t ∧ (fromHex t).isSome

instance (size : Nat) (t : Text) : Decidable (IsHex size t) := inferInstanceAs (Decidable (_ ∧ _))

/-- `require_hex`, which several programs have, each raising its own exception. -/
def hexText (raise : String → Exn) (value : Json) (size : Nat) (label : String) :
    Except Exn Text := do
  let text ← orRaise (value.asText.filter fun t => t.length = size * 2 ∧ t = lower t)
    (raise s!"{label} must be canonical lowercase {size}-byte hex")
  let _ ← orRaise (fromHex text) (raise s!"{label} must be hexadecimal")
  pure text

def requireHex (value : Json) (size : Nat) (reason : Reason) (label : String) :
    Except Exn Text :=
  hexText (.profileError reason) value size label

variable {value : Json} {size : Nat} {label : String} {t : Text}

theorem hexText_eq_ok {raise : String → Exn} :
    hexText raise value size label = .ok t ↔ value = .str t ∧ IsHex size t := by
  simp only [hexText, bind_eq_ok, orRaise_eq_ok, Option.filter_eq_some_iff, Json.asText_eq_some,
    pure_eq_ok, Except.ok.injEq, decide_eq_true_eq, IsHex, Option.isSome_iff_exists]
  constructor
  · rintro ⟨t', ⟨rfl, hlen, hlow⟩, b, hb, rfl⟩
    exact ⟨rfl, hlen, hlow, b, hb⟩
  · rintro ⟨rfl, hlen, hlow, b, hb⟩
    exact ⟨t, ⟨rfl, hlen, hlow⟩, b, hb, rfl⟩

theorem requireHex_eq_ok {reason : Reason} :
    requireHex value size reason label = .ok t ↔ value = .str t ∧ IsHex size t :=
  hexText_eq_ok

/-! ## The trusted-round table -/

inductive RoundField where
  | height
  | previousBlockHash
  | networkBits
  | templateCommitmentSha256
  deriving DecidableEq

instance : Json.Keys RoundField where
  all := [.height, .previousBlockHash, .networkBits, .templateCommitmentSha256]
  name
    | .height => ascii "height"
    | .previousBlockHash => ascii "previous_block_hash"
    | .networkBits => ascii "network_bits"
    | .templateCommitmentSha256 => ascii "template_commitment_sha256"
  mem_all f := by cases f <;> decide
  nodup := by decide +kernel

/-- A trusted round. Its network bits are the profile's. -/
structure Round where
  height : Int
  previousBlockHash : Text
  templateCommitment : Text
  deriving DecidableEq

abbrev RoundTable := Dict (Int × Text) Round

def roundTableError (detail : String) : Exn := .profileError .invalidRoundTable detail

/-- The body of the loop of `validateRounds`. -/
def validateRound (result : RoundTable) (value : Json) : Except Exn RoundTable := do
  let item ← orRaise (Json.record? RoundField value)
    (roundTableError "trusted round fields are not canonical")
  let height ← orRaise ((item .height).asInt.filter fun n => 0 ≤ n)
    (roundTableError "trusted round height is invalid")
  let previous ← requireHex (item .previousBlockHash) 32 .invalidRoundTable
    "round previous block hash"
  let template ← requireHex (item .templateCommitmentSha256) 32 .invalidRoundTable
    "round template commitment"
  require ((item .networkBits).isText networkBits)
    (roundTableError "trusted round changes the frozen network bits")
  require (result.contains (height, previous) = false)
    (roundTableError "trusted round table contains a duplicate context")
  pure (result.set (height, previous) ⟨height, previous, template⟩)

def validateRounds (rounds : Json) : Except Exn RoundTable := do
  let items ← orRaise
    (rounds.asArr.filter fun l => 1 ≤ l.length ∧ l.length ≤ maxTrustedRounds)
    (roundTableError "trusted rounds must be a nonempty list")
  items.foldlM validateRound Dict.empty

/-! ## Shares -/

inductive ShareField where
  | format
  | profile
  | chain
  | sequence
  | previousShareId
  | roundHeight
  | roundPreviousBlockHash
  | headerHex
  | headerHash
  | networkBits
  | shareTargetHex
  | templateCommitmentSha256
  | payoutScriptHex
  | workIdSha256
  | blockCandidate
  | shareIdSha256
  deriving DecidableEq

instance : Json.Keys ShareField where
  all := [.format, .profile, .chain, .sequence, .previousShareId, .roundHeight,
    .roundPreviousBlockHash, .headerHex, .headerHash, .networkBits, .shareTargetHex,
    .templateCommitmentSha256, .payoutScriptHex, .workIdSha256, .blockCandidate, .shareIdSha256]
  name
    | .format => ascii "format"
    | .profile => ascii "profile"
    | .chain => ascii "chain"
    | .sequence => ascii "sequence"
    | .previousShareId => ascii "previous_share_id"
    | .roundHeight => ascii "round_height"
    | .roundPreviousBlockHash => ascii "round_previous_block_hash"
    | .headerHex => ascii "header_hex"
    | .headerHash => ascii "header_hash"
    | .networkBits => ascii "network_bits"
    | .shareTargetHex => ascii "share_target_hex"
    | .templateCommitmentSha256 => ascii "template_commitment_sha256"
    | .payoutScriptHex => ascii "payout_script_hex"
    | .workIdSha256 => ascii "work_id_sha256"
    | .blockCandidate => ascii "block_candidate"
    | .shareIdSha256 => ascii "share_id_sha256"
  mem_all f := by cases f <;> decide
  nodup := by decide +kernel

/-- `SHARE_BODY_FIELDS`: every key but the identifier of the share itself. -/
def shareBodyFields : List ShareField := Json.Keys.all.filter (· ≠ .shareIdSha256)

/-- A share document, by key. -/
abbrev RawShare := ShareField → Json

def workIdentity (share : RawShare) : Json :=
  .obj [(ascii "profile", .str profileId), (ascii "chain", .str chainName),
    (ascii "round_height", share .roundHeight), (ascii "header_hex", share .headerHex)]

def shareBody (share : RawShare) : Json :=
  .obj (shareBodyFields.map fun f => (Json.Keys.name f, share f))

structure Share where
  sequence : Nat
  previousShareId : Text
  roundHeight : Int
  roundPreviousBlockHash : Text
  headerHex : Text
  headerHash : Text
  templateCommitment : Text
  payoutScriptHex : Text
  workId : Text
  blockCandidate : Bool
  shareId : Text
  deriving DecidableEq

namespace Share

def raw (s : Share) : RawShare
  | .format => .str shareFormat
  | .profile => .str profileId
  | .chain => .str chainName
  | .sequence => .int s.sequence
  | .previousShareId => .str s.previousShareId
  | .roundHeight => .int s.roundHeight
  | .roundPreviousBlockHash => .str s.roundPreviousBlockHash
  | .headerHex => .str s.headerHex
  | .headerHash => .str s.headerHash
  | .networkBits => .str networkBits
  | .shareTargetHex => .str shareTargetHex
  | .templateCommitmentSha256 => .str s.templateCommitment
  | .payoutScriptHex => .str s.payoutScriptHex
  | .workIdSha256 => .str s.workId
  | .blockCandidate => .bool s.blockCandidate
  | .shareIdSha256 => .str s.shareId

def toJson (s : Share) : Json := Json.ofRecord s.raw

def round (s : Share) : Int × Text := (s.roundHeight, s.roundPreviousBlockHash)

end Share

/-- The payout-script checks of `validateShare`. -/
def validateScript (value : Json) : Except Exn Text := do
  let script ← orRaise (value.asText.filter fun t =>
      2 ≤ t.length ∧ t.length ≤ 20000 ∧ t.length % 2 = 0)
    (.profileError .payoutScript "payout script must encode 1-10000 bytes")
  let _ ← orRaise (fromHex script)
    (.profileError .payoutScript "payout script must be hexadecimal")
  require (script = lower script)
    (Exn.profileError .payoutScript "payout script must use lowercase hexadecimal")
  pure script

def validateShare (sha256 : HashFn) (value : Json) (rounds : RoundTable) : Except Exn Share := do
  let share ← orRaise (Json.record? ShareField value)
    (.profileError .shareFields "share contains missing or unknown fields")
  require ((share .format).isText shareFormat ∧ (share .profile).isText profileId ∧
      (share .chain).isText chainName)
    (Exn.profileError .shareProfile "share uses the wrong format, profile, or chain")
  let sequence ← orRaise ((share .sequence).asInt.filter fun n => 0 ≤ n ∧ n ≤ 0xFFFFFFFF)
    (.profileError .shareSequence "share sequence must be a nonnegative integer")
  let roundHeight ← orRaise (share .roundHeight).asInt
    (.profileError .untrustedRoundContext "share round height is invalid")
  let previousShareId ← requireHex (share .previousShareId) 32 .shareIdentifier "previous share id"
  let roundPrevious ← requireHex (share .roundPreviousBlockHash) 32 .untrustedRoundContext
    "round previous block hash"
  let headerHash ← requireHex (share .headerHash) 32 .headerHash "header hash"
  let template ← requireHex (share .templateCommitmentSha256) 32 .untrustedRoundContext
    "template commitment"
  let workId ← requireHex (share .workIdSha256) 32 .workIdentity "work id"
  let shareId ← requireHex (share .shareIdSha256) 32 .shareIdentifier "share id"
  require ((share .shareTargetHex).isText shareTargetHex)
    (Exn.profileError .shareTargetMismatch "share attempts to change the frozen profile target")
  require ((share .networkBits).isText networkBits)
    (Exn.profileError .networkBitsMismatch "share attempts to change the trusted network bits")
  let _ ← orRaise
    ((rounds.get? (roundHeight, roundPrevious)).filter fun r => r.templateCommitment = template)
    (.profileError .untrustedRoundContext "share is not bound to a trusted labnet round")
  let script ← validateScript (share .payoutScriptHex)
  let blockCandidate ← orRaise (share .blockCandidate).asBool
    (.profileError .blockCandidate "block-candidate marker must be boolean")
  let headerHex ← orRaise (share .headerHex).asText
    (.profileError .malformedHeader "header must be hexadecimal")
  let header ← orRaise (fromHex headerHex)
    (.profileError .malformedHeader "header must be hexadecimal")
  require (header.length = 80 ∧ headerHex = lower headerHex)
    (Exn.profileError .malformedHeader "header must be canonical 80-byte lowercase hex")
  require (hex ((header.drop 4).take 32).reverse = roundPrevious)
    (Exn.profileError .untrustedRoundContext
      "header previous block does not match the trusted round")
  require (formatHex 8 (fromBytesLE ((header.drop 72).take 4)) = networkBits)
    (Exn.profileError .networkBitsMismatch "header does not use the trusted network bits")
  let digest := hash256 sha256 header
  require (hex digest.bytes.reverse = headerHash)
    (Exn.profileError .headerHash "header hash does not match the submitted header")
  let proofValue := fromBytesLE digest.bytes
  require (proofValue ≤ shareTarget)
    (Exn.profileError .proofAboveShareTarget "header proof does not meet the frozen share target")
  require (blockCandidate = decide (proofValue ≤ networkTarget))
    (Exn.profileError .blockCandidate "block-candidate marker does not match the network target")
  require (canonicalHash sha256 (workIdentity share) = workId)
    (Exn.profileError .workIdentity "work identifier does not match the header proof")
  require (canonicalHash sha256 (shareBody share) = shareId)
    (Exn.profileError .shareIdentifier "share identifier does not match its canonical body")
  pure ⟨sequence.toNat, previousShareId, roundHeight, roundPrevious, headerHex, headerHash,
    template, script, workId, blockCandidate, shareId⟩

end Soveroot
