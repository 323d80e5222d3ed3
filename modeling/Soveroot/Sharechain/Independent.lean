import Soveroot.Sharechain.Graph

/-!
# The independent validator

`contrib/mining_autonomy/independent_sharechain_v0.py`, written without the reference: its own
constants, its own order of checks, one reason code per refusal and no detail text. Its round
table keeps only the template commitment of a round.
-/

namespace Soveroot.Independent

open Py Check

def profile : Text := ascii "soveroot-sharechain-labnet-v0"

def shareKind : Text := ascii "soveroot-labnet-share-v0"

/-- `"0" * 64`. -/
def zero : Text := List.replicate 64 48

def bits : Text := ascii "207fffff"

/-- `"b" + "f" * 63`. -/
def shareLimitText : Text := 98 :: List.replicate 63 102

def shareLimit : Nat := parseHex shareLimitText

/-- `int("7fffff" + "0" * 58, 16)`. -/
def networkLimit : Nat := parseHex (ascii "7fffff" ++ List.replicate 58 48)

def workPerShare : Nat := 2

def finality : Nat := 2

def window : Nat := 4

def maxShares : Nat := 4096

def maxRounds : Nat := 64

section Hashing

variable (sha256 : HashFn)

def digestObject (value : Json) : Text := (sha256 value.canonicalBytes).hexdigest

def doubleSha (data : Bytes) : Digest := sha256 (sha256 data).bytes

end Hashing

def hexField (value : Json) (size : Nat) (code : Reason) : Except Exn Text := do
  let text ← orRaise (value.asText.filter fun t => t.length = size * 2 ∧ t = lower t)
    (.reject code)
  let _ ← orRaise (fromHex text) (.reject code)
  pure text

abbrev Table := Dict (Int × Text) Text

/-- The body of the loop of `checkRoundTable`. -/
def checkRound (table : Table) (value : Json) : Except Exn Table := do
  let row ← orRaise (Json.record? RoundField value) (.reject .invalidRoundTable)
  let height ← orRaise ((row .height).asInt.filter fun n => 0 ≤ n) (.reject .invalidRoundTable)
  let previous ← hexField (row .previousBlockHash) 32 .invalidRoundTable
  let commitment ← hexField (row .templateCommitmentSha256) 32 .invalidRoundTable
  require ((row .networkBits).isText bits ∧ table.contains (height, previous) = false)
    (Exn.reject .invalidRoundTable)
  pure (table.set (height, previous) commitment)

def checkRoundTable (value : Json) : Except Exn Table := do
  let rows ← orRaise (value.asArr.filter fun l => 1 ≤ l.length ∧ l.length ≤ maxRounds)
    (.reject .invalidRoundTable)
  rows.foldlM checkRound Dict.empty

/-- The payout-script checks of `checkShare`. -/
def checkScript (value : Json) : Except Exn Text := do
  let script ← orRaise (value.asText.filter fun t =>
      2 ≤ t.length ∧ t.length ≤ 20000 ∧ t.length % 2 = 0 ∧ t = lower t)
    (.reject .payoutScript)
  let _ ← orRaise (fromHex script) (.reject .payoutScript)
  pure script

def checkShare (sha256 : HashFn) (value : Json) (rounds : Table) : Except Exn Share := do
  let share ← orRaise (Json.record? ShareField value) (.reject .shareFields)
  require ((share .format).isText shareKind ∧ (share .profile).isText profile ∧
    (share .chain).isText (ascii "labnet")) (Exn.reject .shareProfile)
  let sequence ← orRaise ((share .sequence).asInt.filter fun n => 0 ≤ n ∧ n ≤ 0xFFFFFFFF)
    (.reject .shareSequence)
  let roundHeight ← orRaise (share .roundHeight).asInt (.reject .untrustedRoundContext)
  let previousShareId ← hexField (share .previousShareId) 32 .shareIdentifier
  let previousBlock ← hexField (share .roundPreviousBlockHash) 32 .untrustedRoundContext
  let headerHash ← hexField (share .headerHash) 32 .headerHash
  let template ← hexField (share .templateCommitmentSha256) 32 .untrustedRoundContext
  let workId ← hexField (share .workIdSha256) 32 .workIdentity
  let shareId ← hexField (share .shareIdSha256) 32 .shareIdentifier
  require ((share .shareTargetHex).isText shareLimitText) (Exn.reject .shareTargetMismatch)
  require ((share .networkBits).isText bits) (Exn.reject .networkBitsMismatch)
  require (rounds.get? (roundHeight, previousBlock) = some template)
    (Exn.reject .untrustedRoundContext)
  let script ← checkScript (share .payoutScriptHex)
  let blockCandidate ← orRaise (share .blockCandidate).asBool (.reject .blockCandidate)
  let headerText ← orRaise (share .headerHex).asText (.reject .malformedHeader)
  let header ← orRaise (fromHex headerText) (.reject .malformedHeader)
  require (header.length = 80 ∧ headerText = lower headerText) (Exn.reject .malformedHeader)
  require (hex ((header.drop 4).take 32).reverse = previousBlock)
    (Exn.reject .untrustedRoundContext)
  require (formatHex 8 (fromBytesLE ((header.drop 72).take 4)) = bits)
    (Exn.reject .networkBitsMismatch)
  let headerDigest := doubleSha sha256 header
  require (hex headerDigest.bytes.reverse = headerHash) (Exn.reject .headerHash)
  let numericProof := fromBytesLE headerDigest.bytes
  require (numericProof ≤ shareLimit) (Exn.reject .proofAboveShareTarget)
  require (blockCandidate = decide (numericProof ≤ networkLimit)) (Exn.reject .blockCandidate)
  let workDocument := Json.obj [(ascii "profile", .str profile),
    (ascii "chain", .str (ascii "labnet")), (ascii "round_height", share .roundHeight),
    (ascii "header_hex", share .headerHex)]
  require (digestObject sha256 workDocument = workId) (Exn.reject .workIdentity)
  let shareBody := Json.obj
    ((Json.Keys.all.filter (· ≠ ShareField.shareIdSha256)).map fun f => (Json.Keys.name f, share f))
  require (digestObject sha256 shareBody = shareId) (Exn.reject .shareIdentifier)
  pure ⟨sequence.toNat, previousShareId, roundHeight, previousBlock, headerText, headerHash,
    template, script, workId, blockCandidate, shareId⟩

/-- The body of the first loop of `selectState`. -/
def indexItem (sha256 : HashFn) (rounds : Table) (ix : Index) (value : Json) :
    Except Exn Index := do
  let share ← checkShare sha256 value rounds
  require (ix.byId.contains share.shareId = false) (Exn.reject .duplicateShareId)
  match ix.byWork.get? share.workId with
  | some prior => do
      require (prior.payoutScriptHex = share.payoutScriptHex) (Exn.reject .workReassigned)
      throw (.reject .duplicateWorkIdentity)
  | none => pure (ix.push share)

/-- What `selectState` asks of the rounds of a share and its parent. -/
def checkTransition (parent share : Share) : Except Exn Unit :=
  if share.round = parent.round then
    require (parent.blockCandidate = false) (Exn.reject .roundTransition)
  else
    require (parent.blockCandidate = true ∧ share.roundHeight = parent.roundHeight + 1 ∧
      share.roundPreviousBlockHash = parent.headerHash) (Exn.reject .roundTransition)

/-- The body of the second loop of `selectState`. -/
def accumulate (byId : Dict Text Share) (accumulated : Dict Text Nat) (share : Share) :
    Except Exn (Dict Text Nat) :=
  if share.previousShareId = zero then
    pure (accumulated.set share.shareId workPerShare)
  else do
    let parent ← orRaise (byId.get? share.previousShareId) (.reject .unknownParent)
    let work ← orRaise
      ((accumulated.get? share.previousShareId).filter fun _ =>
        share.sequence = parent.sequence + 1)
      (.reject .parentSequence)
    checkTransition parent share
    pure (accumulated.set share.shareId (work + workPerShare))

def tipIds (ix : Index) : List Text :=
  let referenced := (ix.shares.filter (·.previousShareId ≠ zero)).map Share.previousShareId
  ix.byId.keys.filter fun id => referenced.all (· ≠ id)

/-- `select_state` after its first loop. -/
def selectIndex (ix : Index) : Except Exn GraphState := do
  let roots := ix.shares.filter (·.previousShareId = zero)
  require (roots.map Share.sequence = [0]) (Exn.reject .invalidRoot)
  let sorted := ix.shares.insertionSort fun a b => a.sequence ≤ b.sequence
  let accumulated ← sorted.foldlM (accumulate ix.byId) Dict.empty
  let tips := tipIds ix
  let winningWork ← bestTipWork accumulated tips
  -- `sorted(...)[0]`
  let winner ← orRaise
    ((tips.filter fun id => accumulated.get? id = some winningWork).insertionSort (· ≤ ·)).head?
    .keyError
  settle workPerShare finality window ix.byId winner winningWork

def selectState (sha256 : HashFn) (rawShares roundRows : Json) : Except Exn GraphState := do
  let rounds ← checkRoundTable roundRows
  let values ← orRaise (rawShares.asArr.filter fun l => 1 ≤ l.length ∧ l.length ≤ maxShares)
    (.reject .emptyGraph)
  let ix ← values.foldlM (indexItem sha256 rounds) Index.empty
  selectIndex ix

end Soveroot.Independent
