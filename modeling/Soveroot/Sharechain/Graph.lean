import Soveroot.Sharechain.Profile

/-!
# The share graph: the reference validator

`evaluate_graph` of `contrib/mining_autonomy/sharechain_v0.py`. The shares are validated and
indexed in input order, the unique root is found, work is accumulated over the shares sorted by
sequence, and the tip with the most work is walked back to the root.

The walk is a `while` loop in the source. Here it has fuel, and `Exn.diverges` says that the fuel
ran out. Subscripts that could fail raise `Exn.keyError`, and `max` and `min` of nothing raise
`Exn.valueError`; none of the three happens (`selectGraph_cases`).
-/

namespace Soveroot

open Py Check

/-- The claim of one payout script on the payout window. -/
structure Claim where
  payoutScriptHex : Text
  shareIds : List Text
  shareCount : Nat
  workUnits : Nat
  deriving DecidableEq

structure GraphState where
  selectedTipShareId : Text
  selectedCumulativeWork : Nat
  selectedPathShareIds : List Text
  finalizedShareIds : List Text
  payoutWindowShareIds : List Text
  payoutClaims : List Claim
  deriving DecidableEq

def Claim.toJson (c : Claim) : Json :=
  .obj [(ascii "payout_script_hex", .str c.payoutScriptHex),
    (ascii "share_ids", .arr (c.shareIds.map .str)), (ascii "share_count", .int c.shareCount),
    (ascii "work_units", .int c.workUnits)]

def GraphState.toJson (st : GraphState) : Json :=
  .obj [(ascii "selected_tip_share_id", .str st.selectedTipShareId),
    (ascii "selected_cumulative_work", .int st.selectedCumulativeWork),
    (ascii "selected_path_share_ids", .arr (st.selectedPathShareIds.map .str)),
    (ascii "finalized_share_ids", .arr (st.finalizedShareIds.map .str)),
    (ascii "payout_window_share_ids", .arr (st.payoutWindowShareIds.map .str)),
    (ascii "payout_claims", .arr (st.payoutClaims.map Claim.toJson))]

/-- The shares read so far, in input order and by their two identifiers. -/
structure Index where
  shares : List Share
  byId : Dict Text Share
  byWork : Dict Text Share

def Index.empty : Index := ⟨[], Dict.empty, Dict.empty⟩

/-- `by_id[share_id] = share; by_work[work_id] = share`. -/
def Index.push (ix : Index) (share : Share) : Index :=
  ⟨ix.shares ++ [share], ix.byId.set share.shareId share, ix.byWork.set share.workId share⟩

/-- The body of the first loop of `evaluateGraph`. -/
def indexShare (sha256 : HashFn) (rounds : RoundTable) (ix : Index) (value : Json) :
    Except Exn Index := do
  let share ← validateShare sha256 value rounds
  require (ix.byId.contains share.shareId = false)
    (Exn.profileError .duplicateShareId "share graph repeats one share identifier")
  match ix.byWork.get? share.workId with
  | some prior => do
      require (prior.payoutScriptHex = share.payoutScriptHex)
        (Exn.profileError .workReassigned "one proof is assigned to multiple payout scripts")
      throw (.profileError .duplicateWorkIdentity "share graph counts one proof more than once")
  | none => pure (ix.push share)

/-- What `evaluateGraph` asks of the rounds of a share and its parent. -/
def checkTransition (parent share : Share) : Except Exn Unit :=
  if share.round = parent.round then
    require (parent.blockCandidate = false)
      (Exn.profileError .roundTransition
        "a block-candidate share cannot be extended on its stale round")
  else
    require (parent.blockCandidate = true ∧ share.roundHeight = parent.roundHeight + 1 ∧
        share.roundPreviousBlockHash = parent.headerHash)
      (Exn.profileError .roundTransition
        "share changes round without extending its parent block")

/-- The body of the second loop of `evaluateGraph`. -/
def accumulate (byId : Dict Text Share) (cumulative : Dict Text Nat) (share : Share) :
    Except Exn (Dict Text Nat) :=
  if share.previousShareId = zeroId then
    pure (cumulative.set share.shareId shareWorkUnits)
  else do
    let parent ← orRaise (byId.get? share.previousShareId)
      (.profileError .unknownParent "share references an unavailable parent")
    require (share.sequence = parent.sequence + 1)
      (Exn.profileError .parentSequence "share sequence does not immediately follow its parent")
    let work ← orRaise (cumulative.get? share.previousShareId)
      (.profileError .parentSequence "parent must precede its child by sequence")
    checkTransition parent share
    pure (cumulative.set share.shareId (work + shareWorkUnits))

/-- The identifiers from `cursor` back to the root. -/
def walkBack (byId : Dict Text Share) : Nat → Text → Except Exn (List Text)
  | 0, _ => throw .diverges
  | fuel + 1, cursor =>
    if cursor = zeroId then pure []
    else do
      let share ← orRaise (byId.get? cursor) .keyError
      let rest ← walkBack byId fuel share.previousShareId
      pure (cursor :: rest)

/-- Credit one share of the payout window to the group of its script. -/
def creditShare (work : Nat) (byId : Dict Text Share) (grouped : Dict Text Claim)
    (shareId : Text) : Except Exn (Dict Text Claim) := do
  let share ← orRaise (byId.get? shareId) .keyError
  let script := share.payoutScriptHex
  let group := (grouped.get? script).getD ⟨script, [], 0, 0⟩
  pure (grouped.set script
    ⟨script, group.shareIds ++ [shareId], group.shareCount + 1, group.workUnits + work⟩)

/-- `path[:-finality] if len(path) > finality else []`. -/
def finalizedOf (finality : Nat) (path : List Text) : List Text :=
  if finality < path.length then path.take (path.length - finality) else []

/-- `finalized[-window:]`. -/
def windowOf (window : Nat) (finalized : List Text) : List Text :=
  finalized.drop (finalized.length - window)

/-- The state with the given tip: its path, the finalized part of it and the payout claims. -/
def settle (work finality window : Nat) (byId : Dict Text Share) (tip : Text) (bestWork : Nat) :
    Except Exn GraphState := do
  let walked ← walkBack byId (byId.size + 1) tip
  let path := walked.reverse
  let finalized := finalizedOf finality path
  let payoutIds := windowOf window finalized
  let grouped ← payoutIds.foldlM (creditShare work byId) Dict.empty
  let claims := (grouped.entries.insertionSort fun a b => a.1 ≤ b.1).map Prod.snd
  pure ⟨tip, bestWork, path, finalized, payoutIds, claims⟩

def tipIds (ix : Index) : List Text :=
  let parentIds := (ix.shares.filter (·.previousShareId ≠ zeroId)).map Share.previousShareId
  ix.byId.keys.filter fun id => parentIds.all (· ≠ id)

/-- `max(cumulative[share_id] for share_id in tips)`. -/
def bestTipWork (cumulative : Dict Text Nat) (tips : List Text) : Except Exn Nat := do
  let works ← tips.mapM fun id => orRaise (cumulative.get? id) Exn.keyError
  orRaise works.max? .valueError

/-- `evaluate_graph` after its first loop. -/
def selectGraph (ix : Index) : Except Exn GraphState := do
  let roots := ix.shares.filter (·.previousShareId = zeroId)
  require (roots.map Share.sequence = [0])
    (Exn.profileError .invalidRoot "share graph must contain exactly one sequence-zero root")
  let sorted := ix.shares.insertionSort fun a b => a.sequence ≤ b.sequence
  let cumulative ← sorted.foldlM (accumulate ix.byId) Dict.empty
  let tips := tipIds ix
  let bestWork ← bestTipWork cumulative tips
  let selectedTip ← orRaise (tips.filter fun id => cumulative.get? id = some bestWork).min?
    .valueError
  settle shareWorkUnits finalityDepth payoutWindow ix.byId selectedTip bestWork

def evaluateGraph (sha256 : HashFn) (shares roundsDocument : Json) : Except Exn GraphState := do
  let rounds ← validateRounds roundsDocument
  let values ← orRaise
    (shares.asArr.filter fun l => 1 ≤ l.length ∧ l.length ≤ maxShares)
    (.profileError .emptyGraph "share graph must be nonempty")
  let ix ← values.foldlM (indexShare sha256 rounds) Index.empty
  selectGraph ix

end Soveroot
