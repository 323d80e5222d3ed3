import Soveroot.Sync.Node

/-!
# Requests

`handle_envelope` and `sync_peer`. A request from a peer asks for identifiers, asks for shares or
brings shares. A request from the controller imports shares, lets time pass, or makes the node
synchronise with a peer. A malformed reply in the second half of `sync_peer` is an exception nobody
catches.
-/

namespace Soveroot.Sync

open Py Check Journal

section Methods

variable (sha256 : HashFn) (cfg : Config) (D : Dialect)

/-! ## Synchronising with a peer -/

/-- The `totals` of `sync_peer`. -/
structure Totals where
  operations : Nat
  received : Nat
  pushed : Nat
  /-- A peer's number is added to it, whatever kind of number that is. -/
  rejected : Json
  converged : Bool

def Totals.toJson (totals : Totals) : Json :=
  .obj [(ascii "operations", .int totals.operations), (ascii "received", .int totals.received),
    (ascii "pushed", .int totals.pushed), (ascii "rejected", totals.rejected),
    (ascii "converged", .bool totals.converged)]

def Totals.count (totals : Totals) : Totals :=
  { totals with operations := totals.operations + 1 }

/-- `a + b`, for a number `a`. -/
def addNumber (a b : Json) : Except Exn Json :=
  match b with
  | .float _ => D.addFloat a b
  | _ => do
      let n ← orRaise b.asIntOrBool .typeError
      match a with
      | .float _ => D.addFloat a b
      | _ => pure (.int (a.asIntOrBool.getD 0 + n))

/-- `response.get("op") == op`. -/
def requireOp (response : Fields) (op detail : String) : Except Exn Unit :=
  require ((getField response "op").isText (ascii op)) (Exn.syncError .invalidResponse detail)

/-- The first loop of `sync_peer`. -/
def inventoryLoop (peerId : Text) :
    Nat → Json → List Text → Totals → Method (List Text × Totals)
  | 0, _, _, _ => Prog.lift (throw (.syncError .inventoryPageLimit
      "peer inventory did not finish within the page limit"))
  | pages + 1, cursor, peerKnown, totals => do
      let response ← peerRoundTrip sha256 cfg D peerId
        [(ascii "op", .str (ascii "inventory")), (ascii "cursor", cursor)]
      Prog.lift (requireOp response "inventory_response"
        "peer returned the wrong inventory response")
      let page ← Prog.lift (orRaise ((getField response "share_ids").asArr.filter fun l =>
          l.length ≤ maxInventoryIdsPerMessage)
        (.syncError .inventoryLimit "peer inventory page exceeds the limit"))
      let ids ← Prog.lift (page.mapM fun shareId =>
        requireHex shareId 32 .inventoryIdentifier "inventory share id")
      let peerKnown := peerKnown ++ ids
      Prog.lift (require (peerKnown.length ≤ maxKnownShares ∧ peerKnown.Nodup)
        (Exn.syncError .inventoryLimit "peer inventory is oversized or repeats identifiers"))
      match getField response "next_cursor" with
      | .null => pure (peerKnown, totals.count)
      | nextCursor => do
          let expected := cursor.asIntOrBool.getD 0 + page.length
          Prog.lift (require (nextCursor.asIntOrBool = some expected)
            (Exn.syncError .inventoryCursor "peer inventory cursor is not canonical"))
          inventoryLoop peerId pages nextCursor peerKnown totals.count

def receivedShares (requested : List Text) (value : Json) : Except Exn (List Json) := do
  let detail := "peer did not return the exact requested share set"
  let received ← orRaise (value.asArr.filter fun l =>
      l.length = requested.length ∧ l.all fun item => item.asObj.isSome)
    (.syncError .invalidResponse detail)
  let ids ← received.mapM fun item => do
    let value ← subscript item (ascii "share_id_sha256")
    hashable value
  require (sameSet ids requested) (Exn.syncError .invalidResponse detail)
  pure received

/-- The second loop of `sync_peer`: one pull. -/
def pullNext (peerId : Text) (totals : Totals) (requested : List Text) : Method Totals := do
  let pulled ← peerRoundTrip sha256 cfg D peerId
    [(ascii "op", .str (ascii "pull")), (ascii "share_ids", .arr (requested.map .str))]
  Prog.lift (requireOp pulled "pull_response" "peer returned the wrong pull response")
  let received ← Prog.lift (receivedShares requested (getField pulled "shares"))
  let summary ← importAndSave sha256 cfg (.arr received)
  let rejected ← Prog.lift (addNumber D totals.rejected (.int summary.rejected))
  pure { totals.count with received := totals.received + received.length, rejected := rejected }

/-- The third loop of `sync_peer`: one push. -/
def pushNext (peerId : Text) (totals : Totals) (batch : List Share) : Method Totals := do
  let pushed ← peerRoundTrip sha256 cfg D peerId
    [(ascii "op", .str (ascii "push")), (ascii "shares", .arr (documents batch))]
  Prog.lift (requireOp pushed "push_response" "peer returned the wrong push response")
  let summary ← Prog.lift (subscript (.obj pushed) (ascii "summary"))
  let count ← Prog.lift (subscript summary (ascii "rejected"))
  let rejected ← Prog.lift (addNumber D totals.rejected count)
  pure { totals.count with pushed := totals.pushed + batch.length, rejected := rejected }

/-- What `list.extend` takes from a value: the items of a list, the characters of a text, the keys
of a dictionary. -/
def iterate (value : Json) : Except Exn (List Json) :=
  match value with
  | .arr items => pure items
  | .str s => pure (s.map fun c => .str [c])
  | .obj fields => pure (fields.map fun f => .str f.1)
  | _ => throw .typeError

/-- The last loop of `sync_peer`. -/
def finalLoop (peerId : Text) : Nat → Json → List Json → Totals → Method (List Json × Totals)
  | 0, _, ids, totals => pure (ids, totals)
  | pages + 1, cursor, ids, totals => do
      let response ← peerRoundTrip sha256 cfg D peerId
        [(ascii "op", .str (ascii "inventory")), (ascii "cursor", cursor)]
      Prog.lift (requireOp response "inventory_response"
        "peer returned the wrong final inventory response")
      let page ← Prog.lift (subscript (.obj response) (ascii "share_ids"))
      let items ← Prog.lift (iterate page)
      let nextCursor ← Prog.lift (subscript (.obj response) (ascii "next_cursor"))
      match nextCursor with
      | .null => pure (ids ++ items, totals.count)
      | nextCursor => finalLoop peerId pages nextCursor (ids ++ items) totals.count

/-- The check on the number of requests, made twice. -/
def checkOperations (totals : Totals) : Except Exn Unit :=
  require (totals.operations ≤ maxSyncOperations) (Exn.syncError .syncOperationLimit
    "peer synchronization exceeded the operation limit")

def syncPeer (peerId : Json) : Method Totals := do
  let peerId ← Prog.lift (orRaise peerId.asText
    (.syncError .unknownPeer "sync target id is invalid"))
  let (peerKnown, totals) ← inventoryLoop sha256 cfg D peerId maxInventoryPages (.int 0) []
    ⟨0, 0, 0, .int 0, false⟩
  let st ← Prog.mem
  let localBefore := st.allRecords.map Share.shareId
  let missingLocal := peerKnown.filter fun id => localBefore.all (· ≠ id)
  let totals ← (slices maxSharesPerMessage missingLocal).foldlM
    (pullNext sha256 cfg D peerId) totals
  let st ← Prog.mem
  let outgoing := st.allRecords.filter fun s => peerKnown.all (· ≠ s.shareId)
  let totals ← (slices maxSharesPerMessage outgoing).foldlM (pushNext sha256 cfg D peerId) totals
  Prog.lift (checkOperations totals)
  let (finalPeerIds, totals) ← finalLoop sha256 cfg D peerId maxInventoryPages (.int 0) [] totals
  let st ← Prog.mem
  let peerIds ← Prog.lift (finalPeerIds.mapM hashable)
  Prog.lift (require (sameSet peerIds (st.allRecords.map Share.shareId))
    (Exn.syncError .syncNotConverged "peer inventories differ after bounded synchronization"))
  Prog.lift (checkOperations totals)
  pure { totals with converged := true }

/-! ## Handling a request -/

def StateView.toJson (view : StateView) : Json :=
  .obj ([(ascii "node_id", .str view.nodeId), (ascii "tick", .int view.tick),
    (ascii "accepted_share_count", .int view.acceptedShareCount),
    (ascii "orphan_count", .int view.orphanCount),
    (ascii "equivocation_count", .int view.equivocationCount),
    (ascii "selected_state", (view.selectedState.map GraphState.toJson).getD .null),
    (ascii "state_commitment_sha256", .str view.stateCommitment),
    (ascii "rejection_counts", dictJson (fun n : Nat => .int n) view.rejectionCounts)] ++ D.status)

def controlResponse (payload : Fields) : Method Fields := do
  let op := getField payload "op"
  if op.isText (ascii "status") then do
    let st ← Prog.mem
    let view ← Prog.lift (stateView sha256 cfg st)
    pure [(ascii "op", .str (ascii "status_response")), (ascii "status", view.toJson D)]
  else if op.isText (ascii "import") then do
    let summary ← importAndSave sha256 cfg (getField payload "shares")
    pure [(ascii "op", .str (ascii "import_response")), (ascii "summary", summary.toJson)]
  else if op.isText (ascii "tick") then do
    let count ← Prog.lift (orRaise ((getField payload "count").asIntOrBool.filter fun n : Int =>
        1 ≤ n ∧ n ≤ maxOrphanAgeTicks + 1)
      (.syncError .tickCount "control tick count is invalid"))
    let st ← Prog.mem
    Prog.update fun st => (st.pass count.toNat).2
    pure [(ascii "op", .str (ascii "tick_response")),
      (ascii "expired", .int (st.pass count.toNat).1)]
  else if op.isText (ascii "sync") then do
    let totals ← syncPeer sha256 cfg D (getField payload "peer_id")
    pure [(ascii "op", .str (ascii "sync_response")), (ascii "summary", totals.toJson)]
  else if op.isText (ascii "stop") then
    pure [(ascii "op", .str (ascii "stop_response")), (ascii "stopping", .bool true)]
  else Prog.lift (throw (.syncError .controlOperation "unknown local control operation"))

/-- `len(set(requested)) != len(requested)`, then the form of each identifier. A set that would
hold a list or a dictionary cannot be built; numbers that are equal as numbers but not as values
fail the second check instead of the first. -/
def requestedIds (requested : List Json) : Except Exn (List Text) := do
  let values ← requested.mapM hashable
  require (values.map Json.dumps).Nodup
    (Exn.syncError .pullIdentifiers "share pull repeats an identifier")
  values.mapM fun shareId => requireHex shareId 32 .pullIdentifiers "requested share id"

def peerResponse (payload : Fields) : Method Fields := do
  let op := getField payload "op"
  if op.isText (ascii "inventory") then do
    let cursor ← Prog.lift (orRaise ((getField payload "cursor").asInt.filter fun n : Int =>
        0 ≤ n ∧ n ≤ maxKnownShares)
      (.syncError .inventoryCursor "peer inventory cursor is invalid"))
    let st ← Prog.mem
    let records := st.allRecords
    let page := (records.drop cursor.toNat).take maxInventoryIdsPerMessage
    let nextCursor := cursor.toNat + page.length
    let a ← Prog.lift (announce sha256 cfg D st)
    pure [(ascii "op", .str (ascii "inventory_response")),
      (ascii "share_ids", .arr (page.map fun s => .str s.shareId)),
      (ascii "next_cursor", if records.length ≤ nextCursor then .null else .int nextCursor),
      (ascii "announcement", a)]
  else if op.isText (ascii "pull") then do
    let requested ← Prog.lift (orRaise ((getField payload "share_ids").asArr.filter fun l =>
        l.length ≤ maxSharesPerMessage)
      (.syncError .pullLimit "share pull exceeds the per-message limit"))
    let ids ← Prog.lift (requestedIds requested)
    let st ← Prog.mem
    let records := Dict.ofList (st.allRecords.map fun s => (s.shareId, s))
    let a ← Prog.lift (announce sha256 cfg D st)
    pure [(ascii "op", .str (ascii "pull_response")),
      (ascii "shares", .arr (documents (ids.filterMap records.get?))), (ascii "announcement", a)]
  else if op.isText (ascii "push") then do
    let summary ← importAndSave sha256 cfg (getField payload "shares")
    let st ← Prog.mem
    let a ← Prog.lift (announce sha256 cfg D st)
    pure [(ascii "op", .str (ascii "push_response")), (ascii "summary", summary.toJson),
      (ascii "announcement", a)]
  else Prog.lift (throw (.syncError .peerOperation "unknown peer operation"))

def responseTo (envelope : Envelope) : Method Fields :=
  if envelope.sender = controlId then controlResponse sha256 cfg D envelope.payload
  else peerResponse sha256 cfg D envelope.payload

def handleEnvelope (raw : Json) : Method Envelope := do
  let envelope ← authenticateInbound sha256 cfg raw
  Prog.update fun st => (st.pass 1).2
  observe D envelope
  let payload ← responseTo sha256 cfg D envelope
  save
  signResponse sha256 cfg envelope.sender payload

end Methods

end Soveroot.Sync
