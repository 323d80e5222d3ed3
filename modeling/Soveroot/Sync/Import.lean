import Soveroot.Sync.State

/-!
# Importing shares

`_import_one`, `import_shares` and the two passes over the orphans they rely on; the save at the end
of `import_shares` is added where the node is assembled. Accepting a share may give orphans a
parent, so the orphans are visited again until a pass changes nothing. That loop is a `while` in the
source. Here it has fuel, one pass more than there are orphans.

The `except` clauses catch the three exceptions validation raises. Any other exception would leave
the state half updated; `importBatch_spec` says that this does not happen.
-/

namespace Soveroot.Sync

open Py Check

/-! ## Records -/

/-- `(item["sequence"], item["share_id_sha256"])` order. -/
def recordLe (a b : Share) : Prop :=
  a.sequence < b.sequence ∨ (a.sequence = b.sequence ∧ a.shareId ≤ b.shareId)

instance (a b : Share) : Decidable (recordLe a b) := inferInstanceAs (Decidable (_ ∨ _))

namespace NodeState

def known (st : NodeState) : List Share := st.acceptedShares ++ st.orphans.map Orphan.share

def allRecords (st : NodeState) : List Share := st.known.insertionSort recordLe

def acceptedIds (st : NodeState) : List Text := st.acceptedShares.map Share.shareId

def workIds (st : NodeState) : Dict Text Text :=
  Dict.ofList (st.allRecords.map fun s => (s.workId, s.shareId))

end NodeState

/-- `counts[reason] = counts.get(reason, 0) + n`. -/
def bump (counts : Dict Text Nat) (reason : Text) (n : Nat) : Dict Text Nat :=
  counts.set reason ((counts.get? reason).getD 0 + n)

def recordRejection (st : NodeState) (reason : Text) : NodeState :=
  { st with rejectionCounts := bump st.rejectionCounts reason 1 }

/-- The exceptions the `except` clauses of the node name. -/
def caught : Exn → Bool
  | .profileError _ _ => true
  | .reject _ => true
  | .syncError _ _ => true
  | _ => false

/-- `getattr(error, "reason", default)`: `Reject` has a `code` instead. -/
def reasonOf (e : Exn) (default : Text) : Text :=
  match e with
  | .profileError reason _ => reason.text
  | .syncError reason _ => reason.text
  | _ => default

/-! ## Orphans -/

def pruneOrphans (st : NodeState) : Nat × NodeState :=
  let orphans := st.orphans.filter fun o => st.tick ≤ o.arrivalTick + maxOrphanAgeTicks
  let removed := st.orphans.length - orphans.length
  (removed, { st with
    orphans := orphans
    rejectionCounts :=
      if removed = 0 then st.rejectionCounts
      else bump st.rejectionCounts (ascii "orphan_expired") removed })

/-- `self.state["tick"] += ticks` and then `_prune_orphans`. -/
def NodeState.pass (st : NodeState) (ticks : Nat) : Nat × NodeState :=
  pruneOrphans { st with tick := st.tick + ticks }

/-- `previous == ZERO_ID or previous in accepted_ids`. -/
def parentKnown (acceptedIds : List Text) (share : Share) : Bool :=
  decide (share.previousShareId = zeroId) ||
    acceptedIds.any fun id => decide (id = share.previousShareId)

section Import

variable (sha256 : HashFn) (cfg : Config)

/-- The variables of the loop of `promoteOrphans`. -/
structure Promotion where
  state : NodeState
  promoted : Nat
  progress : Bool

def promoteVisit (acceptedIds : List Text) (p : Promotion) (record : Orphan) :
    Except Exn Promotion :=
  let st := p.state
  if parentKnown acceptedIds record.share then
    match validateGraphPair sha256 cfg (documents (st.acceptedShares ++ [record.share])) with
    | .ok _ => pure
        ⟨{ st with
            acceptedShares := st.acceptedShares ++ [record.share]
            orphans := st.orphans.erase record }, p.promoted + 1, true⟩
    | .error e =>
      if caught e then pure
        ⟨recordRejection { st with orphans := st.orphans.erase record }
          (reasonOf e (ascii "orphan_invalid_after_parent")), p.promoted, true⟩
      else throw e
  else pure p

def promotePass (st : NodeState) (promoted : Nat) : Except Exn Promotion :=
  (st.orphans.insertionSort fun a b => recordLe a.share b.share).foldlM
    (promoteVisit sha256 cfg st.acceptedIds) ⟨st, promoted, false⟩

/-- The loop of `promoteOrphans`. -/
def promoteLoop : Nat → NodeState → Nat → Except Exn (Nat × NodeState)
  | 0, _, _ => throw .diverges
  | fuel + 1, st, promoted => do
      let p ← promotePass sha256 cfg st promoted
      if p.progress then promoteLoop fuel p.state p.promoted else pure (p.promoted, p.state)

def promoteOrphans (st : NodeState) : Except Exn (Nat × NodeState) :=
  promoteLoop sha256 cfg (st.orphans.length + 1) st 0

/-! ## Shares -/

/-- What `_import_one` returns. -/
inductive ImportResult where
  | accepted
  | orphan
  | duplicate
  deriving DecidableEq

def importOne (st : NodeState) (value : Json) : Except Exn (ImportResult × NodeState) := do
  let share ← validateShare sha256 value cfg.roundIndex
  match st.allRecords.find? fun s => s.shareId = share.shareId with
  | some existing => do
      require (existing = share)
        (Exn.syncError .shareCollision "one share id has conflicting content")
      pure (.duplicate, st)
  | none => do
      require ((st.workIds.get? share.workId).isNone) (Exn.syncError .duplicateWorkIdentity
        "one proof appears under more than one share")
      require (st.allRecords.length < maxKnownShares)
        (Exn.syncError .knownShareLimit "known-share limit is full")
      if parentKnown st.acceptedIds share then do
        let _ ← validateGraphPair sha256 cfg (documents (st.acceptedShares ++ [share]))
        let (_, st) ← promoteOrphans sha256 cfg
          { st with acceptedShares := st.acceptedShares ++ [share] }
        pure (.accepted, st)
      else do
        require (st.orphans.length < maxOrphans)
          (Exn.syncError .orphanLimit "pending-orphan limit is full")
        pure (.orphan, { st with orphans := st.orphans ++ [⟨share, st.tick⟩] })

/-- The summary `import_shares` returns. -/
structure Summary where
  accepted : Nat
  orphaned : Nat
  duplicates : Nat
  rejected : Nat
  expired : Nat
  reasons : Dict Text Nat

/-- The body of the loop of `importBatch`. -/
def importNext (acc : NodeState × Summary) (value : Json) : Except Exn (NodeState × Summary) :=
  let (st, summary) := acc
  match importOne sha256 cfg st value with
  | .ok (.accepted, st) => pure (st, { summary with accepted := summary.accepted + 1 })
  | .ok (.orphan, st) => pure (st, { summary with orphaned := summary.orphaned + 1 })
  | .ok (.duplicate, st) => pure (st, { summary with duplicates := summary.duplicates + 1 })
  | .error e =>
    if caught e then
      let reason := reasonOf e (ascii "share_rejected")
      pure (recordRejection st reason, { summary with
        rejected := summary.rejected + 1
        reasons := bump summary.reasons reason 1 })
    else throw e

/-- `import_shares` under the lock, up to the save. -/
def importBatch (st : NodeState) (shares : List Json) : Except Exn (Summary × NodeState) := do
  let (expired, st) := st.pass 1
  let (st, summary) ← shares.foldlM (importNext sha256 cfg)
    (st, ⟨0, 0, 0, 0, expired, Dict.empty⟩)
  let (_, st) ← promoteOrphans sha256 cfg st
  pure (summary, st)

/-- `import_shares`, up to the save. -/
def importShares (st : NodeState) (shares : Json) : Except Exn (Summary × NodeState) := do
  let shares ← orRaise (shares.asArr.filter fun l => l.length ≤ maxSharesPerMessage)
    (.syncError .shareBatchLimit "share batch exceeds the frozen per-message limit")
  importBatch sha256 cfg st shares

theorem importShares_arr (st : NodeState) {shares : List Json}
    (h : shares.length ≤ maxSharesPerMessage) :
    importShares sha256 cfg st (.arr shares) = importBatch sha256 cfg st shares := by
  have hlist : (Json.arr shares).asArr.filter (fun l => l.length ≤ maxSharesPerMessage) =
      some shares := Option.filter_eq_some_iff.2 ⟨rfl, decide_eq_true h⟩
  rw [importShares, hlist, orRaise_some, ok_bind]

end Import

end Soveroot.Sync
