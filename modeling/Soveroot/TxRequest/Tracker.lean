import Mathlib.Algebra.Group.Nat.Defs
import Mathlib.Data.Prod.Lex
import Mathlib.Order.Lex
import Soveroot.Lib.Loop
import Soveroot.Lib.SortedView

/-!
# The transaction request tracker

`src/txrequest.cpp` keeps one announcement for each peer and transaction hash, and decides which
peer to ask for which transaction. The announcements are in one container with three indexes. Here
it is a list, and an index is the list sorted by its key, equal keys in the order of the list; an
iterator is the announcement it points to.

Among the candidates of a transaction hash whose time has come one is selected. The selection is
kept up to date by looking at the neighbours of an announcement in the index by transaction hash
only.
-/

namespace Soveroot.TxRequest

open SortedView

/-- `uint256`, a txid or a wtxid, as a number. -/
abbrev TxHash : Type := Nat

abbrev NodeId : Type := Int

structure GenTxid where
  hash : TxHash
  isWtxid : Bool
  deriving DecidableEq

inductive State where
  | candidateDelayed
  | candidateReady
  | candidateBest
  | requested
  | completed
  deriving DecidableEq

def State.rank : State → Nat
  | candidateDelayed => 0
  | candidateReady => 1
  | candidateBest => 2
  | requested => 3
  | completed => 4

structure Announcement where
  gtxid : GenTxid
  /-- The reqtime of a candidate, the expiry of a request. -/
  time : Int
  peer : NodeId
  sequence : Nat
  preferred : Bool
  state : State
  deriving DecidableEq

namespace Announcement

def hash (a : Announcement) : TxHash := a.gtxid.hash

def IsSelected (a : Announcement) : Prop := a.state = .candidateBest ∨ a.state = .requested

def IsWaiting (a : Announcement) : Prop := a.state = .requested ∨ a.state = .candidateDelayed

def IsSelectable (a : Announcement) : Prop := a.state = .candidateReady ∨ a.state = .candidateBest

instance (a : Announcement) : Decidable a.IsSelected := inferInstanceAs (Decidable (_ ∨ _))
instance (a : Announcement) : Decidable a.IsWaiting := inferInstanceAs (Decidable (_ ∨ _))
instance (a : Announcement) : Decidable a.IsSelectable := inferInstanceAs (Decidable (_ ∨ _))

def setState (a : Announcement) (state : State) : Announcement := { a with state := state }

end Announcement

/-- What the priorities are computed by: a transaction hash, a peer, and whether the peer is
preferred. -/
abbrev Computer : Type := TxHash → NodeId → Bool → Nat

/-- `PriorityComputer`, over a salted hash of transaction hash and peer. -/
def priorityComputer (sipHash : TxHash → NodeId → UInt64) : Computer := fun txhash peer preferred =>
  ((sipHash txhash peer >>> 1) ||| (preferred.toUInt64 <<< 63)).toNat

structure PeerInfo where
  total : Nat
  completed : Nat
  requested : Nat
  deriving DecidableEq

/-- `TxRequestTracker::Impl`. -/
structure Tracker where
  currentSequence : Nat
  index : List Announcement
  peerinfo : NodeId → Option PeerInfo

def Tracker.empty : Tracker := ⟨0, [], fun _ => none⟩

/-! ## The indexes -/

section

variable (computer : Computer)

def Announcement.priority (a : Announcement) : Nat := computer a.hash a.peer a.preferred

/-- `ByTxHashView`. -/
def byTxHash (a : Announcement) : TxHash ×ₗ (ℕ ×ₗ ℕ) :=
  toLex (a.hash, toLex (a.state.rank, if a.state = .candidateReady then a.priority computer else 0))

end

/-- `ByPeerView`. -/
def byPeer (a : Announcement) : NodeId ×ₗ (Bool ×ₗ TxHash) :=
  toLex (a.peer, toLex (decide (a.state = .candidateBest), a.hash))

/-- `GetWaitState`: what waits for its time comes first, what has come comes last. -/
def waitState (a : Announcement) : Nat := if a.IsWaiting then 0 else if a.IsSelectable then 2 else 1

/-- `ByTimeView`. -/
def byTime (a : Announcement) : ℕ ×ₗ ℤ := toLex (waitState a, a.time)

/-! ## Wrappers that keep the statistics -/

namespace Tracker

/-- One where a condition holds. -/
def one (p : Prop) [Decidable p] : Nat := (decide p).toNat

def erase (t : Tracker) (it : Announcement) : Tracker :=
  let info := (t.peerinfo it.peer).getD ⟨0, 0, 0⟩
  let info : PeerInfo := ⟨info.total - 1, info.completed - one (it.state = .completed),
    info.requested - one (it.state = .requested)⟩
  { t with
    index := t.index.erase it
    peerinfo := Function.update t.peerinfo it.peer (if info.total = 0 then none else some info) }

/-- `Modify`, by a function that keeps the peer. -/
def modify (t : Tracker) (it : Announcement) (modifier : Announcement → Announcement) : Tracker :=
  let info := (t.peerinfo it.peer).getD ⟨0, 0, 0⟩
  let info : PeerInfo := ⟨info.total,
    info.completed - one (it.state = .completed) + one ((modifier it).state = .completed),
    info.requested - one (it.state = .requested) + one ((modifier it).state = .requested)⟩
  { t with
    index := t.index.map fun a => if a = it then modifier a else a
    peerinfo := Function.update t.peerinfo it.peer (some info) }

/-- `Modify` of the state. -/
def setState (t : Tracker) (it : Announcement) (state : State) : Tracker :=
  t.modify it (·.setState state)

/-! ## Selection -/

section

variable (computer : Computer)

def promoteCandidateReady (t : Tracker) (it : Announcement) : Tracker :=
  let t := t.setState it .candidateReady
  let it := it.setState .candidateReady
  match next (byTxHash computer) t.index it with
  | none => t.setState it .candidateBest
  | some itNext =>
    if itNext.hash ≠ it.hash ∨ itNext.state = .completed then t.setState it .candidateBest
    else if itNext.state = .candidateBest ∧ it.priority computer > itNext.priority computer then
      (t.setState itNext .candidateReady).setState it .candidateBest
    else t

def changeAndReselect (t : Tracker) (it : Announcement) (newState : State) : Tracker :=
  let t :=
    match prev (byTxHash computer) t.index it with
    | none => t
    | some itPrev =>
      if it.IsSelected ∧ itPrev.hash = it.hash ∧ itPrev.state = State.candidateReady then
        t.setState itPrev .candidateBest
      else t
  t.setState it newState

def isOnlyNonCompleted (t : Tracker) (it : Announcement) : Bool :=
  !(prev (byTxHash computer) t.index it).any (fun itPrev => itPrev.hash = it.hash) &&
  !(next (byTxHash computer) t.index it).any (fun itNext =>
    itNext.hash = it.hash && itNext.state ≠ .completed)

/-- The loop that erases an announcement and those of the same transaction hash after it. -/
def eraseFrom (t : Tracker) (it : Announcement) : Tracker :=
  ((since (byTxHash computer) t.index it).takeWhile (fun a => a.hash = it.hash)).foldl erase t

/-- `MakeCompleted`, with whether the announcement still exists. -/
def makeCompleted (t : Tracker) (it : Announcement) : Bool × Tracker :=
  if it.state = .completed then (true, t)
  else if t.isOnlyNonCompleted computer it then (false, t.eraseFrom computer it)
  else (true, t.changeAndReselect computer it .completed)

/-- The first loop of `SetTimePoint`, with what has expired. -/
def passTime (now : Int) (s : Tracker × List (NodeId × GenTxid)) :
    Option (Tracker × List (NodeId × GenTxid)) :=
  match first byTime s.1.index with
  | none => none
  | some it =>
    if it.state = .candidateDelayed ∧ it.time ≤ now then
      some (s.1.promoteCandidateReady computer it, s.2)
    else if it.state = .requested ∧ it.time ≤ now then
      some ((s.1.makeCompleted computer it).2, s.2 ++ [(it.peer, it.gtxid)])
    else none

/-- The second loop of `SetTimePoint`. -/
def turnBack (now : Int) (t : Tracker) : Option Tracker :=
  match last byTime t.index with
  | none => none
  | some it =>
    if it.IsSelectable ∧ it.time > now then some (t.changeAndReselect computer it .candidateDelayed)
    else none

/-- `SetTimePoint`. Each loop takes one turn for each announcement at most. -/
def setTimePoint (t : Tracker) (now : Int) : Option (Tracker × List (NodeId × GenTxid)) :=
  (While.run (passTime computer now) (t.index.length + 1) (t, [])).bind fun (t, expired) =>
    (While.run (turnBack computer now) (t.index.length + 1) t).map fun t => (t, expired)

/-! ## The calls -/

/-- The loop of `DisconnectedPeer`, over the index by peer. -/
def disconnect (peer : NodeId) (s : Tracker × Option Announcement) :
    Option (Tracker × Option Announcement) :=
  match s.2 with
  | none => none
  | some it =>
    if it.peer ≠ peer then none
    else
      let itNext := (next byPeer s.1.index it).filter fun itNext => itNext.peer = peer
      match s.1.makeCompleted computer it with
      | (true, t) =>
        some (t.erase (if it.state = .completed then it else it.setState .completed), itNext)
      | (false, t) => some (t, itNext)

def disconnectedPeer (t : Tracker) (peer : NodeId) : Option Tracker :=
  let it :=
    ((view byPeer t.index).dropWhile fun a => byPeer a < toLex (peer, toLex (false, 0))).head?
  (While.run (disconnect computer peer) (t.index.length + 1) (t, it)).map (·.1)

def forgetTxHash (t : Tracker) (txhash : TxHash) : Tracker :=
  (((view (byTxHash computer) t.index).dropWhile
    fun a => byTxHash computer a < toLex (txhash, toLex (0, 0))).takeWhile fun a =>
      a.hash = txhash).foldl erase t

end

/-- `find` in the index by peer. -/
def find (t : Tracker) (peer : NodeId) (best : Bool) (txhash : TxHash) : Option Announcement :=
  t.index.find? fun a => a.peer = peer ∧ decide (a.state = .candidateBest) = best ∧ a.hash = txhash

/-- `ReceivedInv`. The sequence number has 59 bits. -/
def receivedInv (t : Tracker) (peer : NodeId) (gtxid : GenTxid) (preferred : Bool) (reqtime : Int) :
    Tracker :=
  if (t.find peer true gtxid.hash).isSome then t
  else if (t.find peer false gtxid.hash).isSome then t
  else
    let info := (t.peerinfo peer).getD ⟨0, 0, 0⟩
    { currentSequence := t.currentSequence + 1
      index := t.index ++
        [⟨gtxid, reqtime, peer, t.currentSequence % 2 ^ 59, preferred, .candidateDelayed⟩]
      peerinfo := Function.update t.peerinfo peer (some { info with total := info.total + 1 }) }

section

variable (computer : Computer)

/-- `GetRequestable`, with what has expired. -/
def getRequestable (t : Tracker) (peer : NodeId) (now : Int) :
    Option (Tracker × List GenTxid × List (NodeId × GenTxid)) :=
  (t.setTimePoint computer now).map fun (t, expired) =>
    let selected := ((view byPeer t.index).dropWhile
      fun a => byPeer a < toLex (peer, toLex (true, 0))).takeWhile
        fun a => a.peer = peer ∧ a.state = .candidateBest
    (t, (view (·.sequence) selected).map (·.gtxid), expired)

def requestedTx (t : Tracker) (peer : NodeId) (txhash : TxHash) (expiry : Int) : Tracker :=
  let request (t : Tracker) (it : Announcement) : Tracker :=
    t.modify it fun a => { a with state := .requested, time := expiry }
  match t.find peer true txhash with
  | some it => request t it
  | none =>
    match t.find peer false txhash with
    | none => t
    | some it =>
      if it.state ≠ .candidateDelayed ∧ it.state ≠ .candidateReady then t
      else
        let itOld := ((view (byTxHash computer) t.index).dropWhile
          fun a => byTxHash computer a < toLex (txhash, toLex (State.candidateBest.rank, 0))).head?
        match itOld with
        | none => request t it
        | some itOld =>
          if itOld.hash ≠ txhash then request t it
          else if itOld.state = .candidateBest then request (t.setState itOld .candidateReady) it
          else if itOld.state = .requested then request (t.setState itOld .completed) it
          else request t it

def receivedResponse (t : Tracker) (peer : NodeId) (txhash : TxHash) : Tracker :=
  match (t.find peer false txhash).or (t.find peer true txhash) with
  | none => t
  | some it => (t.makeCompleted computer it).2

/-! ## Inspection -/

def getCandidatePeers (t : Tracker) (txhash : TxHash) : List NodeId :=
  (((view (byTxHash computer) t.index).dropWhile fun a => byTxHash computer a <
    toLex (txhash, toLex (State.candidateDelayed.rank, 0))).takeWhile
      fun a => a.hash = txhash ∧ a.state ≠ .completed).map (·.peer)

end

def countInFlight (t : Tracker) (peer : NodeId) : Nat :=
  ((t.peerinfo peer).getD ⟨0, 0, 0⟩).requested

/-- `CountCandidates`, in integers: the difference is never negative. -/
def countCandidates (t : Tracker) (peer : NodeId) : Int :=
  let info := (t.peerinfo peer).getD ⟨0, 0, 0⟩
  info.total - info.requested - info.completed

def count (t : Tracker) (peer : NodeId) : Nat := ((t.peerinfo peer).getD ⟨0, 0, 0⟩).total

end Tracker

end Soveroot.TxRequest
