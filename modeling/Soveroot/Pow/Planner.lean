import Mathlib.Data.List.MinMax
import Mathlib.Data.Prod.Lex
import Soveroot.Pow.LowerBound

/-!
# The offline pebbling schedule

`offline_pebbling_schedule.py`: a planner that goes through a captured graph with a cache of version
values, drops the value read farthest ahead, and replays producers, recursively, for the values it
misses.

Each function of the planner takes a flag `checks`. With the flag off it is the function of the
source; with the flag on it also checks what makes a schedule legal, and that the cache fits and the
heap has a live entry for every cached version (`Orderly`).
-/

namespace Soveroot.Pow

open Py Wire Check Pebbling

def domainOfflineSchedule : Bytes := domain "Soveroot/PowResearch/OfflinePebblingSchedule/v1"

def noFutureUse : Nat := 1 <<< 63

structure OfflinePebblingSchedule where
  budgetBytes : Int
  valueEntryBytes : Int
  capacityValues : Nat
  canonicalReads : Nat
  canonicalReadMisses : Nat
  replayedProducers : Nat
  replayedInputRequests : Nat
  replayCacheHits : Nat
  replayCacheMisses : Nat
  maximumReplayDepth : Nat
  peakRetainedValues : Nat
  peakTransientValues : Nat
  scheduleFrames : Nat
  scheduleActions : Nat
  scheduleBytes : Nat
  scheduleCommitment : Bytes
  deriving DecidableEq

/-! ## The graph by producers -/

structure ProducerEdges where
  left : Nat
  right : Nat
  first : Nat
  second : Nat
  deriving DecidableEq

def ProducerEdges.events (e : ProducerEdges) : List (Nat × Nat) :=
  [(0, e.left), (0, e.right), (1, e.first), (1, e.second)]

section

variable (graph : CapturedVersionedGraph)

def checkInput (producer version : Nat) : Except (Raised LookupError) Unit := do
  require (¬ version ≥ graph.versionProducers.length)
    (.valueError "producer input names an unknown version")
  require (∀ source ∈ graph.producerOf version, ¬ source ≥ producer)
    (.valueError "captured graph is not an acyclic producer graph")

def checkOutput (producer version : Nat) : Except (Raised LookupError) Unit := do
  require (0 < version ∧ version < graph.versionProducers.length)
    (.valueError "producer output names an unknown version")
  require (graph.producerOf version = some producer)
    (.valueError "producer table disagrees with the event stream")

/-- The loop of `_decode_graph` over the producers, four events each; the rest are the final
events. -/
def decodeProducers : (producer count : Nat) → List (Nat × Nat) →
    Except (Raised LookupError) (List ProducerEdges × List (Nat × Nat))
  | _, 0, events => .ok ([], events)
  | producer, count + 1, (0, left) :: (0, right) :: (1, first) :: (1, second) :: events => do
      checkInput graph producer left
      checkInput graph producer right
      checkOutput graph producer first
      checkOutput graph producer second
      let (edges, finalEvents) ← decodeProducers (producer + 1) count events
      pure (⟨left, right, first, second⟩ :: edges, finalEvents)
  | _, _ + 1, _ => .error (.valueError "captured producer events must be read, read, write, write")

def decodeGraph : Except (Raised LookupError) (List ProducerEdges × List (Nat × Nat)) := do
  let writtenVersions := graph.versionProducers.length - 1
  require (writtenVersions % 2 = 0)
    (.valueError "captured graph must contain two outputs per producer")
  let producerCount := writtenVersions / 2
  require (¬ graph.events.length < producerCount * 4)
    (.valueError "captured graph event stream is incomplete")
  let (edges, finalEvents) ← decodeProducers graph 0 producerCount graph.events
  require (∀ event ∈ finalEvents, event.1 = 0)
    (.valueError "events after the producer stream must be final reads")
  pure (edges, finalEvents)

end

/-! ## The planner -/

/-- What a planner is built with. -/
structure Plan where
  graph : CapturedVersionedGraph
  capacity : Nat
  edges : List ProducerEdges

/-- What a planner changes. The heap is the collection of its entries: a pop takes the least one. -/
structure Planner where
  futureReads : Nat → List Nat
  cache : Finset Nat := ∅
  evictionHeap : List (Int × Nat) := []
  canonicalReads : Nat := 0
  canonicalMisses : Nat := 0
  replayedProducers : Nat := 0
  replayedInputRequests : Nat := 0
  replayCacheHits : Nat := 0
  replayCacheMisses : Nat := 0
  maximumDepth : Nat := 0
  peakRetained : Nat := 0
  peakTransient : Nat := 0
  scheduleFrames : Nat := 0
  scheduleActions : Nat := 0
  scheduleBytes : Nat
  hashed : Bytes

namespace Planner

def nextUse (s : Planner) (version : Nat) : Nat := (s.futureReads version).headD noFutureUse

/-- The live entry of a version. -/
def entry (s : Planner) (version : Nat) : Int × Nat := (-(s.nextUse version : Int), version)

def heapUpdate (s : Planner) (version : Nat) : Planner :=
  { s with evictionHeap := s.entry version :: s.evictionHeap }

/-- What holds of a planner at every moment. -/
def Orderly (capacity : Nat) (s : Planner) : Prop :=
  s.cache.card ≤ capacity ∧ ∀ v ∈ s.cache, s.entry v ∈ s.evictionHeap

instance (capacity : Nat) (s : Planner) : Decidable (s.Orderly capacity) :=
  inferInstanceAs (Decidable (_ ∧ _))

instance entryOrder : LinearOrder (Int ×ₗ Nat) :=
  @Prod.Lex.instLinearOrder Int Nat Int.instLinearOrder Nat.instLinearOrder

instance : Preorder (Int ×ₗ Nat) := entryOrder.toPreorder

instance : DecidableLT (Int ×ₗ Nat) := entryOrder.toDecidableLT

/-- The loop of `_farthest_unpinned`: the victim, the heap and the entries put aside. Every turn
pops an entry, so the length of the heap is enough turns. -/
def popUnpinned (s : Planner) (pinned : Finset Nat) :
    Nat → List (Int × Nat) → List (Int × Nat) →
      Option (Nat × Nat) × List (Int × Nat) × List (Int × Nat)
  | 0, heap, deferred => (none, heap, deferred)
  | turns + 1, heap, deferred =>
    match heap.argmin toLex with
    | none => (none, heap, deferred)
    | some item =>
      if item.2 ∉ s.cache ∨ -item.1 ≠ s.nextUse item.2 then
        s.popUnpinned pinned turns (heap.erase item) deferred
      else if item.2 ∈ pinned then
        s.popUnpinned pinned turns (heap.erase item) (item :: deferred)
      else (some (item.2, (-item.1).toNat), heap.erase item, deferred)

def farthestUnpinned (s : Planner) (pinned : Finset Nat) :
    Except (Raised LookupError) ((Nat × Nat) × Planner) := do
  let (victim, heap, deferred) := s.popUnpinned pinned s.evictionHeap.length s.evictionHeap []
  let victim ← orRaise victim
    (.valueError "value capacity is too small for the pinned replay frontier")
  pure (victim, { s with evictionHeap := deferred ++ heap })

def add (s : Planner) (version : Nat) : Planner :=
  let s := { s with cache := insert version s.cache }.heapUpdate version
  { s with peakRetained := max s.peakRetained s.cache.card }

section

variable (checks : Bool)

/-- Something the planner relies on. -/
def promise (p : Prop) [Decidable p] : Except (Raised LookupError) Unit :=
  require (checks → p) (.runtimeError "broken promise")

/-- The loop of `_retain`. Every turn drops a value, so the size of the cache is enough turns. -/
def makeRoom (capacity version : Nat) (pinned : Finset Nat) :
    Nat → Planner → Except (Raised LookupError) Planner
  | 0, s => .ok (s.add version)
  | turns + 1, s =>
    if s.cache.card ≥ capacity then do
      let (victim, s) ← s.farthestUnpinned pinned
      promise checks (victim.1 ∉ pinned)
      if version ∉ pinned ∧ s.nextUse version ≥ victim.2 then .ok (s.heapUpdate victim.1)
      else makeRoom capacity version pinned turns { s with cache := s.cache.erase victim.1 }
    else .ok (s.add version)

def retain (capacity : Nat) (s : Planner) (version : Nat) (pinned : Finset Nat) :
    Except (Raised LookupError) Planner := do
  promise checks (s.Orderly capacity)
  if version = 0 ∨ version ∈ s.cache then .ok s
  else if s.futureReads version = [] ∧ version ∉ pinned then .ok s
  else makeRoom checks capacity version pinned s.cache.card s

/-- `_ensure`: the planner after it, and the producers it has appended to `actions`. `stack` is the
room the interpreter has for the recursion. -/
def ensure (plan : Plan) : (stack : Nat) → Planner → (version : Nat) → (pinned : Finset Nat) →
    (depth : Nat) → List Nat → Except (Raised LookupError) (Planner × List Nat)
  | 0, _, _, _, _, _ => .error (.own .recursionError)
  | stack + 1, s, version, pinned, depth, actions => do
      promise checks (s.Orderly plan.capacity ∧ pinned ⊆ s.cache)
      if version = 0 then .ok (s, actions)
      else
        let s := { s with
          replayedInputRequests := s.replayedInputRequests + 1
          maximumDepth := max s.maximumDepth depth }
        if version ∈ s.cache then
          .ok ({ s with replayCacheHits := s.replayCacheHits + 1 }, actions)
        else do
          let s := { s with replayCacheMisses := s.replayCacheMisses + 1 }
          let producer ← orRaise (← plan.graph.producer version)
            (.valueError "materialized version has no producer")
          let edges ← orRaise plan.edges[producer]? (.own .indexError)
          let (s, actions) ← ensure plan stack s edges.left pinned (depth + 1) actions
          let leftPin := if edges.left ≠ 0 then insert edges.left pinned else pinned
          let (s, actions) ← ensure plan stack s edges.right leftPin (depth + 1) actions
          -- the producer is replayed here
          promise checks (leftPin ⊆ s.cache ∧ (edges.right ≠ 0 → edges.right ∈ s.cache))
          let s := { s with
            peakTransient := max s.peakTransient (s.cache.card + 2)
            replayedProducers := s.replayedProducers + 1 }
          let requestedPin := insert version pinned
          let s ← s.retain checks plan.capacity version requestedPin
          let sibling := if version = edges.first then edges.second else edges.first
          let s ← s.retain checks plan.capacity sibling requestedPin
          pure (s, actions ++ [producer])

def writeFrame (s : Planner) (version : Nat) (actions : List Nat) :
    Except (Raised LookupError) Planner := do
  require (¬ (actions.length > 0xFFFFFFFF ∨ version > 0xFFFFFFFF))
    (.valueError "schedule frame exceeds the v0 encoding")
  let frame := leBytes 1 1 ++ leBytes 4 version ++ leBytes 4 actions.length
  require (∀ producer ∈ actions, ¬ producer > 0xFFFFFFFF)
    (.valueError "producer ordinal exceeds the v0 encoding")
  pure { s with
    hashed := s.hashed ++ frame ++ actions.flatMap (leBytes 4)
    canonicalMisses := s.canonicalMisses + 1
    scheduleFrames := s.scheduleFrames + 1
    scheduleActions := s.scheduleActions + actions.length
    scheduleBytes := s.scheduleBytes + frame.length + 4 * actions.length }

def consume (s : Planner) (version eventIndex : Nat) : Except (Raised LookupError) Planner := do
  let inconsistent := .valueError "canonical future-use index is inconsistent"
  match s.futureReads version with
  | [] => .error inconsistent
  | use :: uses =>
    require (¬ use ≠ eventIndex) inconsistent
    let s := { s with futureReads := Function.update s.futureReads version uses }
    if version ∈ s.cache then
      if uses ≠ [] then pure (s.heapUpdate version)
      else pure { s with cache := s.cache.erase version }
    else pure s

def canonicalRead (plan : Plan) (stack : Nat) (s : Planner) (version eventIndex : Nat) :
    Except (Raised LookupError) Planner := do
  promise checks (s.Orderly plan.capacity)
  let s := { s with canonicalReads := s.canonicalReads + 1 }
  if version = 0 then pure s
  else
    let s ← (if version ∉ s.cache then do
        let (s, actions) ← ensure checks plan stack s version ∅ 1 []
        s.writeFrame version actions
      else pure s)
    promise checks (s.Orderly plan.capacity ∧ version ∈ s.cache)
    s.consume version eventIndex

/-- The loop of `run` over the producers. -/
def runProducers (plan : Plan) (stack : Nat) :
    Nat → List ProducerEdges → Planner → Except (Raised LookupError) Planner
  | _, [], s => .ok s
  | producer, e :: edges, s => do
      let eventIndex := producer * 4
      let s ← canonicalRead checks plan stack s e.left eventIndex
      let s ← canonicalRead checks plan stack s e.right (eventIndex + 1)
      let s := { s with peakTransient := max s.peakTransient (s.cache.card + 2) }
      let s ← s.retain checks plan.capacity e.first ∅
      let s ← s.retain checks plan.capacity e.second ∅
      runProducers plan stack (producer + 1) edges s

/-- The loop of `run` over the final events. -/
def runFinal (plan : Plan) (stack : Nat) :
    Nat → List (Nat × Nat) → Planner → Except (Raised LookupError) Planner
  | _, [], s => .ok s
  | eventIndex, event :: events, s => do
      let s ← canonicalRead checks plan stack s event.2 eventIndex
      runFinal plan stack (eventIndex + 1) events s

end

end Planner

def futureReads (events : List (Nat × Nat)) (version : Nat) : List Nat :=
  (events.zipIdx.filter fun (event, _) => event.1 = 0 ∧ event.2 ≠ 0 ∧ event.2 = version).map (·.2)

def searchOfflinePebblingSchedule (H : Hashes) (stack : Nat) (graph : CapturedVersionedGraph)
    (budgetBytes valueEntryBytes : Int) : Except (Raised LookupError) OfflinePebblingSchedule := do
  require (¬ budgetBytes ≤ 0) (.valueError "budget_bytes must be positive")
  require (¬ valueEntryBytes ≤ 0) (.valueError "value_entry_bytes must be positive")
  let capacity := (budgetBytes / valueEntryBytes).toNat
  require (¬ capacity < 2) (.valueError "budget must hold at least two value entries")
  let (edges, finalEvents) ← decodeGraph graph
  -- `struct.pack("<QQQ", ...)`
  require (budgetBytes < 2 ^ 64 ∧ valueEntryBytes < 2 ^ 64 ∧ edges.length < 2 ^ 64) .structError
  let plan : Plan := { graph, capacity, edges }
  let s : Planner := {
    futureReads := futureReads graph.events
    scheduleBytes := domainOfflineSchedule.length + 24
    hashed := domainOfflineSchedule ++ leBytes 8 budgetBytes.toNat ++
      leBytes 8 valueEntryBytes.toNat ++
      leBytes 8 edges.length }
  let s ← s.runProducers false plan stack 0 edges
  let s ← s.runFinal false plan stack (edges.length * 4) finalEvents
  require (∀ event ∈ graph.events, s.futureReads event.2 = [])
    (.valueError "captured graph ended before all future reads were consumed")
  pure {
    budgetBytes, valueEntryBytes
    capacityValues := capacity
    canonicalReads := s.canonicalReads
    canonicalReadMisses := s.canonicalMisses
    replayedProducers := s.replayedProducers
    replayedInputRequests := s.replayedInputRequests
    replayCacheHits := s.replayCacheHits
    replayCacheMisses := s.replayCacheMisses
    maximumReplayDepth := s.maximumDepth
    peakRetainedValues := s.peakRetained
    peakTransientValues := s.peakTransient
    scheduleFrames := s.scheduleFrames
    scheduleActions := s.scheduleActions
    scheduleBytes := s.scheduleBytes
    scheduleCommitment := H.sha3_384 s.hashed }

end Soveroot.Pow
