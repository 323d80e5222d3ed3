import Soveroot.Lib.Pebbling
import Soveroot.Pow.Graph

/-!
# The cut-set lower bound

`pebbling_lower_bound.py`: a scan over the cuts of a captured graph that bounds the producers any
schedule has to execute again when it keeps at most `capacity` values. The schedules are the runs of
`Pebbling` on the events of the graph. The scan keeps the versions live at the cut, and counts how
many producers wrote two of them (`Scans`).
-/

namespace Soveroot.Pow

open Check Pebbling List Function

/-- The exceptions of lists, dictionaries and the call stack. -/
inductive LookupError where
  | indexError
  | keyError
  | recursionError
  deriving DecidableEq

structure CutSetLowerBound where
  budgetBytes : Int
  valueEntryBytes : Int
  capacityValues : Nat
  peakLiveValues : Nat
  strongestCutEvent : Nat
  liveValuesAtStrongestCut : Nat
  pairedProducersAtStrongestCut : Nat
  valuesOverCapacity : Nat
  additionalProducerExecutionsMin : Nat
  deriving DecidableEq

def minimumProducersForValues (values pairedProducers : Nat) : Nat :=
  if values = 0 then 0
  else
    let pairedValues := pairedProducers * 2
    if values ≤ pairedValues then (values + 1) / 2
    else pairedProducers + values - pairedValues

/-- The first loop: the last read of every version. -/
def lastReads : Nat → List (Nat × Nat) → (Nat → Option Nat) →
    Except (Raised LookupError) (Nat → Option Nat)
  | _, [], lastRead => .ok lastRead
  | index, (tag, version) :: events, lastRead =>
    if tag = 0 ∧ version ≠ 0 then
      lastReads (index + 1) events (Function.update lastRead version (some index))
    else if ¬ (tag = 0 ∨ tag = 1) then .error (.valueError "unknown captured graph event tag")
    else lastReads (index + 1) events lastRead

/-- The variables of the second loop. -/
structure CutScan where
  active : Finset Nat := ∅
  liveByProducer : Nat → Option Nat := fun _ => none
  pairedProducers : Nat := 0
  peakLive : Nat := 0
  strongestEvent : Nat := 0
  strongestLive : Nat := 0
  strongestPairs : Nat := 0
  strongestOver : Nat := 0
  strongestBound : Nat := 0

section

variable (graph : CapturedVersionedGraph)

/-- `graph.version_producers[version]`. -/
def CapturedVersionedGraph.producer (version : Nat) : Except (Raised LookupError) (Option Nat) :=
  orRaise graph.versionProducers[version]? (.own .indexError)

namespace CutScan

def addVersion (s : CutScan) (version : Nat) : Except (Raised LookupError) CutScan := do
  let producer ← orRaise (← graph.producer version)
    (.valueError "materialized version has no producer")
  let previous := (s.liveByProducer producer).getD 0
  require (¬ previous ≥ 2) (.valueError "a v1 producer cannot have more than two live outputs")
  pure { s with
    liveByProducer := Function.update s.liveByProducer producer (some (previous + 1))
    pairedProducers := if previous = 1 then s.pairedProducers + 1 else s.pairedProducers
    active := insert version s.active }

def removeVersion (s : CutScan) (version : Nat) : Except (Raised LookupError) CutScan := do
  let inactive := .valueError "attempted to remove an inactive version"
  let producer ← orRaise (← graph.producer version) inactive
  require (version ∈ s.active) inactive
  let previous ← orRaise (s.liveByProducer producer) (.own .keyError)
  pure { s with
    pairedProducers := if previous = 2 then s.pairedProducers - 1 else s.pairedProducers
    liveByProducer := Function.update s.liveByProducer producer
      (if previous = 1 then none else some (previous - 1))
    active := s.active.erase version }

/-- The cut after an event: its bound, and the strongest bound so far. -/
def measure (capacity eventIndex : Nat) (s : CutScan) : CutScan :=
  let live := s.active.card
  let overCapacity := live - capacity
  let bound := minimumProducersForValues overCapacity s.pairedProducers
  let s := { s with peakLive := max s.peakLive live }
  if bound > s.strongestBound ∨ bound = s.strongestBound ∧ overCapacity > s.strongestOver then
    { s with
      strongestEvent := eventIndex
      strongestLive := live
      strongestPairs := s.pairedProducers
      strongestOver := overCapacity
      strongestBound := bound }
  else s

/-- The versions live after an event. -/
def pass (lastRead : Nat → Option Nat) (eventIndex : Nat) (s : CutScan) (event : Nat × Nat) :
    Except (Raised LookupError) CutScan :=
  if event.1 = 1 ∧ (lastRead event.2).isSome then s.addVersion graph event.2
  else if event.1 = 0 ∧ event.2 ≠ 0 ∧ lastRead event.2 = some eventIndex then
    s.removeVersion graph event.2
  else .ok s

/-- The second loop. -/
def scan (capacity : Nat) (lastRead : Nat → Option Nat) :
    Nat → List (Nat × Nat) → CutScan → Except (Raised LookupError) CutScan
  | _, [], s => .ok s
  | eventIndex, event :: events, s => do
      let s ← s.pass graph lastRead eventIndex event
      scan capacity lastRead (eventIndex + 1) events (s.measure capacity eventIndex)

end CutScan

def cutSetLowerBound (budgetBytes valueEntryBytes : Int) :
    Except (Raised LookupError) CutSetLowerBound := do
  require (¬ budgetBytes ≤ 0) (.valueError "budget_bytes must be positive")
  require (¬ valueEntryBytes ≤ 0) (.valueError "value_entry_bytes must be positive")
  let capacity := (budgetBytes / valueEntryBytes).toNat
  require (¬ capacity ≤ 0) (.valueError "budget cannot hold one value entry")
  let lastRead ← lastReads 0 graph.events fun _ => none
  let s ← CutScan.scan graph capacity lastRead 0 graph.events {}
  require (s.active = ∅) (.valueError "captured graph ended with live versions")
  pure {
    budgetBytes, valueEntryBytes
    capacityValues := capacity
    peakLiveValues := s.peakLive
    strongestCutEvent := s.strongestEvent
    liveValuesAtStrongestCut := s.strongestLive
    pairedProducersAtStrongestCut := s.strongestPairs
    valuesOverCapacity := s.strongestOver
    additionalProducerExecutionsMin := s.strongestBound }

/-! ## Schedules -/

namespace CapturedVersionedGraph

/-- The version an event reads, if it is not the initial scratchpad. -/
def reads (event : Nat × Nat) : Option Nat :=
  if event.1 = 0 ∧ event.2 ≠ 0 then some event.2 else none

/-- The version an event creates. -/
def writes (event : Nat × Nat) : Option Nat := if event.1 = 1 then some event.2 else none

def producerOf (version : Nat) : Option Nat := graph.versionProducers.getD version none

/-- The schedules for the graph that keep at most `capacity` version values at each event boundary,
by the number of producers they execute again. -/
def Schedule (capacity replays : Nat) : Prop :=
  Run reads writes graph.producerOf capacity ∅ graph.events replays

end CapturedVersionedGraph

end

/-! ## The last reads -/

/-- `index` is where a version is read last. -/
def LastRead (version : Nat) : List (Nat × Nat) → Nat → Prop
  | [], _ => False
  | event :: events, 0 => event = (0, version) ∧ (0, version) ∉ events
  | _ :: events, index + 1 => LastRead version events index

variable {version : Nat}

theorem lastRead_append {es₁ es₂ : List (Nat × Nat)} :
    LastRead version (es₁ ++ (0, version) :: es₂) es₁.length ↔ (0, version) ∉ es₂ := by
  induction es₁ with
  | nil => simp [LastRead]
  | cons event es₁ ih => exact ih

theorem exists_lastRead {events : List (Nat × Nat)} :
    (∃ index, LastRead version events index) ↔ (0, version) ∈ events := by
  induction events with
  | nil => simp [LastRead]
  | cons event events ih =>
    constructor
    · rintro ⟨index, h⟩
      cases index with
      | zero => exact mem_cons.2 (.inl h.1.symm)
      | succ index => exact mem_cons_of_mem _ (ih.1 ⟨index, h⟩)
    · intro h
      by_cases hmem : (0, version) ∈ events
      · obtain ⟨index, hindex⟩ := ih.2 hmem
        exact ⟨index + 1, hindex⟩
      · exact ⟨0, ((mem_cons.1 h).resolve_right hmem).symm, hmem⟩

/-- A last read among the events to come, or else the entry there was. -/
theorem lastReads_spec (index : Nat) (events : List (Nat × Nat)) (lastRead : Nat → Option Nat)
    (htags : ∀ event ∈ events, event.1 = 0 ∨ event.1 = 1) :
    ∃ lastRead', lastReads index events lastRead = .ok lastRead' ∧ ∀ v ≠ 0, ∀ j,
      lastRead' v = some j ↔ (∃ m, j = index + m ∧ LastRead v events m) ∨
        (0, v) ∉ events ∧ lastRead v = some j := by
  induction events generalizing index lastRead with
  | nil => exact ⟨lastRead, rfl, fun v _ j => by simp [LastRead]⟩
  | cons event events ih =>
    obtain ⟨tag, version⟩ := event
    have hcons : ∀ v j, (∃ m, j = index + m ∧ LastRead v ((tag, version) :: events) m) ↔
        (j = index ∧ (tag, version) = (0, v) ∧ (0, v) ∉ events) ∨
          ∃ m, j = index + 1 + m ∧ LastRead v events m := by
      intro v j
      constructor
      · rintro ⟨m, rfl, h⟩
        cases m with
        | zero => exact .inl ⟨rfl, h⟩
        | succ m => exact .inr ⟨m, by omega, h⟩
      · rintro (⟨rfl, h⟩ | ⟨m, rfl, h⟩)
        · exact ⟨0, rfl, h⟩
        · exact ⟨m + 1, by omega, h⟩
    have htail := fun event h => htags event (mem_cons_of_mem _ h)
    rw [lastReads]
    by_cases hread : tag = 0 ∧ version ≠ 0
    · rw [if_pos hread]
      obtain ⟨lastRead', hok, hspec⟩ := ih (index + 1) _ htail
      refine ⟨lastRead', hok, fun v hv j => ?_⟩
      rw [hspec v hv, hcons]
      by_cases hvv : v = version
      · subst hvv
        simp only [update_self, hread.1, mem_cons, true_or, not_true, false_and,
          or_false, Option.some.injEq, true_and]
        rw [or_comm, and_comm, eq_comm (a := index)]
      · simp only [update_of_ne hvv, mem_cons, Prod.mk.injEq, hvv, Ne.symm hvv, and_false,
          false_or, false_and]
    · rw [if_neg hread, if_neg (not_not.2 (htags _ mem_cons_self))]
      obtain ⟨lastRead', hok, hspec⟩ := ih (index + 1) lastRead htail
      refine ⟨lastRead', hok, fun v hv j => ?_⟩
      have hne : (tag, version) ≠ (0, v) := by
        rintro h
        obtain ⟨rfl, rfl⟩ := Prod.mk.inj h
        exact hread ⟨rfl, hv⟩
      rw [hspec v hv, hcons]
      simp only [hne, false_and, and_false, false_or, mem_cons, Ne.symm hne]

/-! ## The scan -/

section Scan

variable {graph : CapturedVersionedGraph} {n capacity : Nat} {v : Nat}

theorem producerTable_getElem? {n : Nat} (hpos : 0 < v) (hle : v ≤ n) :
    (producerTable n)[v]? = some (some ((v - 1) / 2)) := by
  obtain ⟨k, rfl⟩ : ∃ k, v = k + 1 := ⟨v - 1, by omega⟩
  simp [producerTable, getElem?_range hle]

namespace CapturedVersionedGraph.Recorded

variable {v : Nat} (h : graph.Recorded n)
include h

theorem producerOf (hpos : 0 < v) (hle : v ≤ n) :
    graph.producerOf v = some ((v - 1) / 2) := by
  rw [CapturedVersionedGraph.producerOf, getD_eq_getElem?_getD, h.producers,
    producerTable_getElem? hpos hle]
  rfl

theorem exists_producer (hv : 0 < v ∧ v ≤ n) :
    ∃ p, graph.producerOf v = some p ∧ graph.producer v = .ok (some p) := by
  refine ⟨(v - 1) / 2, h.producerOf hv.1 hv.2, ?_⟩
  rw [CapturedVersionedGraph.producer, h.producers, producerTable_getElem? hv.1 hv.2, orRaise_some]

theorem card_fiber_le {s : Finset Nat} (hs : ∀ v ∈ s, 0 < v ∧ v ≤ n)
    (q : Option Nat) : (fiber graph.producerOf s q).card ≤ 2 := by
  cases q with
  | none =>
    rw [fiber, Finset.filter_false_of_mem]
    · exact Nat.zero_le 2
    · intro v hv hnone
      rw [h.producerOf (hs v hv).1 (hs v hv).2] at hnone
      cases hnone
  | some p =>
    have hsub : fiber graph.producerOf s (some p) ⊆ {2 * p + 1, 2 * p + 2} := by
      intro v hv
      rw [fiber, Finset.mem_filter] at hv
      obtain ⟨hv, hp⟩ := hv
      rw [h.producerOf (hs v hv).1 (hs v hv).2, Option.some.injEq] at hp
      have := (hs v hv).1
      simp only [Finset.mem_insert, Finset.mem_singleton]
      omega
    exact le_trans (Finset.card_le_card hsub) Finset.card_le_two

end CapturedVersionedGraph.Recorded

/-- What the scan has at a cut: the versions written before it and read after it, how many of them
each producer wrote, and how many producers wrote two. -/
structure Scans (graph : CapturedVersionedGraph) (es₁ es₂ : List (Nat × Nat)) (s : CutScan) :
    Prop where
  active : ∀ v, v ∈ s.active ↔ (1, v) ∈ es₁ ∧ (0, v) ∈ es₂
  live : ∀ p, s.liveByProducer p =
    let count := (fiber graph.producerOf s.active (some p)).card
    if count = 0 then none else some count
  paired : s.pairedProducers = (pairs graph.producerOf s.active).card

variable {es₁ es₂ : List (Nat × Nat)} {event : Nat × Nat} {s : CutScan}
    {lastRead : Nat → Option Nat}

theorem Scans.getD_live (h : Scans graph es₁ es₂ s) (p : Nat) :
    (s.liveByProducer p).getD 0 = (fiber graph.producerOf s.active (some p)).card := by
  rw [h.live]
  dsimp only
  split_ifs with hzero
  · exact hzero.symm
  · rfl

theorem Scans.bounds (h : Scans graph es₁ es₂ s) (hg : graph.Recorded n)
    (hevents : graph.events = es₁ ++ es₂) : ∀ v ∈ s.active, 0 < v ∧ v ≤ n := by
  intro v hv
  rw [← hg.stream.mem_write, hevents]
  exact mem_append_left _ ((h.active v).1 hv).1

section

variable (h : Scans graph es₁ (event :: es₂) s) (hg : graph.Recorded n)
  (hevents : graph.events = es₁ ++ event :: es₂)
include h hg hevents

theorem Scans.addVersion (hevent : event = (1, v)) (hnew : (1, v) ∉ es₁)
    (hread : (0, v) ∈ es₂) :
    ∃ s', s.addVersion graph v = .ok s' ∧ Scans graph (es₁ ++ [event]) es₂ s' ∧
      s'.strongestBound = s.strongestBound := by
  subst hevent
  have hv : 0 < v ∧ v ≤ n := by
    rw [← hg.stream.mem_write, hevents]
    exact mem_append_right _ mem_cons_self
  have hnot : v ∉ s.active := fun hmem => hnew ((h.active v).1 hmem).1
  have hbounds : ∀ u ∈ insert v s.active, 0 < u ∧ u ≤ n := by
    intro u hu
    rcases Finset.mem_insert.1 hu with rfl | hu
    · exact hv
    · exact h.bounds hg hevents u hu
  obtain ⟨p, hproducer, hlookup⟩ := hg.exists_producer hv
  have htwo := hg.card_fiber_le hbounds (graph.producerOf v)
  rw [card_fiber_insert hnot, if_pos rfl, hproducer] at htwo
  have hadd : s.addVersion graph v = .ok { s with
      liveByProducer := Function.update s.liveByProducer p
        (some ((fiber graph.producerOf s.active (some p)).card + 1))
      pairedProducers := if (fiber graph.producerOf s.active (some p)).card = 1
        then s.pairedProducers + 1 else s.pairedProducers
      active := insert v s.active } := by
    rw [CutScan.addVersion, hlookup, ok_bind, orRaise_some, ok_bind]
    simp only [h.getD_live, ge_iff_le]
    rw [require_of_pos (by omega), ok_bind, pure_eq_ok]
  refine ⟨_, hadd, ⟨?_, ?_, ?_⟩, rfl⟩
  · intro u
    by_cases hu : u = v
    · subst hu
      simp [hread]
    · simp [hu, h.active]
  · intro q
    simp only [card_fiber_insert hnot, hproducer, Option.some.injEq]
    by_cases hq : q = p
    · subst hq
      simp
    · rw [update_of_ne hq, h.live, if_neg (Ne.symm hq)]
      rfl
  · have hpairs := card_pairs_insert (f := graph.producerOf) hnot (by rw [hproducer]; omega)
    rw [hproducer] at hpairs
    simp only [hpairs, h.paired]
    split_ifs <;> rfl

theorem Scans.removeVersion (hevent : event = (0, v))
    (hwritten : (1, v) ∈ es₁) (hlast : (0, v) ∉ es₂) :
    ∃ s', s.removeVersion graph v = .ok s' ∧ Scans graph (es₁ ++ [event]) es₂ s' ∧
      s'.strongestBound = s.strongestBound := by
  subst hevent
  have hmem : v ∈ s.active := (h.active v).2 ⟨hwritten, mem_cons_self⟩
  have hv := h.bounds hg hevents v hmem
  obtain ⟨p, hproducer, hlookup⟩ := hg.exists_producer hv
  have hnot : v ∉ s.active.erase v := Finset.notMem_erase v s.active
  have htwo := hg.card_fiber_le (h.bounds hg hevents) (graph.producerOf v)
  -- the counts with the version are the counts without it and one more
  have hcount := fun q => card_fiber_insert (f := graph.producerOf) hnot q
  have hpairs := card_pairs_insert (f := graph.producerOf) hnot
  rw [Finset.insert_erase hmem] at hcount hpairs
  rw [hproducer] at htwo hpairs
  have hself := hcount (some p)
  rw [hproducer, if_pos rfl] at hself
  have hlt : (fiber graph.producerOf (s.active.erase v) (some p)).card < 2 := by omega
  set count := (fiber graph.producerOf s.active (some p)).card
  have hremove : s.removeVersion graph v = .ok { s with
      pairedProducers := if count = 2 then s.pairedProducers - 1 else s.pairedProducers
      liveByProducer := Function.update s.liveByProducer p
        (if count = 1 then none else some (count - 1))
      active := s.active.erase v } := by
    rw [CutScan.removeVersion]
    simp only [hlookup, ok_bind, orRaise_some, require_of_pos hmem, h.live]
    rw [if_neg (by omega), orRaise_some, ok_bind, pure_eq_ok]
  refine ⟨_, hremove, ⟨?_, ?_, ?_⟩, rfl⟩
  · intro u
    by_cases hu : u = v
    · subst hu
      simp [hlast]
    · simp [hu, h.active]
  · intro q
    by_cases hq : q = p
    · subst hq
      simp only [update_self]
      by_cases hone : count = 1
      · rw [if_pos hone, if_pos (by omega)]
      · rw [if_neg hone, if_neg (by omega)]
        congr 1
        omega
    · have := hcount (some q)
      rw [hproducer, if_neg (by simpa using Ne.symm hq), Nat.add_zero] at this
      simp only [update_of_ne hq, h.live, this]
  · have := hpairs hlt
    simp only [h.paired, this]
    by_cases hc : count = 2
    · rw [if_pos hc, if_pos (by omega), Nat.add_sub_cancel]
    · rw [if_neg hc, if_neg (by omega), Nat.add_zero]

/-- One event of the scan. The version read last goes, a version that is read later comes. -/
theorem Scans.pass (hlast : ∀ v ≠ 0, ∀ j, lastRead v = some j ↔ LastRead v graph.events j) :
    ∃ s', s.pass graph lastRead es₁.length event = .ok s' ∧ Scans graph (es₁ ++ [event]) es₂ s' ∧
      s'.strongestBound = s.strongestBound := by
  have hstream := hg.stream
  rw [hevents] at hstream
  -- a state that stays: the version of the event is live neither before nor after, or both
  have hstays :
    (∀ v, (1, v) ∈ es₁ ++ [event] ∧ (0, v) ∈ es₂ ↔ (1, v) ∈ es₁ ∧ (0, v) ∈ event :: es₂) →
      ∃ s', Except.ok s = (.ok s' : Except (Raised LookupError) CutScan) ∧
        Scans graph (es₁ ++ [event]) es₂ s' ∧ s'.strongestBound = s.strongestBound :=
    fun hsame => ⟨s, rfl, { h with active := fun v => (h.active v).trans (hsame v).symm }, rfl⟩
  unfold CutScan.pass
  rcases hstream.at_event with ⟨v, rfl, hwritten⟩ | ⟨v, rfl, hv, hnew, hunread, -⟩
  · simp only [Nat.zero_ne_one, false_and, if_false, true_and]
    by_cases hv : v = 0
    · subst hv
      refine hstays fun u => ?_
      by_cases hu : u = 0
      · subst hu
        have hnot : (1, 0) ∉ es₁ := by
          intro hmem
          have hmem' := (hstream.mem_write 0).1 (mem_append_left _ hmem)
          omega
        simp [hnot]
      · simp [hu]
    · have hiff : lastRead v = some es₁.length ↔ (0, v) ∉ es₂ := by
        rw [hlast v hv, hevents, lastRead_append]
      by_cases hmem : (0, v) ∈ es₂
      · rw [if_neg (by rw [hiff]; simp [hmem])]
        refine hstays fun u => ?_
        by_cases hu : u = v
        · subst hu
          simp [hmem]
        · simp [hu]
      · rw [if_pos ⟨hv, hiff.2 hmem⟩]
        exact h.removeVersion hg hevents rfl (hwritten hv) hmem
  · have hiff : (lastRead v).isSome ↔ (0, v) ∈ es₂ := by
      rw [Option.isSome_iff_exists]
      simp only [hlast v hv, exists_lastRead, hevents, mem_append, mem_cons]
      simp [hunread]
    simp only [true_and]
    by_cases hmem : (0, v) ∈ es₂
    · rw [if_pos (hiff.2 hmem)]
      exact h.addVersion hg hevents rfl hnew hmem
    · rw [if_neg (fun hsome => hmem (hiff.1 hsome)), if_neg (by simp)]
      refine hstays fun u => ?_
      by_cases hu : u = v
      · subst hu
        simp [hmem, hnew]
      · simp [hu]

end

variable {values pairedProducers : Nat}

/-- `_minimum_producers_for_values` bounds the producers from below, by what each gives at most. -/
theorem minimumProducersForValues_le {producers : Nat} (htwo : values ≤ 2 * producers)
    (hpairs : values ≤ producers + pairedProducers) :
    minimumProducersForValues values pairedProducers ≤ producers := by
  unfold minimumProducersForValues
  dsimp only
  split_ifs <;> omega

theorem minimumProducersForValues_mono {values' : Nat} (h : values ≤ values') :
    minimumProducersForValues values pairedProducers ≤
      minimumProducersForValues values' pairedProducers := by
  unfold minimumProducersForValues
  dsimp only
  split_ifs <;> omega

theorem Scans.bound_le (h : Scans graph es₁ es₂ s) (hg : graph.Recorded n)
    (hevents : graph.events = es₁ ++ es₂) {replays : Nat}
    (hschedule : graph.Schedule capacity replays) :
    minimumProducersForValues (s.active.card - capacity) s.pairedProducers ≤ replays := by
  have hstream := hg.stream
  rw [hevents] at hstream
  obtain ⟨m, -, hbefore, hafter⟩ := hstream.cut
  have hrun := hschedule
  rw [CapturedVersionedGraph.Schedule, hevents] at hrun
  obtain ⟨lost, hsub, hcard, himage⟩ := hrun.exists_replayed (Nat.zero_le _) s.active (by
      intro v hv
      obtain ⟨hwrite, hread⟩ := (h.active v).1 hv
      have hpos := ((hbefore.mem_write v).1 hwrite).1
      exact ⟨(0, v), hread, by simp [CapturedVersionedGraph.reads]; omega⟩) (by
      intro v hv event hevent hwrites
      obtain ⟨hwrite, -⟩ := (h.active v).1 hv
      have hle := ((hbefore.mem_write v).1 hwrite).2
      obtain ⟨tag, version⟩ := event
      rw [CapturedVersionedGraph.writes] at hwrites
      split_ifs at hwrites with htag
      · obtain ⟨rfl⟩ : version = v := by simpa using hwrites
        obtain rfl : tag = 1 := htag
        have := ((hafter _).1 hevent).1
        omega
      · cases hwrites)
  have htwo := hg.card_fiber_le (h.bounds hg hevents)
  have hle : minimumProducersForValues lost.card s.pairedProducers ≤
      (lost.image graph.producerOf).card :=
    minimumProducersForValues_le (card_le_two_mul_image htwo hsub)
      (h.paired ▸ card_le_add_pairs htwo hsub)
  calc minimumProducersForValues (s.active.card - capacity) s.pairedProducers
      ≤ minimumProducersForValues lost.card s.pairedProducers :=
        minimumProducersForValues_mono (by omega)
    _ ≤ replays := le_trans hle himage

theorem Scans.measure (h : Scans graph es₁ es₂ s) (capacity eventIndex : Nat) :
    Scans graph es₁ es₂ (s.measure capacity eventIndex) := by
  unfold CutScan.measure
  dsimp only
  split_ifs <;> exact { h with }

theorem CutScan.strongestBound_measure_le {s : CutScan} {eventIndex bound : Nat}
    (hold : s.strongestBound ≤ bound)
    (hnew : minimumProducersForValues (s.active.card - capacity) s.pairedProducers ≤ bound) :
    (s.measure capacity eventIndex).strongestBound ≤ bound := by
  unfold CutScan.measure
  dsimp only
  split_ifs
  · exact hnew
  · exact hold

theorem Scans.scan (h : Scans graph es₁ es₂ s) (hg : graph.Recorded n) (capacity : Nat)
    (hevents : graph.events = es₁ ++ es₂)
    (hlast : ∀ v ≠ 0, ∀ j, lastRead v = some j ↔ LastRead v graph.events j)
    (hbound : ∀ replays, graph.Schedule capacity replays → s.strongestBound ≤ replays) :
    ∃ s', CutScan.scan graph capacity lastRead es₁.length es₂ s = .ok s' ∧
      Scans graph graph.events [] s' ∧
      ∀ replays, graph.Schedule capacity replays → s'.strongestBound ≤ replays := by
  induction es₂ generalizing es₁ s with
  | nil =>
    rw [append_nil] at hevents
    exact ⟨s, rfl, hevents ▸ h, hbound⟩
  | cons event es₂ ih =>
    obtain ⟨s₁, hpass, h₁, hsame⟩ := h.pass hg hevents hlast
    have hevents₁ : graph.events = (es₁ ++ [event]) ++ es₂ := by
      rw [hevents, append_cons]
    obtain ⟨s', hscan, h', hbound'⟩ := ih (h₁.measure capacity es₁.length) hevents₁ (by
      intro replays hreplays
      exact CutScan.strongestBound_measure_le (hsame ▸ hbound replays hreplays)
        (h₁.bound_le hg hevents₁ hreplays))
    rw [length_append, length_singleton] at hscan
    exact ⟨s', by rw [CutScan.scan, hpass, ok_bind, hscan], h', hbound'⟩

end Scan

variable {graph : CapturedVersionedGraph} {budgetBytes valueEntryBytes : Int}

/-- On a recorded graph the lower bound is computed for every budget that holds a value, and every
schedule meets it. -/
theorem CapturedVersionedGraph.Recorded.cutSetLowerBound_spec {n : Nat} (hg : graph.Recorded n)
    (hbudget : 0 < budgetBytes) (hentry : 0 < valueEntryBytes)
    (hcapacity : 0 < (budgetBytes / valueEntryBytes).toNat) :
    ∃ bound, cutSetLowerBound graph budgetBytes valueEntryBytes = .ok bound ∧
      ∀ replays, graph.Schedule (budgetBytes / valueEntryBytes).toNat replays →
        bound.additionalProducerExecutionsMin ≤ replays := by
  have htags : ∀ event ∈ graph.events, event.1 = 0 ∨ event.1 = 1 := by
    intro event hevent
    obtain ⟨es₁, es₂, hevents⟩ := append_of_mem hevent
    have hstream := hg.stream
    rw [hevents] at hstream
    rcases hstream.at_event with ⟨v, rfl, -⟩ | ⟨v, rfl, -⟩
    · exact .inl rfl
    · exact .inr rfl
  obtain ⟨lastRead, hreads, hspec⟩ := lastReads_spec 0 graph.events (fun _ => none) htags
  have hlast : ∀ v ≠ 0, ∀ j, lastRead v = some j ↔ LastRead v graph.events j := by
    intro v hv j
    simp [hspec v hv]
  have hstart : Scans graph [] graph.events {} := {
    active := fun v => by simp
    live := fun p => by simp [fiber]
    paired := by simp [pairs] }
  obtain ⟨s, hscan, hs, hbound⟩ := hstart.scan hg (budgetBytes / valueEntryBytes).toNat rfl hlast
    fun _ _ => Nat.zero_le _
  have hactive : s.active = ∅ := by
    ext v
    simp [hs.active]
  rw [length_nil] at hscan
  refine ⟨⟨budgetBytes, valueEntryBytes, (budgetBytes / valueEntryBytes).toNat, s.peakLive,
    s.strongestEvent, s.strongestLive, s.strongestPairs, s.strongestOver, s.strongestBound⟩,
      ?_, hbound⟩
  rw [cutSetLowerBound, require_of_pos (by omega), ok_bind, require_of_pos (by omega), ok_bind]
  simp only [require_of_pos (Nat.not_le.2 hcapacity), ok_bind, hreads, hscan,
    require_of_pos hactive]
  rfl

theorem cutSetLowerBound_eq_ok {bound : CutSetLowerBound}
    (h : cutSetLowerBound graph budgetBytes valueEntryBytes = .ok bound) :
    0 < budgetBytes ∧ 0 < valueEntryBytes ∧ 0 < (budgetBytes / valueEntryBytes).toNat ∧
      bound.capacityValues = (budgetBytes / valueEntryBytes).toNat := by
  obtain ⟨_, hbudget, h⟩ := bind_eq_ok.1 h
  obtain ⟨_, hentry, h⟩ := bind_eq_ok.1 h
  obtain ⟨_, hcapacity, h⟩ := bind_eq_ok.1 h
  iterate 3 obtain ⟨_, -, h⟩ := bind_eq_ok.1 h
  obtain rfl := Except.ok.inj h
  have hbudget := require_eq_ok.1 hbudget
  have hentry := require_eq_ok.1 hentry
  have hcapacity := require_eq_ok.1 hcapacity
  exact ⟨by omega, by omega, by omega, rfl⟩

end Soveroot.Pow
