import Soveroot.Pow.Legal

/-!
# The planner against the lower bound

The planner's walk over the events is one of the schedules of the lower bound
(`searchOfflinePebblingSchedule_schedule`).
-/

namespace Soveroot.Pow

open Py Check Pebbling Sample

variable {graph : CapturedVersionedGraph}

/-- `decodeProducers` cuts the stream into the events of the producers and the final ones. -/
theorem decodeProducers_spec {producer count : Nat} {events finalEvents : List (Nat × Nat)}
    {edges : List ProducerEdges}
    (h : decodeProducers graph producer count events = .ok (edges, finalEvents)) :
    events = edges.flatMap ProducerEdges.events ++ finalEvents ∧
      ∀ i e, edges[i]? = some e → graph.producerOf e.first = some (producer + i) ∧
        graph.producerOf e.second = some (producer + i) := by
  induction count generalizing producer events edges with
  | zero =>
    obtain ⟨rfl, rfl⟩ := Prod.mk.inj (Except.ok.inj h)
    exact ⟨rfl, fun i e hi => by simp at hi⟩
  | succ count ih =>
    unfold decodeProducers at h
    split at h
    case h_1 => contradiction
    case h_2 left right first second rest hcount =>
      obtain rfl := Nat.succ.inj hcount
      obtain ⟨_, -, h⟩ := bind_eq_ok.1 h
      obtain ⟨_, -, h⟩ := bind_eq_ok.1 h
      obtain ⟨_, hfirst, h⟩ := bind_eq_ok.1 h
      obtain ⟨_, hsecond, h⟩ := bind_eq_ok.1 h
      obtain ⟨⟨edges', finalEvents'⟩, hrest, h⟩ := bind_eq_ok.1 h
      obtain ⟨rfl, rfl⟩ := Prod.mk.inj (Except.ok.inj h)
      obtain ⟨hevents, hproducers⟩ := ih hrest
      obtain ⟨_, -, hfirst⟩ := bind_eq_ok.1 hfirst
      obtain ⟨_, -, hsecond⟩ := bind_eq_ok.1 hsecond
      refine ⟨by rw [hevents]; rfl, fun i e hi => ?_⟩
      cases i with
      | zero =>
        obtain rfl := Option.some.inj hi
        exact ⟨require_eq_ok.1 hfirst, require_eq_ok.1 hsecond⟩
      | succ i =>
        rw [← Nat.succ_add_eq_add_succ]
        exact hproducers i e hi
    case h_3 => cases h

namespace Planner

variable {s s' s₁ s₂ : Planner} {pinned : Finset Nat} {version : Nat} {plan : Plan}

/-- From `s` to `s'` the planner goes through `events`: however it goes on, the whole is a run. -/
def Walks (plan : Plan) (events : List (Nat × Nat)) (s s' : Planner) : Prop :=
  s'.cache.card ≤ plan.capacity ∧ ∃ k, s'.replayedProducers = s.replayedProducers + k ∧
    ∀ rest n, Run CapturedVersionedGraph.reads CapturedVersionedGraph.writes plan.graph.producerOf
        plan.capacity s'.cache rest n →
      Run CapturedVersionedGraph.reads CapturedVersionedGraph.writes plan.graph.producerOf
        plan.capacity s.cache (events ++ rest) (k + n)

theorem Walks.refl (hcard : s.cache.card ≤ plan.capacity) : Walks plan [] s s :=
  ⟨hcard, 0, rfl, fun _ n h => by rwa [Nat.zero_add]⟩

theorem Walks.trans {es₁ es₂ : List (Nat × Nat)} (h₁ : Walks plan es₁ s s₁)
    (h₂ : Walks plan es₂ s₁ s₂) : Walks plan (es₁ ++ es₂) s s₂ := by
  obtain ⟨-, k₁, hcount₁, hrun₁⟩ := h₁
  obtain ⟨hcard, k₂, hcount₂, hrun₂⟩ := h₂
  refine ⟨hcard, k₁ + k₂, by omega, fun rest n h => ?_⟩
  rw [List.append_assoc, Nat.add_assoc]
  exact hrun₁ _ _ (hrun₂ _ _ h)

variable {stack eventIndex : Nat} (hplan : plan.Decoded)
include hplan

theorem walks_canonicalRead (hs : s.Orderly plan.capacity)
    (h : canonicalRead false plan stack s version eventIndex = .ok s') :
    s'.Orderly plan.capacity ∧ Walks plan [(0, version)] s s' := by
  obtain ⟨hs', hread⟩ := (canonicalRead_checks hplan.capacity_pos hs _ _ _).2 s' h
  obtain ⟨replayed, hreplays, hread⟩ := hread hplan
  refine ⟨hs', hreplays.card_le, replayed.length, hreplays.replayed, fun rest n hrest => ?_⟩
  refine .event ?_ ?_ hreplays.card_le hrest
  · intro v hv
    by_cases hzero : version = 0
    · simp [CapturedVersionedGraph.reads, hzero] at hv
    · obtain rfl : version = v := by simpa [CapturedVersionedGraph.reads, hzero] using hv
      exact hread hzero
  · exact fun v hv => (hreplays.cache v hv).imp_right .inr

theorem walks_retain (hs : s.Orderly plan.capacity)
    (h : s.retain false plan.capacity version pinned = .ok s') :
    s'.Orderly plan.capacity ∧ Walks plan [(1, version)] s s' := by
  obtain ⟨hs', -, hretains⟩ := (retain_checks hplan.capacity_pos hs _ _).2 s' h
  refine ⟨hs', hretains.card_le, 0, hretains.replayed, fun rest n hrest => ?_⟩
  rw [show 0 + n = ([] : List Nat).length + n from rfl]
  refine .event ?_ ?_ hretains.card_le hrest
  · intro v hv
    simp [CapturedVersionedGraph.reads] at hv
  · intro v hv
    rcases hretains.cache v hv with hv | rfl
    · exact .inl hv
    · exact .inr (.inl rfl)

theorem runProducers_walks {producer : Nat} {edges : List ProducerEdges}
    (hs : s.Orderly plan.capacity) (h : runProducers false plan stack producer edges s = .ok s') :
    s'.Orderly plan.capacity ∧ Walks plan (edges.flatMap ProducerEdges.events) s s' := by
  induction edges generalizing producer s with
  | nil =>
    obtain rfl := Except.ok.inj h
    exact ⟨hs, .refl hs.1⟩
  | cons e edges ih =>
    obtain ⟨s₁, hleft, h⟩ := bind_eq_ok.1 h
    obtain ⟨s₂, hright, h⟩ := bind_eq_ok.1 h
    obtain ⟨s₃, hfirst, h⟩ := bind_eq_ok.1 h
    obtain ⟨s₄, hsecond, h⟩ := bind_eq_ok.1 h
    obtain ⟨hs₁, h₁⟩ := walks_canonicalRead hplan hs hleft
    obtain ⟨hs₂, h₂⟩ := walks_canonicalRead hplan hs₁ hright
    obtain ⟨hs₃, h₃⟩ := walks_retain hplan (by exact hs₂) hfirst
    obtain ⟨hs₄, h₄⟩ := walks_retain hplan hs₃ hsecond
    have hgroup : Walks plan e.events s s₄ := ((h₁.trans h₂).trans h₃).trans h₄
    obtain ⟨hs', hrest⟩ := ih hs₄ h
    exact ⟨hs', hgroup.trans hrest⟩

theorem runFinal_walks {events : List (Nat × Nat)}
    (htags : ∀ event ∈ events, event.1 = 0) (hs : s.Orderly plan.capacity)
    (h : runFinal false plan stack eventIndex events s = .ok s') : Walks plan events s s' := by
  induction events generalizing eventIndex s with
  | nil =>
    obtain rfl := Except.ok.inj h
    exact .refl hs.1
  | cons event events ih =>
    obtain ⟨tag, version⟩ := event
    obtain rfl : tag = 0 := htags _ List.mem_cons_self
    obtain ⟨s₁, hread, h⟩ := bind_eq_ok.1 h
    obtain ⟨hs₁, h₁⟩ := walks_canonicalRead hplan hs hread
    exact h₁.trans (ih (fun e he => htags e (List.mem_cons_of_mem _ he)) hs₁ h)

end Planner

/-- A schedule the search completes is one of the schedules of the lower bound. -/
theorem searchOfflinePebblingSchedule_schedule {H : Hashes} {stack : Nat}
    {budgetBytes valueEntryBytes : Int} {schedule : OfflinePebblingSchedule}
    (h : searchOfflinePebblingSchedule H stack graph budgetBytes valueEntryBytes = .ok schedule) :
    graph.Schedule (budgetBytes / valueEntryBytes).toNat schedule.replayedProducers := by
  obtain ⟨_, -, h⟩ := bind_eq_ok.1 h
  obtain ⟨_, -, h⟩ := bind_eq_ok.1 h
  obtain ⟨_, hcapacity, h⟩ := bind_eq_ok.1 h
  obtain ⟨⟨edges, finalEvents⟩, hdecode, h⟩ := bind_eq_ok.1 h
  obtain ⟨_, -, h⟩ := bind_eq_ok.1 h
  obtain ⟨s₁, hproducers, h⟩ := bind_eq_ok.1 h
  obtain ⟨s₂, hfinal, h⟩ := bind_eq_ok.1 h
  obtain ⟨_, -, h⟩ := bind_eq_ok.1 h
  obtain rfl := Except.ok.inj h
  obtain ⟨_, -, hdecode⟩ := bind_eq_ok.1 hdecode
  obtain ⟨_, -, hdecode⟩ := bind_eq_ok.1 hdecode
  obtain ⟨⟨edges', finalEvents'⟩, hcut, hdecode⟩ := bind_eq_ok.1 hdecode
  obtain ⟨_, htags, hdecode⟩ := bind_eq_ok.1 hdecode
  obtain ⟨rfl, rfl⟩ := Prod.mk.inj (Except.ok.inj hdecode)
  obtain ⟨hevents, hedges⟩ := decodeProducers_spec hcut
  have hcapacity := require_eq_ok.1 hcapacity
  have hplan : Plan.Decoded ⟨graph, (budgetBytes / valueEntryBytes).toNat, edges'⟩ :=
    ⟨by dsimp only; omega, by simpa only [Nat.zero_add] using hedges⟩
  obtain ⟨hs₁, h₁⟩ := Planner.runProducers_walks hplan ⟨Nat.zero_le _, by simp⟩ hproducers
  have h₂ := Planner.runFinal_walks hplan (require_eq_ok.1 htags) hs₁ hfinal
  obtain ⟨-, k, hcount, hrun⟩ := h₁.trans h₂
  have hwhole := hrun [] 0 (.done _)
  rw [List.append_nil, ← hevents, Nat.add_zero] at hwhole
  rw [Nat.zero_add] at hcount
  rw [CapturedVersionedGraph.Schedule, hcount]
  exact hwhole

/-- The lower bound on a graph recorded from an evaluation holds for every schedule, and so for
those the search completes. -/
theorem cutSetLowerBound_le_replays {μ : Type} {H : Hashes} {context : EpochContext}
    {header : Bytes}
    {nonce : Nat} {result : ExecutionResult} {graph : CapturedVersionedGraph}
    (h : (evaluateCapturedVersionedGraph H context header nonce : Except (Raised μ) _) =
      .ok (result, graph)) (budgetBytes valueEntryBytes : Int) :
    (0 < valueEntryBytes → valueEntryBytes ≤ budgetBytes →
      ∃ bound, cutSetLowerBound graph budgetBytes valueEntryBytes = .ok bound) ∧
    ∀ bound, cutSetLowerBound graph budgetBytes valueEntryBytes = .ok bound →
      bound.capacityValues = (budgetBytes / valueEntryBytes).toNat ∧
      (∀ replays, graph.Schedule bound.capacityValues replays →
        bound.additionalProducerExecutionsMin ≤ replays) ∧
      ∀ stack schedule,
        searchOfflinePebblingSchedule H stack graph budgetBytes valueEntryBytes = .ok schedule →
          bound.additionalProducerExecutionsMin ≤ schedule.replayedProducers := by
  have hrecorded := evaluateCapturedVersionedGraph_recorded h
  constructor
  · intro hentry hle
    have hbudget : 0 < budgetBytes := by omega
    have hcapacity : 1 ≤ budgetBytes / valueEntryBytes :=
      (Int.le_ediv_iff_mul_le hentry).2 (by rwa [one_mul])
    obtain ⟨bound, hbound, -⟩ := hrecorded.cutSetLowerBound_spec hbudget hentry (by omega)
    exact ⟨bound, hbound⟩
  · intro bound hbound
    obtain ⟨hbudget, hentry, hcapacity, hvalues⟩ := cutSetLowerBound_eq_ok hbound
    obtain ⟨bound', hbound', hreplays⟩ := hrecorded.cutSetLowerBound_spec hbudget hentry hcapacity
    obtain rfl : bound = bound' := Except.ok.inj (hbound.symm.trans hbound')
    rw [hvalues]
    exact ⟨rfl, hreplays, fun stack schedule hsearch =>
      hreplays _ (searchOfflinePebblingSchedule_schedule hsearch)⟩

/-- A graph of the smallest scratchpad, with half of it as the budget. -/
theorem cutSetLowerBound_le_replays_smallest :
    ∃ result graph bound,
      (evaluateCapturedVersionedGraph hashes context [0] 0 :
        Except (Raised LookupError) _) = .ok (result, graph) ∧
      cutSetLowerBound graph 4096 16 = .ok bound ∧
      ∀ replays, graph.Schedule 256 replays → bound.additionalProducerExecutionsMin ≤ replays := by
  obtain ⟨result, graph, h⟩ := evaluateCapturedVersionedGraph_isOk (μ := LookupError) hashes
    checkEvaluation_context executable_context
  obtain ⟨hexists, hsound⟩ := cutSetLowerBound_le_replays h 4096 16
  obtain ⟨bound, hbound⟩ := hexists (by decide) (by decide)
  obtain ⟨hcapacity, hreplays, -⟩ := hsound bound hbound
  exact ⟨result, graph, bound, h, hbound, fun replays hschedule =>
    hreplays replays (by rw [hcapacity]; exact hschedule)⟩

end Soveroot.Pow
