import Mathlib.Data.List.Induction
import Soveroot.Pow.Machine

/-!
# The versioned graph of an evaluation

`versioned_graph.py`: an observer of `evaluate` that numbers the writes of the scratchpad. A version
is a write, version zero is a word never written. `Stream n` says what a recorded stream of events
is (`evaluateCapturedVersionedGraph_recorded`): versions are written in order, each once, and read
after that. The producer of version `v` is iteration `(v - 1) / 2`.
-/

namespace Soveroot.Pow

open Py Wire Check List Stateful

/-- Event tag 0 is a read of the version, tag 1 creates it. Entry zero of the producers is the
initial scratchpad. -/
structure CapturedVersionedGraph where
  events : List (Nat × Nat)
  versionProducers : List (Option Nat)
  deriving DecidableEq

/-- The recorder, capturing. Its hash of the edges and the counts it only reports are left out. -/
structure VersionedGraphRecorder where
  wordCount : Nat
  mixIterations : Nat
  currentVersion : List Nat
  readEdges : Nat
  writeVersions : Nat
  events : List (Nat × Nat)
  versionProducers : List (Option Nat)

namespace VersionedGraphRecorder

variable {μ : Type}

/-- `VersionedGraphRecorder(word_count, mix_iterations, capture_graph=True)`. -/
def init (wordCount mixIterations : Nat) : VersionedGraphRecorder where
  wordCount
  mixIterations
  currentVersion := replicate wordCount 0
  readEdges := 0
  writeVersions := 0
  events := []
  versionProducers := [none]

variable (r : VersionedGraphRecorder)

def read (consumerKind slot word : Nat) : Except (Raised μ) VersionedGraphRecorder := do
  require (consumerKind = 0 ∨ consumerKind = 1)
    (.valueError "consumer kind must identify mixing or finalization")
  require (¬ (¬ (slot = 0 ∨ slot = 1) ∨ consumerKind = 1 ∧ slot ≠ 0))
    (.valueError "invalid read slot")
  require (word < r.wordCount) (.valueError "read word is outside the scratchpad")
  pure { r with
    events := r.events ++ [(0, r.currentVersion.getD word 0)]
    readEdges := r.readEdges + 1 }

def write (iteration slot word : Nat) : Except (Raised μ) VersionedGraphRecorder := do
  require (slot = 0 ∨ slot = 1) (.valueError "invalid write slot")
  require (word < r.wordCount) (.valueError "write word is outside the scratchpad")
  let version := r.writeVersions + 1
  pure { r with
    writeVersions := version
    events := r.events ++ [(1, version)]
    versionProducers := r.versionProducers ++ [some iteration]
    currentVersion := r.currentVersion.set word version }

/-- The check of `summary`. -/
def summary : Except (Raised μ) Unit :=
  require (¬ (r.readEdges ≠ r.mixIterations * 2 + finalSampleWords ∨
      r.writeVersions ≠ r.mixIterations * 2))
    (.valueError "observed graph does not match the v1 access-count invariant")

def capturedGraph : Except (Raised μ) CapturedVersionedGraph := do
  require (r.versionProducers.length = r.writeVersions + 1)
    (.valueError "captured producer table is incomplete")
  pure ⟨r.events, r.versionProducers⟩

end VersionedGraphRecorder

variable {μ : Type}

def observe (f : VersionedGraphRecorder → Except (Raised μ) VersionedGraphRecorder) :
    Stateful (Nat × VersionedGraphRecorder) (Raised μ) Unit :=
  fun (memory, r) =>
    match f r with
    | .ok r' => (.ok (), memory, r')
    | .error e => (.error e, memory, r)

/-- The scratchpad with its observer: the call comes before the access. Consumers from
`totalIterations` on are the final samples. Masking leaves `word_index` as it is. -/
def observedScratchpad (params : Params) : Scratch (Nat × VersionedGraphRecorder) μ where
  read selector consumer slot := do
    observe fun r => r.read (if consumer < params.totalIterations then 0 else 1) slot
      (selector &&& (params.words - 1))
    pure (readU64 params.scratchpadBytes (← Stateful.read).1 selector)
  write selector value iteration slot := do
    observe fun r => r.write iteration slot (selector &&& (params.words - 1))
    Stateful.update fun (memory, r) => (writeU64 params.scratchpadBytes memory selector value, r)

/-- `evaluate_captured_versioned_graph`, without the summary it also returns. -/
def evaluateCapturedVersionedGraph (H : Hashes) (context : EpochContext) (header : Bytes)
    (nonce : Nat) : Except (Raised μ) (ExecutionResult × CapturedVersionedGraph) :=
  match evaluateOn H context (observedScratchpad context.params) header nonce
      (0, .init context.params.words (context.params.words * context.params.passes)) with
  | (.ok result, _, r) => do
      r.summary
      let graph ← r.capturedGraph
      pure (result, graph)
  | (.error e, _) => .error e

/-! ## What is recorded -/

/-- A stream of events in which `n` versions are written, in order, and read afterwards. -/
inductive Stream : Nat → List (Nat × Nat) → Prop
  | nil : Stream 0 []
  | read {n v : Nat} {events : List (Nat × Nat)} : Stream n events → v ≤ n →
      Stream n (events ++ [(0, v)])
  | write {n : Nat} {events : List (Nat × Nat)} : Stream n events →
      Stream (n + 1) (events ++ [(1, n + 1)])

/-- The producer table after `n` writes, two by each iteration. -/
def producerTable (n : Nat) : List (Option Nat) := none :: (range n).map fun v => some (v / 2)

/-- A graph with `n` versions. -/
structure CapturedVersionedGraph.Recorded (graph : CapturedVersionedGraph) (n : Nat) : Prop where
  stream : Stream n graph.events
  producers : graph.versionProducers = producerTable n

theorem producerTable_succ (n : Nat) : producerTable (n + 1) = producerTable n ++
    [some (n / 2)] := by
  simp [producerTable, range_succ]

namespace Stream

variable {n : Nat} {events es₁ es₂ : List (Nat × Nat)} {event : Nat × Nat}

theorem of_concat (h : Stream n (events ++ [event])) :
    (∃ v ≤ n, event = (0, v) ∧ Stream n events) ∨
      ∃ m, n = m + 1 ∧ event = (1, m + 1) ∧ Stream m events := by
  generalize hall : events ++ [event] = all at h
  cases h with
  | nil => simp at hall
  | read h hv =>
    obtain ⟨rfl, hevent⟩ := append_inj' hall rfl
    exact .inl ⟨_, hv, singleton_inj.1 hevent, h⟩
  | write h =>
    obtain ⟨rfl, hevent⟩ := append_inj' hall rfl
    exact .inr ⟨_, rfl, singleton_inj.1 hevent, h⟩

/-- A stream at a cut: the versions up to some `m` are written before it, the others after it. -/
theorem cut (h : Stream n (es₁ ++ es₂)) :
    ∃ m ≤ n, Stream m es₁ ∧ ∀ v, (1, v) ∈ es₂ ↔ m < v ∧ v ≤ n := by
  induction es₂ using reverseRecOn generalizing n with
  | nil =>
    rw [append_nil] at h
    exact ⟨n, Nat.le_refl n, h, fun v => by simp⟩
  | append_singleton es₂ event ih =>
    rw [← append_assoc] at h
    rcases h.of_concat with ⟨v, -, rfl, hbefore⟩ | ⟨m, rfl, rfl, hbefore⟩
    · obtain ⟨k, hk, hstream, hmem⟩ := ih hbefore
      exact ⟨k, hk, hstream, fun v => by simp [hmem]⟩
    · obtain ⟨k, hk, hstream, hmem⟩ := ih hbefore
      refine ⟨k, by omega, hstream, fun v => ?_⟩
      simp only [mem_append, hmem, mem_singleton, Prod.mk.injEq, true_and]
      omega

theorem mem_write (h : Stream n events) (v : Nat) : (1, v) ∈ events ↔ 0 < v ∧ v ≤ n := by
  induction h with
  | nil => simp; omega
  | read _ _ ih => simp [ih]
  | write _ ih =>
    simp only [mem_append, ih, mem_singleton, Prod.mk.injEq, true_and]
    omega

theorem le_of_mem_read (h : Stream n events) {v : Nat} (hv : (0, v) ∈ events) : v ≤ n := by
  induction h with
  | nil => simp at hv
  | read _ hle ih =>
    rcases mem_append.1 hv with hv | hv
    · exact ih hv
    · obtain rfl : v = _ := by simpa using hv
      exact hle
  | write _ ih =>
    rcases mem_append.1 hv with hv | hv
    · exact Nat.le_succ_of_le (ih hv)
    · simp at hv

/-- One event of a stream: a read of a version written before, or the write of a version that is
neither read before nor written again. -/
theorem at_event (h : Stream n (es₁ ++ event :: es₂)) :
    (∃ v, event = (0, v) ∧ (v ≠ 0 → (1, v) ∈ es₁)) ∨
      ∃ v, event = (1, v) ∧ v ≠ 0 ∧ (1, v) ∉ es₁ ∧ (0, v) ∉ es₁ ∧ (1, v) ∉ es₂ := by
  rw [append_cons] at h
  obtain ⟨m, -, hstream, hafter⟩ := h.cut
  rcases hstream.of_concat with ⟨v, hv, rfl, hbefore⟩ | ⟨m, rfl, rfl, hbefore⟩
  · exact .inl ⟨v, rfl, fun hne => (hbefore.mem_write v).2 ⟨Nat.pos_of_ne_zero hne, hv⟩⟩
  · refine .inr ⟨m + 1, rfl, Nat.succ_ne_zero m, ?_, fun hread => ?_, ?_⟩
    · rw [hbefore.mem_write]
      omega
    · have := hbefore.le_of_mem_read hread
      omega
    · rw [hafter]
      omega

end Stream

/-- What the recorder keeps: `n` versions are written and `reads` edges are read. -/
structure Records (params : Params) (n reads : Nat) (r : VersionedGraphRecorder) : Prop where
  wordCount : r.wordCount = params.words
  mixIterations : r.mixIterations = params.words * params.passes
  stream : Stream n r.events
  producers : r.versionProducers = producerTable n
  writeVersions : r.writeVersions = n
  readEdges : r.readEdges = reads
  current_le : ∀ v ∈ r.currentVersion, v ≤ n

namespace Records

variable {params : Params} {n reads : Nat} {r : VersionedGraphRecorder}

theorem init : Records params 0 0 (.init params.words (params.words * params.passes)) where
  wordCount := rfl
  mixIterations := rfl
  stream := .nil
  producers := rfl
  writeVersions := rfl
  readEdges := rfl
  current_le v hv := by
    rw [eq_of_mem_replicate hv]

variable (h : Records params n reads r)
include h

theorem current_getD (word : Nat) :
    r.currentVersion.getD word 0 ≤ n := by
  rw [getD_eq_getElem?_getD]
  cases hv : r.currentVersion[word]? with
  | none => exact Nat.zero_le n
  | some v => exact h.current_le v (mem_of_getElem? hv)

variable {slot word : Nat}

theorem read {kind : Nat} (hslot : slot ≤ 1)
    (hkind : kind = 0 ∨ kind = 1 ∧ slot = 0) (hword : word < params.words) :
    ∃ r', (r.read kind slot word : Except (Raised μ) _) = .ok r' ∧
      Records params n (reads + 1) r' := by
  have hread : (r.read kind slot word : Except (Raised μ) _) = .ok { r with
      events := r.events ++ [(0, r.currentVersion.getD word 0)], readEdges :=
        r.readEdges + 1 } := by
    rw [VersionedGraphRecorder.read, require_of_pos (by omega), ok_bind, require_of_pos (by omega),
      ok_bind, require_of_pos (by rw [h.wordCount]; exact hword), ok_bind, pure_eq_ok]
  exact ⟨_, hread, { h with
    stream := .read h.stream (h.current_getD word)
    readEdges := congrArg (· + 1) h.readEdges }⟩

theorem write {iteration : Nat} (hslot : slot ≤ 1)
    (hiteration : iteration = n / 2) (hword : word < params.words) :
    ∃ r', (r.write iteration slot word : Except (Raised μ) _) = .ok r' ∧
      Records params (n + 1) reads r' := by
  have hwrite : (r.write iteration slot word : Except (Raised μ) _) = .ok { r with
      writeVersions := r.writeVersions + 1
      events := r.events ++ [(1, r.writeVersions + 1)]
      versionProducers := r.versionProducers ++ [some iteration]
      currentVersion := r.currentVersion.set word (r.writeVersions + 1) } := by
    rw [VersionedGraphRecorder.write, require_of_pos (by omega), ok_bind,
      require_of_pos (by rw [h.wordCount]; exact hword), ok_bind, pure_eq_ok]
  refine ⟨_, hwrite, { h with
    stream := ?_, producers := ?_, writeVersions := congrArg (· + 1) h.writeVersions
    current_le := ?_ }⟩
  · rw [h.writeVersions]
    exact .write h.stream
  · rw [producerTable_succ, h.producers, hiteration]
  · intro v hv
    rcases mem_or_eq_of_mem_set hv with hv | rfl
    · exact Nat.le_succ_of_le (h.current_le v hv)
    · exact Nat.le_of_eq (congrArg (· + 1) h.writeVersions)

end Records

/-! ## Along an evaluation -/

section

variable {params : Params} {n reads : Nat} (hwords : 0 < params.words)
include hwords

theorem word_lt (selector : Nat) :
    selector &&& (params.words - 1) < params.words := by
  have := Nat.and_le_right (n := selector) (m := params.words - 1)
  omega

variable {selector slot : Nat}

theorem observedScratchpad_read {consumer : Nat} (hslot : slot ≤ 1)
    (hconsumer : consumer < params.totalIterations ∨ slot = 0) :
    Stateful.Ensures (fun s => Records params n reads s.2)
      ((observedScratchpad params : Scratch _ μ).read selector consumer slot)
      (fun _ s => Records params n (reads + 1) s.2) fun _ _ => False := by
  intro (memory, r) h
  have hkind : ∀ kind, kind = (if consumer < params.totalIterations then 0 else 1) →
      kind = 0 ∨ kind = 1 ∧ slot = 0 := by
    rintro kind rfl
    split_ifs with hlt
    · exact .inl rfl
    · exact .inr ⟨rfl, hconsumer.resolve_left hlt⟩
  obtain ⟨r', hread, h'⟩ := Records.read (μ := μ) h hslot (hkind _ rfl) (word_lt hwords selector)
  simp only [observedScratchpad, bind_apply, observe, hread, Stateful.next]
  exact h'

theorem observedScratchpad_write {value iteration : Nat}
    (hslot : slot ≤ 1) (hiteration : iteration = n / 2) :
    Stateful.Ensures (fun s => Records params n reads s.2)
      ((observedScratchpad params : Scratch _ μ).write selector value iteration slot)
      (fun _ s => Records params (n + 1) reads s.2) fun _ _ => False := by
  intro (memory, r) h
  obtain ⟨r', hwrite, h'⟩ := Records.write (μ := μ) h hslot hiteration (word_lt hwords selector)
  simp only [observedScratchpad, bind_apply, observe, hwrite, Stateful.next]
  exact h'

end

section

variable {context : EpochContext}

theorem mixAt_records (hwords : 0 < context.params.words) (s : MachineState)
    {passIndex wordIndex iteration : Nat}
    (hiteration : iteration < context.params.totalIterations) :
    Stateful.Ensures (fun t => Records context.params (2 * iteration) (2 * iteration) t.2)
      (mixAt context (observedScratchpad context.params : Scratch _ μ)
        s passIndex wordIndex iteration)
      (fun _ t => Records context.params (2 * (iteration + 1)) (2 * (iteration + 1)) t.2)
      fun _ _ => ¬ context.Executable := by
  have hfalse : ∀ (e : Raised μ) (t : Nat × VersionedGraphRecorder), False → ¬ context.Executable :=
    fun _ _ h => h.elim
  refine .bind ((observedScratchpad_read hwords (Nat.zero_le 1) (.inl hiteration)).imp
    (fun _ h => h) (fun _ _ h => h) hfalse) fun first => ?_
  refine .bind ((observedScratchpad_read hwords (le_refl 1) (.inl hiteration)).imp
    (fun _ h => h) (fun _ _ h => h) hfalse) fun second => ?_
  refine .bind (Q := fun _ t =>
    Records context.params (2 * iteration) (2 * iteration + 1 + 1) t.2) ?_
    fun r => ?_
  · intro t ht
    by_cases hexec : context.Executable
    · obtain ⟨r, hr⟩ := hexec.mix s passIndex iteration first second
      rw [hr]
      exact ht
    · unfold Stateful.check
      cases context.mix s passIndex iteration first second with
      | ok r => exact ht
      | error e => exact hexec
  refine .bind ((observedScratchpad_write hwords (Nat.zero_le 1) (by omega)).imp
    (fun _ h => h) (fun _ _ h => h) hfalse) fun _ => ?_
  refine .bind ((observedScratchpad_write hwords (le_refl 1) (by omega)).imp
    (fun _ h => h) (fun _ _ h => h) hfalse) fun _ => ?_
  exact .pure fun t ht => ht

theorem evaluateOn_records (H : Hashes) (context : EpochContext) (header : Bytes) (nonce : Nat) :
    Stateful.Ensures (fun t => Records context.params 0 0 t.2)
      (evaluateOn H context (observedScratchpad context.params : Scratch _ μ) header nonce)
      (fun _ t => Records context.params (2 * context.params.totalIterations)
        (2 * context.params.totalIterations + finalSampleWords) t.2)
      fun _ _ => (checkEvaluation context header nonce : Except (Raised μ) Unit) = .ok () →
        ¬ context.Executable := by
  unfold evaluateOn
  cases hcheck : (checkEvaluation context header nonce : Except (Raised μ) Unit) with
  | error e =>
    refine .raise fun _ _ h => ?_
    cases h
  | ok _ =>
    have hwords := (checkEvaluation_eq_ok.1 hcheck).2.1.words_pos
    rw [check_ok_bind]
    refine .bind (mixAll_ensures (I := fun i _ t => Records context.params (2 * i) (2 * i) t.2)
      (fun s passIndex wordIndex _ hlt => (mixAt_records hwords s hlt).imp (fun _ h => h)
        (fun _ _ h => h) fun _ _ h _ => h) _) fun s => ?_
    refine .bind (finalSamples_ensures (I := fun i t => Records context.params
      (2 * context.params.totalIterations) (2 * context.params.totalIterations + i) t.2)
      fun index selector _ => (observedScratchpad_read hwords (Nat.zero_le 1) (.inr rfl)).imp
        (fun _ h => h) (fun _ _ h => h) fun _ _ h => h.elim) fun _ => .pure fun _ h => h

variable {header : Bytes} {nonce : Nat}

/-- An evaluation that returns has recorded a graph with two versions for every iteration. -/
theorem evaluateCapturedVersionedGraph_recorded {H : Hashes} {result : ExecutionResult}
    {graph : CapturedVersionedGraph}
    (h : (evaluateCapturedVersionedGraph H context header nonce : Except (Raised μ) _) =
      .ok (result, graph)) : graph.Recorded (2 * context.params.totalIterations) := by
  have hrun := evaluateOn_records (μ := μ) H context header nonce
    (0, .init context.params.words (context.params.words * context.params.passes)) Records.init
  unfold evaluateCapturedVersionedGraph at h
  split at h
  case h_1 result' memory r heq =>
    rw [heq] at hrun
    obtain ⟨_, _, h⟩ := bind_eq_ok.1 h
    obtain ⟨graph', hgraph, h⟩ := bind_eq_ok.1 h
    obtain ⟨_, -, hgraph⟩ := bind_eq_ok.1 hgraph
    obtain ⟨-, rfl⟩ := Prod.mk.inj (Except.ok.inj h)
    obtain rfl := Except.ok.inj hgraph
    exact ⟨hrun.stream, hrun.producers⟩
  case h_2 => cases h

theorem evaluateCapturedVersionedGraph_isOk (H : Hashes)
    (hcheck : (checkEvaluation context header nonce : Except (Raised μ) Unit) = .ok ())
    (hexec : context.Executable) :
    ∃ result graph, (evaluateCapturedVersionedGraph H context header nonce : Except (Raised μ) _) =
      .ok (result, graph) := by
  have hrun := evaluateOn_records (μ := μ) H context header nonce
    (0, .init context.params.words (context.params.words * context.params.passes)) Records.init
  unfold evaluateCapturedVersionedGraph
  split
  case h_1 result memory r heq =>
    rw [heq] at hrun
    have htotal : 2 * context.params.totalIterations = r.mixIterations * 2 := by
      rw [hrun.mixIterations, Params.totalIterations, Nat.mul_comm]
    have hsummary : (r.summary : Except (Raised μ) Unit) = .ok () := by
      refine require_of_pos ?_ _
      rw [hrun.readEdges, hrun.writeVersions, htotal]
      simp
    have hgraph : (r.capturedGraph : Except (Raised μ) _) = .ok ⟨r.events, r.versionProducers⟩ := by
      rw [VersionedGraphRecorder.capturedGraph, require_of_pos, ok_bind, pure_eq_ok]
      rw [hrun.producers, hrun.writeVersions]
      simp [producerTable]
    rw [hsummary, ok_bind, hgraph, ok_bind]
    exact ⟨_, _, rfl⟩
  case h_2 e t heq =>
    rw [heq] at hrun
    exact absurd hexec (hrun hcheck)

end

end Soveroot.Pow
