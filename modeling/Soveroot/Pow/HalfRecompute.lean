import Soveroot.Pow.Machine

/-!
# Half the scratchpad

`StaticHalfRecomputeScratchpad` of `powvm_v1.cpp` keeps the even words of the scratchpad only. A
read of an odd word replays the evaluation from its start, as far as the reads say it has come
(`half`). The iteration is the one of `powvm.py`, in `uint64_t`; an `std::invalid_argument` is a
`valueError`, and so is the `std::logic_error` of an opcode the machine does not have.
-/

namespace Soveroot.Pow

open Py Wire Digits Check Stateful

/-- What is evaluated. -/
structure Evaluation where
  hashes : Hashes
  context : EpochContext
  header : Bytes
  nonce : Nat

structure RecomputationStats where
  retainedReads : Nat := 0
  retainedWrites : Nat := 0
  recomputedReads : Nat := 0
  discardedWrites : Nat := 0
  replayedIterations : Nat := 0
  logicalRetainedBytes : Nat
  replayWorkspaceBytes : Nat
  peakScratchBytes : Nat

/-- `StaticHalfRecomputeScratchpad`. Beside the source, it notes for each read the iterations it
took for completed, with the iteration or sample that reads. -/
structure HalfRecompute where
  reads : Nat
  retained : Nat
  stats : RecomputationStats
  counted : List (Nat × Nat)

namespace Evaluation

variable {σ : Type} (e : Evaluation)

def params : Params := e.context.params

/-- `Validate`, and the checks of `EvaluateWithScratchpad`. -/
def validate : Except (Raised Empty) Unit := do
  let outside (value minimum maximum : Nat) : Prop :=
    ¬ (value ≠ 0 ∧ value &&& (value - 1) = 0) ∨ value < minimum ∨ value > maximum
  require (e.context.seed.length = seedBytes) (.valueError "seed must be exactly 48 bytes")
  require (¬ outside e.params.datasetBytes (64 * 1024) (64 * 1024 * 1024))
    (.valueError "dataset_bytes is outside the v1 research envelope")
  require (¬ outside e.params.scratchpadBytes (8 * 1024) (8 * 1024 * 1024))
    (.valueError "scratchpad_bytes is outside the v1 research envelope")
  require (1 ≤ e.params.passes ∧ e.params.passes ≤ 16) (.valueError "invalid pass count")
  require (e.header ≠ [] ∧ e.header.length ≤ maxHeaderBytes)
    (.valueError "header size is outside the v1 research envelope")
  require (e.context.dataset.size = e.params.datasetBytes)
    (.valueError "context dataset length is invalid")

/-- `InitializeMachineState`. -/
def start : MachineState :=
  initialMachineState e.hashes e.context (e.hashes.sha3_384 e.header) (leBytes 8 e.nonce)

/-- The first `n` iterations. -/
def iterations (scratch : Scratch σ Empty) (n : Nat) : Stateful σ (Raised Empty) MachineState :=
  (List.range n).foldlM (mixStep e.context scratch) e.start

/-- The loops and the final samples of `EvaluateWithScratchpad`. -/
def execute (scratch : Scratch σ Empty) : Stateful σ (Raised Empty) ExecutionResult := do
  let s ← (List.range e.params.passes).foldlM (fun s pass =>
    (List.range e.params.words).foldlM (fun s word =>
      mixStep e.context scratch s (pass * e.params.words + word)) s) e.start
  let samples ← finalSamples scratch s e.params.totalIterations
  pure (executionResult e.hashes e.context (e.hashes.sha3_384 e.header)
    (leBytes 8 e.nonce) s samples)

/-- `EvaluateWithScratchpad`, and the scratchpad at the end. -/
def evaluateWithScratchpad (scratch : Scratch σ Empty) (construct : Except (Raised Empty) σ) :
    Except (Raised Empty) (ExecutionResult × σ) := do
  e.validate
  let (result, st) := e.execute scratch (← construct)
  return (← result, st)

/-- `FullScratchpad`. -/
def full : Scratch Nat Empty := scratchpad e.params

def evaluate : Except (Raised Empty) ExecutionResult :=
  Prod.fst <$> e.evaluateWithScratchpad e.full (.ok 0)

def replayScratchWord (completedIterations selector : Nat) : Except (Raised Empty) Nat :=
  ((e.iterations e.full completedIterations >>= fun _ => e.full.read selector 0 0) 0).1

/-- The constructor of `StaticHalfRecomputeScratchpad`. -/
def newHalf : Except (Raised Empty) HalfRecompute := do
  let bytes := e.params.scratchpadBytes
  require (bytes % 16 = 0)
    (.valueError "half-recompute scratchpad must contain an even number of words")
  pure ⟨0, 0, {
    logicalRetainedBytes := bytes / 2
    replayWorkspaceBytes := bytes
    peakScratchBytes := bytes + bytes / 2 }, []⟩

/-- Its `Read` and `Write`. -/
def half : Scratch HalfRecompute Empty where
  read selector consumer _ := fun st =>
    let word := e.params.word selector
    let completed := min (st.reads / 2) e.params.totalIterations
    let st := { st with reads := st.reads + 1, counted := (consumer, completed) :: st.counted }
    if word % 2 = 0 then
      (.ok (digit 64 st.retained (word / 2)),
        { st with stats.retainedReads := st.stats.retainedReads + 1 })
    else
      (e.replayScratchWord completed word,
        { st with
          stats.recomputedReads := st.stats.recomputedReads + 1
          stats.replayedIterations := st.stats.replayedIterations + completed })
  write selector value _ _ := Stateful.update fun st =>
    let word := e.params.word selector
    if word % 2 = 0 then
      { st with
        retained := setDigit 64 st.retained (word / 2) (u64 value)
        stats.retainedWrites := st.stats.retainedWrites + 1 }
    else { st with stats.discardedWrites := st.stats.discardedWrites + 1 }

def evaluateHalfRecompute : Except (Raised Empty) (ExecutionResult × RecomputationStats) :=
  Prod.map id HalfRecompute.stats <$> e.evaluateWithScratchpad e.half e.newHalf

/-! ## The half answers like the whole -/

/-- The even words are those of the whole scratchpad. -/
def Retains (st : HalfRecompute) (memory : Nat) : Prop :=
  ∀ word, word % 2 = 0 → digit 64 st.retained (word / 2) = digit 64 memory word

/-- Every read took the iterations before it for completed: those before the iteration that reads,
or all of them for a final sample. -/
def Counted (st : HalfRecompute) : Prop := ∀ c ∈ st.counted, c.2 = min c.1 e.params.totalIterations

/-- The half after `n` iterations. -/
structure Follows (n memory : Nat) (st : HalfRecompute) : Prop where
  reads : st.reads = 2 * n
  retains : Retains st memory
  counted : e.Counted st

variable {e} {n memory : Nat} {s : MachineState} {st : HalfRecompute}

/-- After `n` iterations, and as many reads, a read of the half answers like one of the whole. -/
theorem half_read (consumer : Nat) (hrun : e.iterations e.full n 0 = (.ok s, memory))
    (hreads : min (st.reads / 2) e.params.totalIterations = n)
    (hconsumer : min consumer e.params.totalIterations = n) (hretains : Retains st memory)
    (hcounted : e.Counted st) (selector slot : Nat) :
    ∃ st', e.half.read selector consumer slot st =
        (.ok (readU64 e.params.scratchpadBytes memory selector), st') ∧
      st'.reads = st.reads + 1 ∧ Retains st' memory ∧ e.Counted st' := by
  have hcount : ∀ c ∈ (consumer, n) :: st.counted, c.2 = min c.1 e.params.totalIterations := by
    intro c hc
    rcases List.mem_cons.1 hc with rfl | hc
    · exact hconsumer.symm
    · exact hcounted c hc
  simp only [half, hreads]
  by_cases heven : e.params.word selector % 2 = 0
  · rw [if_pos heven]
    exact ⟨_, Prod.ext (congrArg Except.ok (hretains _ heven)) rfl, rfl, hretains, hcount⟩
  · -- the replay reaches the state the evaluation is in, and reads the word there
    have hreplay : e.replayScratchWord n (e.params.word selector) =
        .ok (readU64 e.params.scratchpadBytes memory (e.params.word selector)) := by
      rw [replayScratchWord, bind_apply, hrun]
      rfl
    rw [if_neg heven, hreplay, readU64, Params.word, Params.words, Nat.and_assoc, Nat.and_self]
    exact ⟨_, rfl, rfl, hretains, hcount⟩

theorem half_write (hretains : Retains st memory) (selector value iteration slot : Nat) :
    ∃ st', e.half.write selector value iteration slot st = (.ok (), st') ∧
      st'.reads = st.reads ∧ st'.counted = st.counted ∧
      Retains st' (writeU64 e.params.scratchpadBytes memory selector value) := by
  have hvalue : u64 value < 2 ^ 64 := Nat.lt_succ_of_le (Nat.and_le_right (m := mask64))
  have hwrite : ∀ word, digit 64 (writeU64 e.params.scratchpadBytes memory selector value) word =
      if word = e.params.word selector then u64 value else digit 64 memory word :=
    fun word => digit_setDigit hvalue
  refine ⟨_, rfl, ?_, ?_, ?_⟩ <;> by_cases heven : e.params.word selector % 2 = 0 <;>
    simp only [heven, if_true, if_false]
  · intro word hword
    have hiff : word / 2 = e.params.word selector / 2 ↔ word = e.params.word selector := by omega
    rw [hwrite, digit_setDigit hvalue]
    simp only [hiff, hretains word hword]
  · intro word hword
    rw [hwrite, if_neg (by rintro rfl; exact heven hword)]
    exact hretains word hword

theorem Follows.mixStep (hrun : e.iterations e.full n 0 = (.ok s, memory))
    (hn : n < e.params.totalIterations) (hst : e.Follows n memory st) :
    ∃ st', mixStep e.context e.half s n st = ((mixStep e.context e.full s n memory).1, st') ∧
      e.Counted st' ∧ ∀ s' memory', mixStep e.context e.full s n memory = (.ok s', memory') →
        e.Follows (n + 1) memory' st' := by
  obtain ⟨st₁, hfirst, hreads₁, hretains₁, hcounted₁⟩ := half_read n hrun
    (by rw [hst.reads]; omega) (by omega) hst.retains hst.counted (e.context.firstSelector s n) 0
  set first := readU64 e.params.scratchpadBytes memory (e.context.firstSelector s n)
  obtain ⟨st₂, hsecond, hreads₂, hretains₂, hcounted₂⟩ := half_read n hrun
    (by rw [hreads₁, hst.reads]; omega) (by omega) hretains₁ hcounted₁
    (e.context.secondSelector s (n / e.context.params.words) n first) 1
  have hfull : ∀ selector consumer slot memory, e.full.read selector consumer slot memory =
      (.ok (readU64 e.params.scratchpadBytes memory selector), memory) := fun _ _ _ _ => rfl
  simp only [Pow.mixStep, mixAt, bind_apply, hfirst, hsecond, hfull, Stateful.next,
    Stateful.check]
  rcases e.context.mix s (n / e.context.params.words)
    n first (readU64 e.params.scratchpadBytes memory
    (e.context.secondSelector s (n / e.context.params.words) n first)) with _ | r
  · exact ⟨st₂, rfl, hcounted₂, by rintro _ _ ⟨⟩⟩
  · obtain ⟨st₃, hseq, hreads₃, hcounted₃, hretains₃⟩ := half_write (e := e) hretains₂
      (n &&& (e.context.params.words - 1)) r.sequential n 0
    obtain ⟨st₄, hdep, hreads₄, hcounted₄, hretains₄⟩ := half_write (e := e) hretains₃
      (e.context.secondSelector s (n / e.context.params.words) n first) r.dependent n 1
    have hcounted : e.Counted st₄ := by
      rw [Counted, hcounted₄, hcounted₃]
      exact hcounted₂
    simp only [hseq, hdep]
    refine ⟨st₄, rfl, hcounted, ?_⟩
    rintro s' memory' ⟨⟩
    refine ⟨?_, hretains₄, hcounted⟩
    rw [hreads₄, hreads₃, hreads₂, hreads₁, hst.reads]
    omega

theorem Follows.iterations (hst : e.Follows 0 0 st) (hn : n ≤ e.params.totalIterations) :
    ∃ st', e.iterations e.half n st = ((e.iterations e.full n 0).1, st') ∧ e.Counted st' ∧
      ∀ s memory, e.iterations e.full n 0 = (.ok s, memory) → e.Follows n memory st' := by
  induction n with
  | zero => exact ⟨st, rfl, hst.counted, by rintro _ _ ⟨⟩; exact hst⟩
  | succ n ih =>
    obtain ⟨st₁, hhalf, hcounted, hfollows⟩ := ih (by omega)
    simp only [Evaluation.iterations] at hhalf hfollows ⊢
    rw [foldlM_range_succ, foldlM_range_succ, hhalf]
    rcases hrun : (List.range n).foldlM (Pow.mixStep e.context e.full) e.start 0 with
      ⟨_ | s, memory⟩
    · exact ⟨st₁, rfl, hcounted, by rintro _ _ ⟨⟩⟩
    · exact Follows.mixStep hrun (by omega) (hfollows s memory hrun)

theorem half_finalSamples (hrun :
    e.iterations e.full e.params.totalIterations 0 = (.ok s, memory)) :
    Stateful.Agree (fun _ => False) (fun st' memory' => memory' = memory ∧ Retains st' memory ∧
        2 * e.params.totalIterations ≤ st'.reads ∧ e.Counted st')
      (finalSamples e.half s e.params.totalIterations)
      (finalSamples e.full s e.params.totalIterations) := by
  refine .bind (.foldlM (fun x index => ?_) _ _) fun x => .pure _
  refine .bind ?_ fun sampled => .pure _
  rintro st _ ⟨rfl, hretains, hreads, hcounted⟩
  obtain ⟨st', hread, hreads', hretains', hcounted'⟩ :=
    half_read (e.params.totalIterations + index) hrun
    (by omega) (by omega) hretains hcounted (sampleSelector s x.1 index) 0
  rw [hread]
  exact .inr ⟨rfl, rfl, hretains', by change _ ≤ st'.reads; omega, hcounted'⟩

theorem execute_eq (scratch : Scratch σ Empty) : e.execute scratch =
    e.iterations scratch e.params.totalIterations >>= fun s =>
      finalSamples scratch s e.params.totalIterations >>= fun samples =>
        pure (executionResult e.hashes e.context (e.hashes.sha3_384 e.header) (leBytes 8 e.nonce) s
          samples) := by
  have hloops := foldlM_range_mul (Pow.mixStep e.context scratch) e.params.passes
    e.params.words e.start
  rw [Nat.mul_comm] at hloops
  simp only [execute, hloops]
  rfl

theorem Follows.execute (hst : e.Follows 0 0 st) :
    (e.execute e.half st).1 = (e.execute e.full 0).1 ∧ e.Counted (e.execute e.half st).2 := by
  obtain ⟨st₁, hhalf, hcounted, hfollows⟩ := hst.iterations le_rfl
  rw [execute_eq, execute_eq, bind_apply, bind_apply, hhalf]
  rcases hrun : e.iterations e.full e.params.totalIterations 0 with ⟨_ | s, memory⟩
  · exact ⟨rfl, hcounted⟩
  · have hfollows := hfollows s memory hrun
    have htail := Stateful.Agree.bind (half_finalSamples hrun) fun samples =>
      Stateful.Agree.pure (executionResult e.hashes e.context (e.hashes.sha3_384 e.header)
        (leBytes 8 e.nonce) s samples)
    rcases htail st₁ memory ⟨rfl, hfollows.retains, hfollows.reads.ge, hfollows.counted⟩ with
      ⟨_, _, hfalse⟩ | ⟨hout, -, -, -, hend⟩
    · exact hfalse.elim
    · rw [Stateful.next, Stateful.next]
      exact ⟨hout, hend⟩

/-- What is checked before leaves an even number of words. -/
theorem scratchpadBytes_mod_of_validate {u : Unit} (h : e.validate = .ok u) :
    e.params.scratchpadBytes % 16 = 0 := by
  simp only [validate, bind_eq_ok, require_eq_ok, not_or, not_not, not_lt] at h
  obtain ⟨-, -, -, -, -, ⟨⟨hne, hpow⟩, hmin, -⟩, -⟩ := h
  obtain ⟨k, hk⟩ := (Nat.and_sub_one_eq_zero_iff_isPowerOfTwo hne).1 hpow
  rw [hk] at hmin ⊢
  have hle : 4 ≤ k := by
    by_contra hlt
    have := Nat.pow_le_pow_right (n := 2) (by decide) (show k ≤ 3 by omega)
    omega
  exact Nat.mod_eq_zero_of_dvd (Nat.pow_dvd_pow 2 hle)

theorem follows_newHalf (hst : e.newHalf = .ok st) : e.Follows 0 0 st := by
  obtain ⟨-, -, hst⟩ := bind_eq_ok.1 hst
  obtain rfl := Except.ok.inj hst
  exact ⟨rfl, fun word _ => by rw [digit_zero, digit_zero], fun c hc => absurd hc List.not_mem_nil⟩

/-- Dropping the odd words does not change the result, and every read counts the completed
iterations right. -/
theorem half_recompute_agrees (e : Evaluation) :
    Prod.fst <$> e.evaluateHalfRecompute = e.evaluate ∧
      ∀ st, e.newHalf = .ok st → e.Counted (e.execute e.half st).2 := by
  refine ⟨?_, fun st hst => (follows_newHalf hst).execute.2⟩
  rw [evaluateHalfRecompute, evaluate, evaluateWithScratchpad, evaluateWithScratchpad]
  cases hcheck : e.validate with
  | error _ => rfl
  | ok u =>
    obtain ⟨st, hst⟩ : ∃ st, e.newHalf = .ok st := by
      rw [newHalf, require, if_pos (scratchpadBytes_mod_of_validate hcheck)]
      exact ⟨_, rfl⟩
    rw [hst]
    simp only [ok_bind]
    rw [(follows_newHalf hst).execute.1]
    cases (e.execute e.full 0).1 <;> rfl

end Evaluation

end Soveroot.Pow
