import Soveroot.Lib.Check
import Soveroot.Lib.Digits
import Soveroot.Lib.Stateful

/-!
# The proof-of-work machine

`powvm.py`: an epoch prepared from a seed, and the evaluation of one nonce. A mixing iteration reads
two words of the scratchpad and one of the dataset, and writes two words back.

The scratchpad is met through two operations only, so the iteration is written over any `Scratch`:
`evaluate` runs it on a `bytearray`, the attackers of the later modules on caches and replays. A
buffer is the number its bytes spell (`Digits`). SHA3-384 and SHAKE256 are the parameters of
`Hashes`.
-/

namespace Soveroot.Pow

open Py Wire Digits Check

/-- The exceptions of this package: Python's own, and those a module defines for itself. -/
inductive Raised (μ : Type) where
  | valueError (message : String)
  | runtimeError (message : String)
  | structError
  | own (exception : μ)
  deriving DecidableEq

structure Hashes where
  sha3_384 : Bytes → Bytes
  shake_256 : Bytes → Nat → Bytes
  length_sha3_384 : ∀ b, (sha3_384 b).length = 48
  length_shake_256 : ∀ b n, (shake_256 b n).length = n

def mask64 : Nat := 2 ^ 64 - 1
def registerCount : Nat := 8
def scheduleLength : Nat := 64
def finalSampleWords : Nat := 16
def seedBytes : Nat := 48
def maxHeaderBytes : Nat := 4096

/-- A domain is its text and a zero byte. -/
def domain (text : String) : Bytes := encodeAscii (ascii text) ++ [0]

def domainSchedule : Bytes := domain "Soveroot/PowResearch/Schedule/v1"
def domainDataset : Bytes := domain "Soveroot/PowResearch/Dataset/v1"
def domainRegisters : Bytes := domain "Soveroot/PowResearch/Registers/v1"
def domainCommitment : Bytes := domain "Soveroot/PowResearch/Commitment/v1"
def domainResult : Bytes := domain "Soveroot/PowResearch/Result/v1"

/-! ## Parameters and epochs -/

def validateMemorySize {μ : Type} (name : String) (value minimum maximum : Nat) :
    Except (Raised μ) Unit := do
  require (¬ (value < minimum ∨ value > maximum ∨ value &&& (value - 1) ≠ 0))
    (.valueError s!"{name} must be a power of two in [{minimum}, {maximum}]")
  require (value % 8 = 0) (.valueError s!"{name} must be divisible by 8")

structure Params where
  datasetBytes : Nat
  scratchpadBytes : Nat
  passes : Nat
  deriving DecidableEq

namespace Params

def validate {μ : Type} (p : Params) : Except (Raised μ) Unit := do
  validateMemorySize "dataset_bytes" p.datasetBytes (64 * 1024) (64 * 1024 * 1024)
  validateMemorySize "scratchpad_bytes" p.scratchpadBytes (8 * 1024) (8 * 1024 * 1024)
  require (1 ≤ p.passes ∧ p.passes ≤ 16) (.valueError "passes must be in [1, 16]")

/-- What `validate` accepts. -/
structure Valid (p : Params) : Prop where
  datasetBytes : 64 * 1024 ≤ p.datasetBytes ∧ p.datasetBytes ≤ 64 * 1024 * 1024
  datasetBytes_pow : p.datasetBytes &&& (p.datasetBytes - 1) = 0
  datasetBytes_mod : p.datasetBytes % 8 = 0
  scratchpadBytes : 8 * 1024 ≤ p.scratchpadBytes ∧ p.scratchpadBytes ≤ 8 * 1024 * 1024
  scratchpadBytes_pow : p.scratchpadBytes &&& (p.scratchpadBytes - 1) = 0
  scratchpadBytes_mod : p.scratchpadBytes % 8 = 0
  passes : 1 ≤ p.passes ∧ p.passes ≤ 16

variable {p : Params}

theorem validate_eq_ok {μ : Type} {u : Unit} :
    (p.validate : Except (Raised μ) Unit) = .ok u ↔ p.Valid := by
  simp only [validate, validateMemorySize, bind_eq_ok, require_eq_ok, not_or, not_lt, not_not,
    gt_iff_lt]
  constructor
  · rintro ⟨-, ⟨-, ⟨hd, hd', hdp⟩, hdm⟩, -, ⟨-, ⟨hs, hs', hsp⟩, hsm⟩, hp⟩
    exact ⟨⟨hd, hd'⟩, hdp, hdm, ⟨hs, hs'⟩, hsp, hsm, hp⟩
  · intro h
    exact ⟨(),
      ⟨(), ⟨h.datasetBytes.1, h.datasetBytes.2, h.datasetBytes_pow⟩, h.datasetBytes_mod⟩, (),
      ⟨(), ⟨h.scratchpadBytes.1, h.scratchpadBytes.2, h.scratchpadBytes_pow⟩,
        h.scratchpadBytes_mod⟩,
      h.passes⟩

def encode (p : Params) : Bytes :=
  leBytes 8 p.datasetBytes ++ leBytes 8 p.scratchpadBytes ++ leBytes 8 p.passes

def words (p : Params) : Nat := p.scratchpadBytes / 8

/-- The word a selector selects. -/
def word (p : Params) (selector : Nat) : Nat := selector &&& (p.words - 1)

theorem word_lt (h : 0 < p.words) (selector : Nat) : p.word selector < p.words := by
  have := Nat.and_le_right (n := selector) (m := p.words - 1)
  rw [word]
  omega

def totalIterations (p : Params) : Nat := p.words * p.passes

end Params

structure ScheduleEntry where
  opcode : Nat
  immediate : Nat
  deriving DecidableEq, Inhabited

def ScheduleEntry.encode (e : ScheduleEntry) : Bytes := leBytes 1 e.opcode ++ leBytes 8 e.immediate

/-- A `bytes` object, by its length and the number it spells. -/
structure ByteString where
  size : Nat
  value : Nat
  value_lt : value < 256 ^ size

def ByteString.ofBytes (b : Bytes) : ByteString := ⟨b.length, fromBytesLE b, fromBytesLE_lt b⟩

/-- `_read_u64` on a buffer of `size` bytes. -/
def readU64 (size memory selector : Nat) : Nat :=
  digit 64 memory (selector &&& (size / 8 - 1))

def u64 (value : Nat) : Nat := value &&& mask64

/-- `_write_u64` on a buffer of `size` bytes. -/
def writeU64 (size memory selector value : Nat) : Nat :=
  setDigit 64 memory (selector &&& (size / 8 - 1)) (value &&& mask64)

def rol64 (value shift : Nat) : Nat :=
  let shift := shift &&& 63
  let value := value &&& mask64
  if shift = 0 then value else (value <<< shift ||| value >>> (64 - shift)) &&& mask64

/-- `struct.unpack_from` of one little-endian integer of `width` bytes. -/
def unpackFrom (width : Nat) (b : Bytes) (offset : Nat) : Nat :=
  fromBytesLE ((b.drop offset).take width)

/-- An epoch. The lengths that `evaluate` checks are part of the type. -/
structure EpochContext where
  seed : Bytes
  params : Params
  schedule : List ScheduleEntry
  dataset : ByteString
  scheduleDigest : Bytes
  datasetDigest : Bytes
  length_schedule : schedule.length = scheduleLength
  size_dataset : dataset.size = params.datasetBytes

/-- `opcodes[index], opcodes[selected] = opcodes[selected], opcodes[index]`. -/
def swap {α : Type} [Inhabited α] (l : List α) (i j : Nat) : List α :=
  (l.set i (l.getD j default)).set j (l.getD i default)

/-- The shuffle of `_generate_schedule`: position `index` from the last down, a pair of bytes
each. -/
def shuffleOpcodes (raw : Bytes) : List Nat :=
  ((List.range (scheduleLength - 1)).foldl (fun (opcodes, offset) step =>
    let index := scheduleLength - 1 - step
    (swap opcodes index (unpackFrom 2 raw offset % (index + 1)), offset + 2))
    ((List.range scheduleLength).map (· &&& 7), scheduleLength * 8)).1

section

variable (H : Hashes)

def generateSchedule (seed : Bytes) (params : Params) : List ScheduleEntry :=
  let raw := H.shake_256 (domainSchedule ++ seed ++ params.encode)
    (scheduleLength * 8 + (scheduleLength - 1) * 2)
  (List.range scheduleLength).map fun index =>
    ⟨(shuffleOpcodes raw).getD index 0, unpackFrom 8 raw (index * 8)⟩

def validateSeed {μ : Type} (seed : Bytes) : Except (Raised μ) Unit :=
  require (seed.length = seedBytes) (.valueError s!"seed must be exactly {seedBytes} bytes")

def validateHeader {μ : Type} (header : Bytes) : Except (Raised μ) Unit :=
  require (header ≠ [] ∧ header.length ≤ maxHeaderBytes)
    (.valueError s!"header must contain 1 to {maxHeaderBytes} bytes")

def prepareEpoch {μ : Type} (seed : Bytes) (params : Params) : Except (Raised μ) EpochContext := do
  validateSeed seed
  params.validate
  let schedule := generateSchedule H seed params
  let encodedSchedule := schedule.flatMap ScheduleEntry.encode
  let dataset := H.shake_256 (domainDataset ++ seed ++ params.encode) params.datasetBytes
  pure {
    seed, params, schedule
    dataset := .ofBytes dataset
    scheduleDigest := H.sha3_384 encodedSchedule
    datasetDigest := H.sha3_384 dataset
    length_schedule := by simp [schedule, generateSchedule]
    size_dataset := H.length_shake_256 _ _ }

end

/-! ## One iteration -/

def executeOperation {μ : Type} (opcode x y first second datasetWord immediate : Nat) :
    Except (Raised μ) Nat :=
  match opcode with
  | 0 => .ok (u64 (x + y + datasetWord + immediate))
  | 1 => .ok (u64 (x ^^^ rol64 (y + datasetWord) immediate ^^^ first))
  | 2 => .ok (u64 ((x ||| 1) * ((datasetWord ^^^ second ^^^ immediate) ||| 1)))
  | 3 => .ok (rol64 (x ^^^ first ^^^ datasetWord) (y ^^^ second ^^^ immediate))
  | 4 => .ok (u64 ((x + first) ^^^ u64 (datasetWord + second + immediate)))
  | 5 => .ok (u64 (rol64 (x + datasetWord + immediate) first * (y ||| 1)))
  | 6 => .ok (u64 ((x ^^^ second) + rol64 (datasetWord ^^^ immediate) (first ^^^ y)))
  | 7 => .ok (rol64 (u64 ((x ||| 1) * (y ||| 1) + first + second)) (datasetWord ^^^ immediate))
  | _ => .error (.valueError "opcode must be in [0, 7]")

/-- The registers and the accumulator. -/
structure MachineState where
  registers : List Nat
  accumulator : Nat
  deriving DecidableEq

/-- Register `i`, counted around. -/
def MachineState.reg (s : MachineState) (i : Nat) : Nat := s.registers.getD (i &&& 7) 0

namespace EpochContext

variable (context : EpochContext)

def entry (iteration : Nat) : ScheduleEntry :=
  context.schedule.getD (iteration &&& (scheduleLength - 1)) default

def firstSelector (s : MachineState) (iteration : Nat) : Nat :=
  let lane := iteration &&& (registerCount - 1)
  s.reg lane ^^^ rol64 (s.reg (lane + 1)) iteration ^^^ s.accumulator ^^^
    (context.entry iteration).immediate

/-- The dataset word an iteration reads, once it has its first word. -/
def datasetWord (s : MachineState) (passIndex iteration first : Nat) : Nat :=
  let lane := iteration &&& (registerCount - 1)
  readU64 context.dataset.size context.dataset.value
    (first ^^^ s.reg (lane + 3) ^^^ rol64 s.accumulator (lane + passIndex) ^^^ iteration)

def secondSelector (s : MachineState) (passIndex iteration first : Nat) : Nat :=
  let lane := iteration &&& (registerCount - 1)
  context.datasetWord s passIndex iteration first ^^^ s.reg (lane + 5) ^^^
    rol64 (u64 (first + s.accumulator)) (context.entry iteration).immediate

end EpochContext

/-- What an iteration computes from the two words: the new state and the two values to write. -/
structure Mixed where
  state : MachineState
  sequential : Nat
  dependent : Nat

/-- The state and the values of an iteration, from the outcome of its operation. -/
def EpochContext.mixWith (context : EpochContext) (s : MachineState)
    (passIndex iteration first second mixed : Nat) : Mixed :=
  let lane := iteration &&& (registerCount - 1)
  let entry := context.entry iteration
  let datasetWord := context.datasetWord s passIndex iteration first
  let accumulator := u64 (rol64 (s.accumulator ^^^ mixed ^^^ datasetWord)
    (first ^^^ second ^^^ entry.immediate) + first + entry.immediate + iteration)
  let registers := s.registers.set lane (u64 (mixed + accumulator + first))
  let neighbor := (lane + 2) &&& (registerCount - 1)
  { state := {
      registers := registers.set neighbor
        (u64 (registers.getD neighbor 0 ^^^ rol64 (u64 (datasetWord + first)) second))
      accumulator }
    sequential := mixed ^^^ accumulator ^^^ second
    dependent := second ^^^ rol64 (u64 (mixed + accumulator)) datasetWord }

/-- The computation between the reads and the writes of an iteration. -/
def EpochContext.mix {μ : Type} (context : EpochContext) (s : MachineState)
    (passIndex iteration first second : Nat) : Except (Raised μ) Mixed := do
  let lane := iteration &&& (registerCount - 1)
  let entry := context.entry iteration
  let mixed ← executeOperation entry.opcode (s.reg lane) (s.reg (lane + 1)) first second
    (context.datasetWord s passIndex iteration first) entry.immediate
  pure (context.mixWith s passIndex iteration first second mixed)

/-- The schedule has opcodes of the machine, as the one of `prepare_epoch` does. -/
def EpochContext.Executable (context : EpochContext) : Prop :=
  ∀ entry ∈ context.schedule, entry.opcode < 8

theorem EpochContext.entry_mem (context : EpochContext) (iteration : Nat) :
    context.entry iteration ∈ context.schedule := by
  have hlt : iteration &&& (scheduleLength - 1) < context.schedule.length := by
    have := Nat.and_le_right (n := iteration) (m := scheduleLength - 1)
    rw [context.length_schedule]
    simp only [scheduleLength] at *
    omega
  rw [EpochContext.entry, List.getD_eq_getElem?_getD, List.getElem?_eq_getElem hlt]
  exact List.getElem_mem hlt

theorem executeOperation_of_lt {opcode : Nat} (h : opcode < 8)
    (x y first second datasetWord immediate : Nat) :
    ∃ v, ∀ μ : Type,
      (executeOperation opcode x y first second datasetWord immediate : Except (Raised μ) _) =
        .ok v := by
  interval_cases opcode <;> exact ⟨_, fun _ => rfl⟩

/-- What an iteration computes does not depend on the exceptions around it. -/
theorem EpochContext.Executable.mix {context : EpochContext} (h : context.Executable)
    (s : MachineState) (passIndex iteration first second : Nat) :
    ∃ r, ∀ μ : Type,
      (context.mix s passIndex iteration first second : Except (Raised μ) _) = .ok r := by
  obtain ⟨v, hv⟩ := executeOperation_of_lt (h _ (context.entry_mem iteration))
    (s.reg (iteration &&& (registerCount - 1))) (s.reg ((iteration &&& (registerCount - 1)) + 1))
    first second (context.datasetWord s passIndex iteration first)
      (context.entry iteration).immediate
  refine ⟨context.mixWith s passIndex iteration first second v, fun μ => ?_⟩
  rw [EpochContext.mix, hv μ, ok_bind]
  rfl

/-- A scratchpad: an access is told which iteration and slot it is for. The reads of the final
samples are counted on after the iterations. -/
structure Scratch (σ μ : Type) where
  read : (selector consumer slot : Nat) → Stateful σ (Raised μ) Nat
  write : (selector value iteration slot : Nat) → Stateful σ (Raised μ) Unit

section

variable {σ μ : Type}

def mixAt (context : EpochContext) (scratch : Scratch σ μ) (s : MachineState)
    (passIndex wordIndex iteration : Nat) : Stateful σ (Raised μ) MachineState := do
  let first ← scratch.read (context.firstSelector s iteration) iteration 0
  let secondSelector := context.secondSelector s passIndex iteration first
  let second ← scratch.read secondSelector iteration 1
  let r ← Stateful.check (context.mix s passIndex iteration first second)
  scratch.write wordIndex r.sequential iteration 0
  scratch.write secondSelector r.dependent iteration 1
  pure r.state

def mixStep (context : EpochContext) (scratch : Scratch σ μ) (s : MachineState)
    (iteration : Nat) : Stateful σ (Raised μ) MachineState :=
  mixAt context scratch s (iteration / context.params.words)
    (iteration &&& (context.params.words - 1)) iteration

/-! ## The evaluation -/

/-- Where final sample `index` reads. -/
def sampleSelector (s : MachineState) (selector index : Nat) : Nat :=
  u64 (rol64 (selector ^^^ s.reg index) (index + 1) + 0x9E3779B97F4A7C15 + index)

def firstSampleSelector (s : MachineState) : Nat := s.accumulator ^^^ s.reg 0 ^^^ s.reg 4

structure ExecutionResult where
  digest : Bytes
  registers : List Nat
  scheduleDigest : Bytes
  datasetDigest : Bytes
  memoryCommitment : Bytes
  deriving DecidableEq

variable (H : Hashes)

def initialMachineState (context : EpochContext) (headerDigest nonceBytes : Bytes) : MachineState :=
  let raw := H.shake_256
    (domainRegisters ++ context.seed ++ headerDigest ++ nonceBytes ++ context.params.encode)
    (registerCount * 8 + 8)
  { registers := (List.range registerCount).map fun i => unpackFrom 8 raw (i * 8)
    accumulator := unpackFrom 8 raw (registerCount * 8) }

def executionResult (context : EpochContext) (headerDigest nonceBytes : Bytes) (s : MachineState)
    (samples : List Nat) : ExecutionResult :=
  let paramsBytes := context.params.encode
  let encodedRegisters := s.registers.flatMap (leBytes 8)
  let encodedAccumulator := leBytes 8 s.accumulator
  let memoryCommitment := H.sha3_384 (domainCommitment ++ paramsBytes ++ encodedRegisters ++
    encodedAccumulator ++ samples.flatMap (leBytes 8))
  { digest := H.sha3_384 (domainResult ++ context.seed ++ headerDigest ++ nonceBytes ++
    paramsBytes ++
      context.scheduleDigest ++ context.datasetDigest ++ encodedRegisters ++ encodedAccumulator ++
      memoryCommitment)
    registers := s.registers
    scheduleDigest := context.scheduleDigest
    datasetDigest := context.datasetDigest
    memoryCommitment }

/-- The `bytearray` of an evaluation. -/
def scratchpad (params : Params) : Scratch Nat μ where
  read selector _ _ := do pure (readU64 params.scratchpadBytes (← Stateful.read) selector)
  write selector value _ _ :=
    Stateful.update fun memory => writeU64 params.scratchpadBytes memory selector value

def finalSamples (scratch : Scratch σ μ) (s : MachineState) (total : Nat) :
    Stateful σ (Raised μ) (List Nat) := do
  let (_, samples) ← (List.range finalSampleWords).foldlM (fun (selector, samples) index => do
    let selector := sampleSelector s selector index
    let sampled ← scratch.read selector (total + index) 0
    pure (u64 (selector ^^^ sampled), samples ++ [sampled])) (firstSampleSelector s, [])
  pure samples

def mixAll (context : EpochContext) (scratch : Scratch σ μ) (s : MachineState) :
    Stateful σ (Raised μ) MachineState :=
  (List.range context.params.passes).foldlM (fun s passIndex =>
    (List.range context.params.words).foldlM (fun s wordIndex =>
      mixAt context scratch s passIndex wordIndex
        (passIndex * context.params.words + wordIndex)) s) s

variable {context : EpochContext} {scratch : Scratch σ μ} {E : Raised μ → σ → Prop}

theorem mixAll_ensures {I : Nat → MachineState → σ → Prop}
    (h : ∀ s passIndex wordIndex, wordIndex < context.params.words →
      passIndex * context.params.words + wordIndex < context.params.totalIterations →
        Stateful.Ensures (I (passIndex * context.params.words + wordIndex) s)
          (mixAt context scratch s passIndex wordIndex
            (passIndex * context.params.words + wordIndex))
          (I (passIndex * context.params.words + wordIndex + 1)) E) (s : MachineState) :
    Stateful.Ensures (I 0 s) (mixAll context scratch s) (I context.params.totalIterations) E := by
  have houter := Stateful.Ensures.foldlM_range (n := context.params.passes) (E := E)
    (f := fun s passIndex => (List.range context.params.words).foldlM (fun s wordIndex =>
      mixAt context scratch s passIndex wordIndex
        (passIndex * context.params.words + wordIndex)) s)
    (I := fun passIndex => I (passIndex * context.params.words)) (by
      intro passIndex s hpass
      have hle : (passIndex + 1) * context.params.words ≤ context.params.totalIterations := by
        rw [Params.totalIterations, Nat.mul_comm context.params.words]
        exact Nat.mul_le_mul_right _ hpass
      rw [Nat.add_mul, Nat.one_mul] at hle ⊢
      exact Stateful.Ensures.foldlM_range
        (I := fun wordIndex => I (passIndex * context.params.words + wordIndex))
        (fun wordIndex s hword => h s passIndex wordIndex hword (by omega)) s) s
  rw [Nat.zero_mul] at houter
  rw [Params.totalIterations, Nat.mul_comm]
  exact houter

theorem finalSamples_ensures {s : MachineState} {total : Nat} {I : Nat → σ → Prop}
    (h : ∀ index selector, index < finalSampleWords →
      Stateful.Ensures (I index) (scratch.read selector (total + index) 0)
      (fun _ => I (index + 1)) E) :
    Stateful.Ensures (I 0) (finalSamples scratch s total) (fun _ => I finalSampleWords) E := by
  refine .bind (Q := fun _ => I finalSampleWords) (Stateful.Ensures.foldlM_range
    (I := fun index _ => I index) (fun index (selector, samples) hindex => ?_) _)
    fun _ => .pure fun _ h => h
  exact .bind (h index _ hindex) fun _ => .pure fun _ h => h

/-- The checks at the head of `evaluate`. -/
def checkEvaluation (context : EpochContext) (header : Bytes) (nonce : Nat) :
    Except (Raised μ) Unit := do
  validateSeed context.seed
  context.params.validate
  validateHeader header
  require (nonce ≤ mask64) (.valueError "nonce must be an unsigned 64-bit integer")
  require (context.schedule.length = scheduleLength)
    (.valueError "context schedule length is invalid")
  require (context.dataset.size = context.params.datasetBytes)
    (.valueError "context dataset length is invalid")

theorem checkEvaluation_eq_ok {header : Bytes} {nonce : Nat} {u : Unit} :
    (checkEvaluation context header nonce : Except (Raised μ) Unit) = .ok u ↔
      context.seed.length = seedBytes ∧ context.params.Valid ∧
        (header ≠ [] ∧ header.length ≤ maxHeaderBytes) ∧ nonce ≤ mask64 := by
  simp only [checkEvaluation, validateSeed, validateHeader, bind_eq_ok, require_eq_ok,
    Params.validate_eq_ok, context.length_schedule, context.size_dataset, exists_const, and_true]

theorem Params.Valid.words_pos {p : Params} (h : p.Valid) : 0 < p.words := by
  have := h.scratchpadBytes
  simp only [Params.words]
  omega

/-- `evaluate` on any scratchpad. -/
def evaluateOn (context : EpochContext) (scratch : Scratch σ μ) (header : Bytes) (nonce : Nat) :
    Stateful σ (Raised μ) ExecutionResult := do
  Stateful.check (checkEvaluation context header nonce)
  let nonceBytes := leBytes 8 nonce
  let headerDigest := H.sha3_384 header
  let s ← mixAll context scratch (initialMachineState H context headerDigest nonceBytes)
  let samples ← finalSamples scratch s context.params.totalIterations
  pure (executionResult H context headerDigest nonceBytes s samples)

def evaluate (context : EpochContext) (header : Bytes) (nonce : Nat) :
    Except (Raised μ) ExecutionResult :=
  (evaluateOn H context (scratchpad context.params) header nonce 0).1

end

/-! ## The smallest epoch -/

namespace Sample

def hashes : Hashes where
  sha3_384 _ := List.replicate 48 0
  shake_256 _ n := List.replicate n 0
  length_sha3_384 _ := List.length_replicate
  length_shake_256 _ _ := List.length_replicate

/-- The smallest parameters, an addition in every schedule entry, and a dataset of zeros. -/
def context : EpochContext where
  seed := List.replicate 48 0
  params := ⟨64 * 1024, 8 * 1024, 1⟩
  schedule := List.replicate 64 ⟨0, 0⟩
  dataset := ⟨64 * 1024, 0, Nat.pow_pos (by decide)⟩
  scheduleDigest := []
  datasetDigest := []
  length_schedule := List.length_replicate
  size_dataset := rfl

theorem executable_context : context.Executable := by
  intro entry hentry
  rw [List.eq_of_mem_replicate hentry]
  decide

theorem checkEvaluation_context {μ : Type} :
    (checkEvaluation context [0] 0 : Except (Raised μ) Unit) = .ok () := by
  refine checkEvaluation_eq_ok.2 ⟨List.length_replicate, ?_, by decide, by decide⟩
  exact ⟨by decide, by decide, by decide, by decide, by decide, by decide, by decide⟩

end Sample

end Soveroot.Pow
