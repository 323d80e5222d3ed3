import Soveroot.Pow.Machine

/-!
# The instruction schedule

`_generate_schedule` shuffles eight copies of eight opcodes, with two bytes of the hash output for
each swap. A swap permutes whatever its bytes say, so every schedule is balanced. `GenerateSchedule`
of `powvm_v1.cpp` reads the same bytes in its own way.
-/

namespace Soveroot.Pow

open Py Wire List

variable (H : Hashes) (seed : Bytes) (params : Params)

/-- The output that `_generate_schedule` requests. -/
def scheduleRaw : Bytes :=
  H.shake_256 (domainSchedule ++ seed ++ params.encode)
    (scheduleLength * 8 + (scheduleLength - 1) * 2)

theorem swap_perm {l : List Nat} {i j : Nat} (hi : i < l.length) (hj : j < l.length) :
    (swap l i j).Perm l := by
  simpa [swap, hi, hj] using set_set_perm hi hj

theorem shuffleOpcodes_perm (raw : Bytes) :
    (shuffleOpcodes raw).Perm ((range scheduleLength).map (· &&& 7)) := by
  refine foldlRecOn (motive := fun s : List Nat × Nat => s.1.Perm _) _ _ (.refl _) ?_
  rintro ⟨opcodes, offset⟩ h step -
  have hlength := h.length_eq.trans (by decide : _ = 64)
  have hmod := Nat.mod_lt (unpackFrom 2 raw offset) (64 - 1 - step).succ_pos
  exact .trans (swap_perm (by grind [scheduleLength]) (by grind [scheduleLength])) h

/-! ## The bytes read -/

/-- What `_generate_schedule` does with the output, and the positions its `unpack_from` calls
read. -/
def scheduleNoted (raw : Bytes) : List ScheduleEntry × List Nat :=
  let (opcodes, _, read) := (range (scheduleLength - 1)).foldl (fun (opcodes, offset, read) step =>
    let index := scheduleLength - 1 - step
    (swap opcodes index (unpackFrom 2 raw offset % (index + 1)), offset + 2, read ++
      range' offset 2))
    ((range scheduleLength).map (· &&& 7), scheduleLength * 8, [])
  ((range scheduleLength).map fun index => ⟨opcodes.getD index 0, unpackFrom 8 raw (index * 8)⟩,
    read ++ (range scheduleLength).flatMap fun index => range' (index * 8) 8)

theorem foldl_noted (f : List Nat → Nat → Nat → List Nat) (l opcodes read : List Nat)
    (offset : Nat) :
    l.foldl (fun (opcodes, offset, read) step =>
        (f opcodes offset step, offset + 2, read ++ range' offset 2)) (opcodes, offset, read) =
      ((l.foldl (fun (opcodes, offset) step => (f opcodes offset step, offset + 2))
        (opcodes, offset)).1,
        offset + l.length * 2, read ++ range' offset (l.length * 2)) := by
  induction l generalizing opcodes read offset with
  | nil => simp
  | cons step l ih =>
    rw [foldl_cons, ih, foldl_cons, append_assoc, range'_append_1, length_cons]
    grind

theorem flatMap_range' (n : Nat) :
    (range n).flatMap (fun index => range' (index * 8) 8) = range (n * 8) := by
  induction n with
  | zero => simp
  | succ n ih =>
    rw [range_succ, flatMap_append, ih, Nat.succ_mul, range_eq_range',
      range_eq_range', ← range'_append_1,
      flatMap_singleton, Nat.zero_add]

theorem scheduleNoted_eq (raw : Bytes) :
    scheduleNoted raw = ((range scheduleLength).map fun index =>
        ⟨(shuffleOpcodes raw).getD index 0, unpackFrom 8 raw (index * 8)⟩,
      range' (scheduleLength * 8) ((scheduleLength - 1) * 2) ++ range (scheduleLength * 8)) := by
  simp only [scheduleNoted, shuffleOpcodes, foldl_noted fun opcodes offset step => swap opcodes
    (scheduleLength - 1 - step) (unpackFrom 2 raw offset % (scheduleLength - 1 - step + 1)),
    flatMap_range', length_range, nil_append]

theorem map_opcode_scheduleNoted (raw : Bytes) : (scheduleNoted raw).1.map (·.opcode) =
    shuffleOpcodes raw := by
  have hlength : (shuffleOpcodes raw).length = scheduleLength := by
    simpa using (shuffleOpcodes_perm raw).length_eq
  rw [scheduleNoted_eq, map_map]
  exact ext_getElem (by simp [hlength]) fun i _ hi => by simp [hi]

namespace Cpp

def readLE64 (data : Bytes) : Nat :=
  (range 8).foldl (fun value i => value ||| (data.getD i 0).toNat <<< (8 * i)) 0

/-- `GenerateSchedule`. `EncodeParams` writes the bytes of `Params.encode`. -/
def generateSchedule : List ScheduleEntry :=
  let raw := scheduleRaw H seed params
  let (opcodes, _) := (range' 1 (scheduleLength - 1)).reverse.foldl (fun (opcodes, offset) i =>
    let randomValue := (raw.getD offset 0).toNat ||| (raw.getD (offset + 1) 0).toNat <<< 8
    (swap opcodes i (randomValue % (i + 1)), offset + 2))
    ((range scheduleLength).map (· &&& 7), scheduleLength * 8)
  (range scheduleLength).map fun i => ⟨opcodes.getD i 0, readLE64 (raw.drop (i * 8))⟩

theorem foldl_or_eq (data : Bytes) (k : Nat) :
    (range k).foldl (fun value i => value ||| (data.getD i 0).toNat <<< (8 * i)) 0 =
      fromBytesLE (data.take k) := by
  induction k with
  | zero => rfl
  | succ k ih =>
    -- the bytes before `k` stay below bit `8 * k`, so the disjunction is a sum
    have hlt : fromBytesLE (data.take k) < 2 ^ (8 * k) := by
      rw [Nat.pow_mul]
      exact (fromBytesLE_lt _).trans_le (Nat.pow_le_pow_right (by decide) (length_take_le ..))
    rw [range_succ, foldl_append, ih, foldl_cons, foldl_nil, Nat.or_comm,
      ← Nat.shiftLeft_add_eq_or_of_lt hlt, take_add_one, fromBytesLE_append, Nat.shiftLeft_eq,
      Nat.pow_mul]
    by_cases hk : k < data.length
    · simp [hk, Nat.add_comm, Nat.mul_comm, min_eq_left hk.le]
    · simp [hk]

theorem generateSchedule_eq :
    generateSchedule H seed params = Pow.generateSchedule H seed params := by
  have hpair (raw : Bytes) (offset : Nat) :
      (raw.getD offset 0).toNat ||| (raw.getD (offset + 1) 0).toNat <<< 8 =
        unpackFrom 2 raw offset := by
    simpa [range_succ, unpackFrom] using foldl_or_eq (raw.drop offset) 2
  have hindex : (range' 1 (scheduleLength - 1)).reverse =
      (range (scheduleLength - 1)).map (scheduleLength - 1 - ·) := by decide
  simp only [generateSchedule, hpair, hindex, foldl_map]
  exact map_congr_left fun i _ => congrArg (ScheduleEntry.mk _) (foldl_or_eq _ 8)

end Cpp

/-- Whatever bytes drive the shuffle, every opcode has eight entries. The run reads every byte that
it requested once and no other, and the C++ schedule is the same. -/
theorem generateSchedule_balanced :
    (∀ (raw : Bytes) (opcode : Fin 8),
      ((scheduleNoted raw).1.map (·.opcode)).count opcode.val = 8) ∧
    ∀ (H : Hashes) (seed : Bytes) (params : Params),
      (scheduleNoted (scheduleRaw H seed params)).1 = generateSchedule H seed params ∧
      (scheduleNoted (scheduleRaw H seed params)).2.Perm
      (range (scheduleRaw H seed params).length) ∧
      Cpp.generateSchedule H seed params = generateSchedule H seed params := by
  refine ⟨fun raw opcode => ?_, fun H seed params => ⟨?_, ?_, Cpp.generateSchedule_eq ..⟩⟩
  · rw [map_opcode_scheduleNoted, (shuffleOpcodes_perm raw).count_eq]
    revert opcode
    decide
  · rw [scheduleNoted_eq]
    rfl
  · rw [scheduleNoted_eq, scheduleRaw, H.length_shake_256]
    simp only [range_eq_range']
    rw [← range'_append_1, Nat.zero_add]
    exact perm_append_comm

end Soveroot.Pow
