import Soveroot.Miner.Compact
import Soveroot.Miner.Transaction
import Soveroot.Sharechain.Profile

/-!
# Coinbase transactions

Two miners build the coinbase transaction: `build_coinbase` of
`contrib/mining_autonomy/autonomous_labnet_miner.py` and of
`contrib/mining_autonomy/sv2-independent-miner/src/block.rs`. Both return its bytes in the block,
and the two halves of its serialization without witness that a job declaration carries. Each of
them, where it does not refuse, writes one and the same transaction of the node (`coinbaseOf`).
-/

namespace Soveroot.Miner

open Py Check Wire List

/-- What `build_coinbase` returns. -/
structure Coinbase where
  txidHash : Digest
  blockBytes : Bytes
  declarationPrefix : Bytes
  declarationSuffix : Bytes
  serializedOutputs : Bytes

/-- `/Soveroot autonomous labnet v0/`. -/
def coinbaseTag : Bytes := encodeAscii (ascii "/Soveroot autonomous labnet v0/")

def zeros (n : Nat) : Bytes := List.replicate n 0

/-! ## The miner in Python -/

/-- `struct.pack("<q", value)`. -/
def packInt64 (value : Int) : Bytes := leBytes 8 (value % 2 ^ 64).toNat

def encodeVarint (value : Int) : Except Exn Bytes := do
  require (0 ≤ value) (Exn.miningError "variable integers cannot be negative")
  if value < 0xFD then pure (leBytes 1 value.toNat)
  else if value ≤ 0xFFFF then pure (0xfd :: leBytes 2 value.toNat)
  else if value ≤ 0xFFFFFFFF then pure (0xfe :: leBytes 4 value.toNat)
  else if value ≤ 0xFFFFFFFFFFFFFFFF then pure (0xff :: leBytes 8 value.toNat)
  else throw (.miningError "variable integer exceeds uint64")

/-- `while value: result.append(value & 0xFF); value >>= 8`. -/
def scriptBytes (value : Nat) : Bytes :=
  if value = 0 then [] else UInt8.ofNat (value &&& 0xFF) :: scriptBytes (value >>> 8)
termination_by value
decreasing_by
  rename_i h
  rw [Nat.shiftRight_eq_div_pow]
  exact Nat.div_lt_self (Nat.pos_of_ne_zero h) (by decide)

def encodeScriptNumber (value : Int) : Except Exn Bytes := do
  require (0 ≤ value) (Exn.miningError "negative script numbers are not supported")
  if value = 0 then pure []
  else
    let result := scriptBytes value.toNat
    pure (if result.getLastD 0 &&& 0x80 ≠ 0 then result ++ [0] else result)

def pushData (data : Bytes) : Except Exn Bytes :=
  if data.length ≤ 75 then pure (UInt8.ofNat data.length :: data)
  else if data.length ≤ 0xFF then pure (0x4c :: UInt8.ofNat data.length :: data)
  else throw (.miningError "coinbase tag is too large")

def encodeBlockHeight (height : Int) : Except Exn Bytes := do
  require (0 ≤ height) (Exn.miningError "block height cannot be negative")
  if height = 0 then pure [0]
  else if height ≤ 16 then pure [UInt8.ofNat (0x50 + height.toNat)]
  else do pushData (← encodeScriptNumber height)

/-- One round of the loop of `serializeOutputs`. -/
def serializeOutput (output : Int × Bytes) : Except Exn Bytes := do
  require (0 ≤ output.1 ∧ output.1 ≤ 0x7FFFFFFFFFFFFFFF)
    (Exn.miningError "coinbase output value is outside the signed int64 range")
  let length ← encodeVarint output.2.length
  pure (packInt64 output.1 ++ length ++ output.2)

def serializeOutputs (outputs : List (Int × Bytes)) : Except Exn Bytes := do
  let count ← encodeVarint outputs.length
  let items ← outputs.mapM serializeOutput
  pure (count ++ items.flatten)

def directOutputs (value : Int) :
    Option Bytes → Option (List (Int × Bytes)) → Except Exn (List (Int × Bytes))
  | some payoutScript, none => do
      require (payoutScript ≠ []) (Exn.miningError "payout script cannot be empty")
      pure [(value, payoutScript)]
  | none, some payoutOutputs => do
      require (payoutOutputs ≠ []) (Exn.miningError "payout-output plan cannot be empty")
      require (∀ output ∈ payoutOutputs, output.2 ≠ [])
        (Exn.miningError "payout-output scripts cannot be empty")
      require ((payoutOutputs.map Prod.snd).Nodup)
        (Exn.miningError "payout-output scripts must be unique")
      require ((payoutOutputs.map Prod.fst).sum = value)
        (Exn.miningError "payout-output plan does not conserve the coinbase value")
      pure payoutOutputs
  | _, _ => throw (.miningError "supply exactly one payout script or one payout-output plan")

def withCommitment (outputs : List (Int × Bytes)) : Option Bytes → Except Exn (List (Int × Bytes))
  | none => pure outputs
  | some commitment => do
      require (commitment ≠ []) (Exn.miningError "witness commitment script cannot be empty")
      pure (outputs ++ [(0, commitment)])

def buildCoinbase (sha256 : HashFn) (height value : Int) (payoutScript : Option Bytes)
    (payoutOutputs : Option (List (Int × Bytes))) (coinbaseFlags : Bytes)
    (witnessCommitment : Option Bytes) : Except Exn Coinbase := do
  let heightPush ← encodeBlockHeight height
  let tagPush ← pushData coinbaseTag
  let scriptSig := heightPush ++ coinbaseFlags ++ tagPush
  require (2 ≤ scriptSig.length ∧ scriptSig.length ≤ 100)
    (Exn.miningError "coinbase scriptSig must contain between 2 and 100 bytes")
  let direct ← directOutputs value payoutScript payoutOutputs
  let sigLength ← encodeVarint scriptSig.length
  let txInput := zeros 32 ++ leBytes 4 0xFFFFFFFF ++ sigLength ++ scriptSig ++ leBytes 4 0xFFFFFFFF
  let outputs ← withCommitment direct witnessCommitment
  let serializedOutputs ← serializeOutputs outputs
  let inputCount ← encodeVarint 1
  let declarationPrefix :=
    leBytes 4 2 ++ inputCount ++ zeros 32 ++ leBytes 4 0xFFFFFFFF ++ sigLength ++ scriptSig
  let declarationSuffix := leBytes 4 0xFFFFFFFF ++ serializedOutputs ++ leBytes 4 0
  let base := declarationPrefix ++ declarationSuffix
  let blockBytes :=
    if witnessCommitment.isSome then
      leBytes 4 2 ++ [0x00, 0x01] ++ inputCount ++ txInput ++ serializedOutputs ++ [0x01, 0x20] ++
        zeros 32 ++ leBytes 4 0
    else base
  pure ⟨hash256 sha256 base, blockBytes, declarationPrefix, declarationSuffix, serializedOutputs⟩

/-! ## The miner in Rust -/

namespace Rust

/-- A `&[u8]`: at most `isize::MAX` bytes. -/
structure Slice where
  bytes : Bytes
  length_le : bytes.length ≤ 0x7FFFFFFFFFFFFFFF

def encodeVarint (value : UInt64) : Bytes :=
  if value ≤ 0xfc then [value.toUInt8]
  else if value ≤ 0xffff then 0xfd :: leBytes 2 value.toUInt16.toNat
  else if value ≤ 0xffff_ffff then 0xfe :: leBytes 4 value.toUInt32.toNat
  else 0xff :: leBytes 8 value.toNat

def scriptNumber (value : UInt64) : Bytes :=
  if value = 0 then []
  else
    let output := wordBytes value
    if output.getLast?.any (fun byte => byte &&& 0x80 ≠ 0) then output ++ [0] else output

def pushData (bytes : Bytes) : Except String Bytes :=
  if bytes.length ≤ 75 then pure ([UInt8.ofNat bytes.length] ++ bytes)
  else if bytes.length ≤ 255 then pure ([0x4c, UInt8.ofNat bytes.length] ++ bytes)
  else throw "coinbase pushed data exceeds 255 bytes"

def encodedHeight (height : UInt64) : Except String Bytes :=
  if height = 0 then pure [0]
  else if height ≤ 16 then pure [0x50 + height.toUInt8]
  else pushData (scriptNumber height)

/-- One round of the loop of `serializedOutputs`. -/
def serializedOutput (output : UInt64 × Bytes) : Except String Bytes := do
  require (output.1 ≤ 0x7FFFFFFFFFFFFFFF) "coinbase value exceeds signed int64"
  pure (leBytes 8 output.1.toNat ++ encodeVarint (UInt64.ofNat output.2.length) ++ output.2)

def serializedOutputs (outputs : List (UInt64 × Bytes)) : Except String Bytes := do
  let items ← outputs.mapM serializedOutput
  pure (encodeVarint (UInt64.ofNat outputs.length) ++ items.flatten)

def withCommitment (outputs : List (UInt64 × Bytes)) :
    Option Bytes → Except String (List (UInt64 × Bytes))
  | none => pure outputs
  | some commitment => do
      require (commitment ≠ []) "witness commitment is empty"
      pure (outputs ++ [(0, commitment)])

def buildCoinbase (sha256 : HashFn) (height value : UInt64) (payoutScript flags : Slice)
    (witnessCommitment : Option Slice) : Except String Coinbase := do
  require (payoutScript.bytes ≠ []) "payout script is empty"
  let heightPush ← encodedHeight height
  let tagPush ← pushData coinbaseTag
  let scriptSig := heightPush ++ flags.bytes ++ tagPush
  require (2 ≤ scriptSig.length ∧ scriptSig.length ≤ 100)
    "coinbase scriptSig is outside 2..100 bytes"
  let sigLength := encodeVarint (UInt64.ofNat scriptSig.length)
  let input := zeros 32 ++ leBytes 4 0xFFFFFFFF ++ sigLength ++ scriptSig ++ leBytes 4 0xFFFFFFFF
  let outputs ← withCommitment [(value, payoutScript.bytes)] (witnessCommitment.map Slice.bytes)
  let outputs ← serializedOutputs outputs
  let declarationPrefix :=
    leBytes 4 2 ++ encodeVarint 1 ++ zeros 32 ++ leBytes 4 0xFFFFFFFF ++ sigLength ++ scriptSig
  let suffix := leBytes 4 0xFFFFFFFF ++ outputs ++ leBytes 4 0
  let base := declarationPrefix ++ suffix
  let blockBytes :=
    if witnessCommitment.isSome then
      leBytes 4 2 ++ [0, 1] ++ encodeVarint 1 ++ input ++ outputs ++ [1, 32] ++ zeros 32 ++
        leBytes 4 0
    else base
  pure ⟨hash256 sha256 base, blockBytes, declarationPrefix, suffix, outputs⟩

end Rust

/-! ## Integers and scripts -/

open Node (writeCompactSize writeVector writeBytes TxOut)

theorem encodeVarint_natCast (n : Nat) :
    encodeVarint n = if n < 2 ^ 64 then .ok (writeCompactSize n)
      else .error (.miningError "variable integer exceeds uint64") := by
  rw [encodeVarint, require_of_pos (Int.natCast_nonneg n), ok_bind, Int.toNat_natCast]
  have h1 : ((n : Int) < 0xFD) ↔ n < 253 := by omega
  have h2 : ((n : Int) ≤ 0xFFFF) ↔ n ≤ 0xffff := by omega
  have h3 : ((n : Int) ≤ 0xFFFFFFFF) ↔ n ≤ 0xffffffff := by omega
  have h4 : ((n : Int) ≤ 0xFFFFFFFFFFFFFFFF) ↔ n < 2 ^ 64 := by omega
  simp only [h1, h2, h3, h4, writeCompactSize]
  by_cases hn : n < 2 ^ 64
  · rw [if_pos hn, if_pos hn]
    split_ifs <;> rfl
  · rw [if_neg hn, if_neg hn, if_neg (by omega), if_neg (by omega), if_neg (by omega)]
    rfl

variable {n : Nat} {b : Bytes}

theorem encodeVarint_eq_ok : encodeVarint n = .ok b ↔ n < 2 ^ 64 ∧ b = writeCompactSize n := by
  rw [encodeVarint_natCast]
  by_cases hn : n < 2 ^ 64
  · rw [if_pos hn, Except.ok.injEq]
    exact ⟨fun h => ⟨hn, h.symm⟩, fun h => h.2.symm⟩
  · rw [if_neg hn]
    exact iff_of_false (fun h => by cases h) fun h => hn h.1

theorem Rust.encodeVarint_ofNat (h : n < 2 ^ 64) :
    Rust.encodeVarint (UInt64.ofNat n) = writeCompactSize n := by
  have hn : (UInt64.ofNat n).toNat = n := UInt64.toNat_ofNat_of_lt' h
  have h1 : UInt64.ofNat n ≤ 0xfc ↔ n < 253 := by
    rw [UInt64.le_iff_toNat_le, hn]
    exact Nat.lt_succ_iff.symm
  have h2 : UInt64.ofNat n ≤ 0xffff ↔ n ≤ 0xffff := by
    rw [UInt64.le_iff_toNat_le, hn]
    rfl
  have h3 : UInt64.ofNat n ≤ 0xffff_ffff ↔ n ≤ 0xffffffff := by
    rw [UInt64.le_iff_toNat_le, hn]
    rfl
  simp only [Rust.encodeVarint, writeCompactSize, h1, h2, h3]
  by_cases c1 : n < 253
  · rw [if_pos c1, if_pos c1, UInt64.toUInt8_ofNat']
    rfl
  by_cases c2 : n ≤ 0xffff
  · rw [if_neg c1, if_neg c1, if_pos c2, if_pos c2, UInt64.toNat_toUInt16, hn,
      Nat.mod_eq_of_lt (by omega)]
  by_cases c3 : n ≤ 0xffffffff
  · rw [if_neg c1, if_neg c1, if_neg c2, if_neg c2, if_pos c3, if_pos c3,
      UInt64.toNat_toUInt32, hn, Nat.mod_eq_of_lt (by omega)]
  · rw [if_neg c1, if_neg c1, if_neg c2, if_neg c2, if_neg c3, if_neg c3, hn]

theorem wordBytes_eq (value : UInt64) : wordBytes value = scriptBytes value.toNat := by
  fun_induction wordBytes value with
  | case1 =>
    rw [scriptBytes]
    rfl
  | case2 value h ih =>
    have hpos : value.toNat ≠ 0 := fun h0 => h (UInt64.toNat_inj.1 h0)
    have hbyte : (value &&& 0xff).toUInt8 = UInt8.ofNat (value.toNat &&& 0xFF) := by
      rfl
    rw [scriptBytes, if_neg hpos, ih, hbyte, UInt64.toNat_shiftRight]
    rfl

theorem length_scriptBytes_le {k value : Nat} (h : value < 256 ^ k) :
    (scriptBytes value).length ≤ k := by
  induction k generalizing value with
  | zero =>
    obtain rfl : value = 0 := by simpa using h
    rw [scriptBytes, if_pos rfl]
    rfl
  | succ k ih =>
    rw [scriptBytes]
    by_cases h0 : value = 0
    · rw [if_pos h0]
      exact Nat.zero_le _
    · rw [if_neg h0, length_cons, Nat.shiftRight_eq_div_pow]
      exact Nat.succ_le_succ (ih (Nat.div_lt_of_lt_mul (by rwa [Nat.pow_succ'] at h)))

/-- A positive script number: its bytes, and a zero byte where the last one would be read as a
sign. -/
def scriptNumberOf (n : Nat) : Bytes :=
  let result := scriptBytes n
  if result.getLastD 0 &&& 0x80 ≠ 0 then result ++ [0] else result

theorem length_scriptNumberOf_le (h : n < 2 ^ 64) : (scriptNumberOf n).length ≤ 9 := by
  have hlength : (scriptBytes n).length ≤ 8 := length_scriptBytes_le h
  unfold scriptNumberOf
  simp only
  split_ifs
  · rw [length_append, length_singleton]
    omega
  · omega

theorem encodeScriptNumber_natCast (h : n ≠ 0) : encodeScriptNumber n = .ok (scriptNumberOf n) := by
  rw [encodeScriptNumber, require_of_pos (Int.natCast_nonneg n), ok_bind,
    if_neg (Int.natCast_ne_zero.2 h), Int.toNat_natCast]
  rfl

variable {height : UInt64}

theorem Rust.scriptNumber_eq (h : height ≠ 0) :
    Rust.scriptNumber height = scriptNumberOf height.toNat := by
  have hany : ∀ l : Bytes, l.getLast?.any (fun byte => decide (byte &&& 0x80 ≠ 0)) =
      decide (l.getLastD 0 &&& 0x80 ≠ 0) := by
    intro l
    rw [getLastD_eq_getLast?]
    cases l.getLast? <;> rfl
  rw [Rust.scriptNumber, if_neg h, wordBytes_eq, scriptNumberOf]
  simp only [hany, decide_eq_true_eq]

theorem Node.serializeScriptNum_ofNat (h0 : n ≠ 0) (h : n < 2 ^ 63) :
    Node.serializeScriptNum (Int64.ofNat n) = scriptNumberOf n := by
  have hne : Int64.ofNat n ≠ 0 := by
    intro heq
    have := congrArg Int64.toInt heq
    rw [Int64.toInt_ofNat_of_lt h, show (0 : Int64).toInt = 0 from rfl] at this
    omega
  have hneg : ¬ Int64.ofNat n < 0 := by
    have := @Int64.ofNat_lt_iff_lt n 0 h (by decide)
    intro hlt
    exact absurd (this.1 hlt) (Nat.not_lt_zero n)
  have hword : (Int64.ofNat n).toUInt64.toNat = n := by
    rw [Int64.toUInt64_ofNat', UInt64.toNat_ofNat_of_lt' (by exact h.trans (by decide))]
  rw [Node.serializeScriptNum, if_neg hne]
  simp only [hneg, if_false, wordBytes_eq, hword]
  rfl

theorem pushData_scriptNumberOf (h : n < 2 ^ 64) :
    pushData (scriptNumberOf n) = .ok (Node.pushBytes (scriptNumberOf n)) ∧
      Rust.pushData (scriptNumberOf n) = .ok (Node.pushBytes (scriptNumberOf n)) := by
  have hlength := length_scriptNumberOf_le h
  generalize scriptNumberOf n = data at hlength
  have hpush : Node.pushBytes data = UInt8.ofNat data.length :: data := by
    have hsmall : UInt32.ofNat data.length < 0x4c := by
      rw [UInt32.lt_iff_toNat_lt, UInt32.toNat_ofNat_of_lt' (by simp [UInt32.size]; omega)]
      exact lt_of_le_of_lt hlength (by decide)
    rw [Node.pushBytes, Node.appendDataSize, if_pos hsmall, UInt32.toUInt8_ofNat']
    rfl
  rw [hpush, pushData, Rust.pushData, if_pos (by omega), if_pos (by omega)]
  exact ⟨rfl, rfl⟩

theorem Node.pushInt64_small : ∀ n ≤ 16, Node.pushInt64 (Int64.ofNat n) =
    if n = 0 then [0] else [UInt8.ofNat (0x50 + n)] := by decide

theorem Node.pushInt64_large (h16 : 16 < n) (h : n < 2 ^ 63) :
    Node.pushInt64 (Int64.ofNat n) = Node.pushBytes (scriptNumberOf n) := by
  have hint : (Int64.ofNat n).toInt = n := Int64.toInt_ofNat_of_lt h
  have hsmall : ¬ (Int64.ofNat n = -1 ∨ (1 ≤ Int64.ofNat n ∧ Int64.ofNat n ≤ 16)) := by
    rintro (heq | ⟨-, hle⟩)
    · have := congrArg Int64.toInt heq
      rw [hint, show (-1 : Int64).toInt = -1 from rfl] at this
      omega
    · have := Int64.le_iff_toInt_le.1 hle
      rw [hint, show (16 : Int64).toInt = 16 from rfl] at this
      omega
  have hzero : Int64.ofNat n ≠ 0 := by
    intro heq
    have := congrArg Int64.toInt heq
    rw [hint, show (0 : Int64).toInt = 0 from rfl] at this
    omega
  rw [Node.pushInt64, if_neg hsmall, if_neg hzero, Node.serializeScriptNum_ofNat (by omega) h]

/-- **Heights.** Both miners push the height as the node does. -/
theorem encodeBlockHeight_natCast (h : n < 2 ^ 63) :
    encodeBlockHeight n = .ok (Node.pushInt64 (Int64.ofNat n)) := by
  rw [encodeBlockHeight, require_of_pos (Int.natCast_nonneg n), ok_bind, Int.toNat_natCast]
  by_cases h16 : n ≤ 16
  · rw [Node.pushInt64_small n h16]
    by_cases h0 : n = 0
    · rw [if_pos (by omega), if_pos h0]
      rfl
    · rw [if_neg (by omega), if_pos (by omega), if_neg h0]
      rfl
  · rw [Node.pushInt64_large (by omega) h, if_neg (by omega), if_neg (by omega),
      encodeScriptNumber_natCast (by omega), ok_bind,
      (pushData_scriptNumberOf (by omega)).1]

theorem Rust.encodedHeight_eq (h : height.toNat < 2 ^ 63) :
    Rust.encodedHeight height = .ok (Node.pushInt64 (Int64.ofNat height.toNat)) := by
  have hzero : height = 0 ↔ height.toNat = 0 := UInt64.toNat_inj.symm
  have hle : height ≤ 16 ↔ height.toNat ≤ 16 := UInt64.le_iff_toNat_le
  rw [Rust.encodedHeight]
  simp only [hzero, hle]
  by_cases h16 : height.toNat ≤ 16
  · rw [Node.pushInt64_small _ h16]
    by_cases h0 : height.toNat = 0
    · rw [if_pos h0, if_pos h0]
      rfl
    · have hbyte : 0x50 + height.toUInt8 = UInt8.ofNat (0x50 + height.toNat) := by
        rw [UInt8.ofNat_add]
        rfl
      rw [if_neg h0, if_pos h16, if_neg h0, hbyte]
      rfl
  · have hne : height ≠ 0 := fun h0 => h16 (by rw [hzero.1 h0]; decide)
    rw [Node.pushInt64_large (by omega) h, if_neg (by omega), if_neg h16, Rust.scriptNumber_eq hne,
      (pushData_scriptNumberOf (by omega)).2]

/-! ## The transaction that is built -/

def txOut (output : Int × Bytes) : TxOut := ⟨Int64.ofInt output.1, output.2⟩

/-- The coinbase transaction, with the reserved value as its witness or without a witness. -/
def coinbaseTransaction (scriptSig : Bytes) (outputs : List (Int × Bytes)) (witness : Bool) :
    Node.Transaction where
  version := 2
  vin := [⟨⟨⟨zeros 32, rfl⟩, 0xFFFFFFFF⟩, scriptSig, 0xFFFFFFFF,
    if witness then [zeros 32] else []⟩]
  vout := outputs.map txOut
  nLockTime := 0

/-- What both miners return for it. -/
def coinbaseOf (sha256 : HashFn) (scriptSig : Bytes) (outputs : List (Int × Bytes))
    (witness : Bool) : Coinbase where
  txidHash := hash256 sha256 ((coinbaseTransaction scriptSig outputs witness).serialize false)
  blockBytes := (coinbaseTransaction scriptSig outputs witness).serialize true
  declarationPrefix :=
    leBytes 4 2 ++ [1] ++ zeros 32 ++ leBytes 4 0xFFFFFFFF ++ writeBytes scriptSig
  declarationSuffix :=
    leBytes 4 0xFFFFFFFF ++ writeVector TxOut.write (outputs.map txOut) ++ leBytes 4 0
  serializedOutputs := writeVector TxOut.write (outputs.map txOut)

theorem declaration_append (sha256 : HashFn) (scriptSig : Bytes) (outputs : List (Int × Bytes))
    (witness : Bool) :
    (coinbaseOf sha256 scriptSig outputs witness).declarationPrefix ++
        (coinbaseOf sha256 scriptSig outputs witness).declarationSuffix =
      (coinbaseTransaction scriptSig outputs witness).serialize false := by
  simp only [coinbaseOf, coinbaseTransaction, Node.Transaction.serialize, Node.TxIn.write,
    Node.OutPoint.write, Node.writeVector_singleton, Bool.false_and, Bool.false_eq_true, if_false,
    append_nil, append_assoc, cons_append, nil_append]
  rfl

theorem serialize_coinbase_true (scriptSig : Bytes) (outputs : List (Int × Bytes))
    (witness : Bool) :
    (coinbaseTransaction scriptSig outputs witness).serialize true =
      if witness then
        leBytes 4 2 ++ [0x00, 0x01] ++ [1] ++ (zeros 32 ++ leBytes 4 0xFFFFFFFF ++
          writeCompactSize scriptSig.length ++ scriptSig ++ leBytes 4 0xFFFFFFFF) ++
          writeVector TxOut.write (outputs.map txOut) ++ [0x01, 0x20] ++ zeros 32 ++ leBytes 4 0
      else (coinbaseTransaction scriptSig outputs witness).serialize false := by
  cases witness with
  | false => rfl
  | true =>
    simp only [coinbaseTransaction, Node.Transaction.serialize, Node.Transaction.hasWitness,
      Node.TxIn.write, Node.OutPoint.write, Node.writeVector_singleton, Node.writeVector_nil,
      any_cons, any_nil, if_true, isEmpty_cons, Bool.not_false, Bool.or_false,
      Bool.and_self, flatMap_singleton, append_assoc, cons_append, nil_append,
      writeBytes]
    rfl

theorem coinbaseOf_eq (sha256 : HashFn) (scriptSig : Bytes) (outputs : List (Int × Bytes))
    (witness : Bool) {serializedOutputs declarationPrefix declarationSuffix : Bytes}
    (houtputs : serializedOutputs = writeVector TxOut.write (outputs.map txOut))
    (hfront : declarationPrefix = leBytes 4 2 ++ [1] ++ zeros 32 ++ leBytes 4 0xFFFFFFFF ++
      writeCompactSize scriptSig.length ++ scriptSig)
    (hback : declarationSuffix = leBytes 4 0xFFFFFFFF ++ serializedOutputs ++ leBytes 4 0) :
    coinbaseOf sha256 scriptSig outputs witness =
      ⟨hash256 sha256 (declarationPrefix ++ declarationSuffix),
        if witness then
          leBytes 4 2 ++ [0x00, 0x01] ++ [1] ++ (zeros 32 ++ leBytes 4 0xFFFFFFFF ++
            writeCompactSize scriptSig.length ++ scriptSig ++ leBytes 4 0xFFFFFFFF) ++
            serializedOutputs ++ [0x01, 0x20] ++ zeros 32 ++ leBytes 4 0
        else declarationPrefix ++ declarationSuffix,
        declarationPrefix, declarationSuffix, serializedOutputs⟩ := by
  subst houtputs
  have hp : (coinbaseOf sha256 scriptSig outputs witness).declarationPrefix =
      declarationPrefix := by
    rw [hfront, coinbaseOf, writeBytes, append_assoc (_ ++ leBytes 4 0xFFFFFFFF)]
  have hs : (coinbaseOf sha256 scriptSig outputs witness).declarationSuffix = declarationSuffix :=
    hback.symm
  rw [← hp, ← hs, declaration_append, ← serialize_coinbase_true]
  rfl

/-! ## What is accepted -/

/-- The outputs can be written. -/
def Writable (outputs : List (Int × Bytes)) : Prop :=
  outputs.length < 2 ^ 64 ∧
    ∀ output ∈ outputs, (0 ≤ output.1 ∧ output.1 ≤ 0x7FFFFFFFFFFFFFFF) ∧ output.2.length < 2 ^ 64

theorem write_txOut (h : n < 2 ^ 63) (script : Bytes) :
    (txOut (n, script)).write = leBytes 8 n ++ writeBytes script := by
  have hword : (Int64.ofInt n).toUInt64.toNat = n := by
    rw [Int64.ofInt_eq_ofNat, Int64.toUInt64_ofNat',
      UInt64.toNat_ofNat_of_lt' (h.trans (by decide))]
  rw [txOut, TxOut.write, hword]

theorem serializeOutput_eq_ok {output : Int × Bytes} : serializeOutput output = .ok b ↔
      ((0 ≤ output.1 ∧ output.1 ≤ 0x7FFFFFFFFFFFFFFF) ∧ output.2.length < 2 ^ 64) ∧
        b = (txOut output).write := by
  simp only [serializeOutput, bind_eq_ok, require_eq_ok, exists_const, encodeVarint_eq_ok,
    pure_eq_ok, Except.ok.injEq, and_assoc]
  refine and_assoc.symm.trans (Iff.trans (and_congr_right fun hvalue => ?_) and_assoc)
  obtain ⟨value, script⟩ := output
  obtain ⟨n, rfl⟩ := Int.eq_ofNat_of_zero_le hvalue.1
  have hpack : packInt64 n = leBytes 8 n := by
    rw [packInt64, Int.emod_eq_of_lt hvalue.1 (by omega), Int.toNat_natCast]
  constructor
  · rintro ⟨_, hlength, rfl, rfl⟩
    exact ⟨hlength, append_assoc _ _ _⟩
  · rintro ⟨hlength, rfl⟩
    exact ⟨_, hlength, rfl, append_assoc _ _ _⟩

theorem serializeOutputs_eq_ok {outputs : List (Int × Bytes)} : serializeOutputs outputs = .ok b ↔
      Writable outputs ∧ b = writeVector TxOut.write (outputs.map txOut) := by
  simp only [serializeOutputs, bind_eq_ok, encodeVarint_eq_ok,
    mapM_eq_ok_iff fun _ _ _ => serializeOutput_eq_ok, pure_eq_ok, Except.ok.injEq]
  have hflat : writeVector TxOut.write (outputs.map txOut) =
      writeCompactSize outputs.length ++ (outputs.map fun o => (txOut o).write).flatten := by
    rw [writeVector, length_map, flatMap_def, map_map]
    rfl
  rw [hflat]
  constructor
  · rintro ⟨_, ⟨hcount, rfl⟩, _, ⟨hall, rfl⟩, rfl⟩
    exact ⟨⟨hcount, hall⟩, rfl⟩
  · rintro ⟨⟨hcount, hall⟩, rfl⟩
    exact ⟨_, ⟨hcount, rfl⟩, _, ⟨hall, rfl⟩, rfl⟩

/-- The script of the input: the height, the flags of the template and the tag. -/
def scriptSigOf (push flags : Bytes) : Bytes := push ++ flags ++ 31 :: coinbaseTag

/-- The bounds on the script of a coinbase input. -/
def IsScriptSig (scriptSig : Bytes) : Prop := 2 ≤ scriptSig.length ∧ scriptSig.length ≤ 100

theorem pushData_tag : pushData coinbaseTag = .ok (31 :: coinbaseTag) := rfl

theorem Rust.pushData_tag : Rust.pushData coinbaseTag = .ok (31 :: coinbaseTag) := rfl

theorem encodeVarint_one : encodeVarint 1 = .ok [1] := rfl

section Accepted

variable {sha256 : HashFn} {flags : Bytes} {c : Coinbase} {value : Int} {commitment : Option Bytes}

variable {height : Int} {payoutScript : Option Bytes} {payoutOutputs : Option (List (Int × Bytes))}

theorem buildCoinbase_eq_ok :
    buildCoinbase sha256 height value payoutScript payoutOutputs flags commitment = .ok c ↔
      ∃ push direct outputs, encodeBlockHeight height = .ok push ∧
        IsScriptSig (scriptSigOf push flags) ∧
        directOutputs value payoutScript payoutOutputs = .ok direct ∧
        withCommitment direct commitment = .ok outputs ∧ Writable outputs ∧
        c = coinbaseOf sha256 (scriptSigOf push flags) outputs commitment.isSome := by
  simp only [buildCoinbase, bind_eq_ok, pushData_tag, Except.ok.injEq, exists_eq_left',
    require_eq_ok, exists_const, encodeVarint_eq_ok, encodeVarint_one, serializeOutputs_eq_ok,
    pure_eq_ok]
  constructor
  · rintro ⟨push, hpush, hsig, direct, hdirect, _, ⟨-, rfl⟩, outputs, houtputs, _,
      ⟨hwritable, rfl⟩, rfl⟩
    exact ⟨push, direct, outputs, hpush, hsig, hdirect, houtputs, hwritable,
      (coinbaseOf_eq sha256 _ outputs _ rfl rfl rfl).symm⟩
  · rintro ⟨push, direct, outputs, hpush, hsig, hdirect, houtputs, hwritable, rfl⟩
    have hlength : (scriptSigOf push flags).length < 2 ^ 64 := lt_of_le_of_lt hsig.2 (by decide)
    exact ⟨push, hpush, hsig, direct, hdirect, _, ⟨hlength, rfl⟩, outputs, houtputs, _,
      ⟨hwritable, rfl⟩, (coinbaseOf_eq sha256 _ outputs _ rfl rfl rfl).symm⟩

theorem buildCoinbase_of_error {push : Bytes} {e : Exn}
    (hpush : encodeBlockHeight height = .ok push) (hsig : IsScriptSig (scriptSigOf push flags))
    (hdirect : directOutputs value payoutScript payoutOutputs = .error e) :
    buildCoinbase sha256 height value payoutScript payoutOutputs flags commitment = .error e := by
  have hbounds : 2 ≤ (push ++ flags ++ 31 :: coinbaseTag).length ∧
      (push ++ flags ++ 31 :: coinbaseTag).length ≤ 100 := hsig
  simp only [buildCoinbase, hpush, pushData_tag, hdirect, require_of_pos hbounds, ok_bind,
    error_bind]

theorem Rust.serializedOutput_eq_ok {output : UInt64 × Bytes} (h : output.2.length < 2 ^ 64)
    {b : Bytes} : Rust.serializedOutput output = .ok b ↔
      output.1.toNat < 2 ^ 63 ∧ b = (txOut (output.1.toNat, output.2)).write := by
  have hle : output.1 ≤ 0x7FFFFFFFFFFFFFFF ↔ output.1.toNat < 2 ^ 63 := by
    exact Nat.lt_succ_iff.symm
  simp only [Rust.serializedOutput, bind_eq_ok, require_eq_ok, exists_const, pure_eq_ok,
    Except.ok.injEq, hle, Rust.encodeVarint_ofNat h]
  refine and_congr_right fun hvalue => ?_
  rw [write_txOut hvalue, writeBytes, ← append_assoc]
  exact eq_comm

variable {outputs : List (UInt64 × Bytes)}

theorem Rust.serializedOutputs_eq_ok {b : Bytes} (hcount : outputs.length < 2 ^ 64)
    (h : ∀ output ∈ outputs, output.2.length < 2 ^ 64) :
    Rust.serializedOutputs outputs = .ok b ↔ (∀ output ∈ outputs, output.1.toNat < 2 ^ 63) ∧
      b = writeVector TxOut.write (outputs.map fun output => txOut (output.1.toNat, output.2)) := by
  simp only [Rust.serializedOutputs, bind_eq_ok,
    mapM_eq_ok_iff fun output hmem _ => Rust.serializedOutput_eq_ok (h output hmem), pure_eq_ok,
    Except.ok.injEq, Rust.encodeVarint_ofNat hcount]
  have hflat :
    writeVector TxOut.write (outputs.map fun output => txOut (output.1.toNat, output.2)) =
      writeCompactSize outputs.length ++
        (outputs.map fun output => (txOut (output.1.toNat, output.2)).write).flatten := by
    rw [writeVector, length_map, flatMap_def, map_map]
    rfl
  rw [hflat]
  constructor
  · rintro ⟨_, ⟨hall, rfl⟩, rfl⟩
    exact ⟨hall, rfl⟩
  · rintro ⟨hall, rfl⟩
    exact ⟨_, ⟨hall, rfl⟩, rfl⟩

/-- The outputs of a block: the payouts, and the witness commitment behind them. -/
def committed (direct : List (Int × Bytes)) (commitment : Option Bytes) : List (Int × Bytes) :=
  direct ++ commitment.toList.map fun script => (0, script)

variable {direct : List (Int × Bytes)}

theorem withCommitment_eq_ok {outputs : List (Int × Bytes)} :
    withCommitment direct commitment = .ok outputs ↔
      commitment ≠ some [] ∧ committed direct commitment = outputs := by
  cases commitment with
  | none => simp [withCommitment, committed]
  | some script => simp [withCommitment, committed, bind_eq_ok, require_eq_ok]

theorem Rust.withCommitment_eq_ok {direct : List (UInt64 × Bytes)} :
    Rust.withCommitment direct commitment = .ok outputs ↔
      commitment ≠ some [] ∧
        direct ++ commitment.toList.map (fun script => (0, script)) = outputs := by
  cases commitment with
  | none => simp [Rust.withCommitment]
  | some script => simp [Rust.withCommitment, bind_eq_ok, require_eq_ok]

theorem Rust.buildCoinbase_eq_ok {height value : UInt64} {payoutScript flags : Rust.Slice}
    {commitment : Option Rust.Slice} (hvalue : value.toNat < 2 ^ 63) :
    Rust.buildCoinbase sha256 height value payoutScript flags commitment = .ok c ↔
      ∃ push, Rust.encodedHeight height = .ok push ∧
        IsScriptSig (scriptSigOf push flags.bytes) ∧ payoutScript.bytes ≠ [] ∧
        commitment.map Rust.Slice.bytes ≠ some [] ∧
        c = coinbaseOf sha256 (scriptSigOf push flags.bytes)
          (committed [(value.toNat, payoutScript.bytes)] (commitment.map Rust.Slice.bytes))
          commitment.isSome := by
  have hbound : ∀ s : Rust.Slice, s.bytes.length < 2 ^ 64 := fun s =>
    lt_of_le_of_lt s.length_le (by decide)
  have houtputs : ∀ {b : Bytes}, Rust.serializedOutputs ([(value, payoutScript.bytes)] ++
      (commitment.map Rust.Slice.bytes).toList.map fun script => (0, script)) = .ok b ↔
      b = writeVector TxOut.write ((committed [(value.toNat, payoutScript.bytes)]
        (commitment.map Rust.Slice.bytes)).map txOut) := by
    intro b
    cases commitment with
    | none =>
      rw [Rust.serializedOutputs_eq_ok (by simp) (by simpa using hbound payoutScript)]
      simpa [committed] using fun _ => hvalue
    | some script =>
      rw [Rust.serializedOutputs_eq_ok (by simp)
        (by simpa using ⟨hbound payoutScript, hbound script⟩)]
      simpa [committed] using fun _ => hvalue
  have hlength : ∀ {push : Bytes}, IsScriptSig (scriptSigOf push flags.bytes) →
      Rust.encodeVarint (UInt64.ofNat (scriptSigOf push flags.bytes).length) =
        writeCompactSize (scriptSigOf push flags.bytes).length := fun hsig =>
    Rust.encodeVarint_ofNat (lt_of_le_of_lt hsig.2 (by decide))
  simp only [Rust.buildCoinbase, bind_eq_ok, require_eq_ok, exists_const, Rust.pushData_tag,
    Except.ok.injEq, exists_eq_left', Rust.withCommitment_eq_ok, pure_eq_ok]
  constructor
  · rintro ⟨hscript, push, hpush, hsig, _, ⟨hcommitment, rfl⟩, b, hb, rfl⟩
    refine ⟨push, hpush, hsig, hscript, hcommitment, ?_⟩
    have hsig' := hlength hsig
    rw [scriptSigOf] at hsig'
    rw [hsig', houtputs.1 hb]
    exact (coinbaseOf_eq sha256 _ _ _ rfl rfl rfl).symm
  · rintro ⟨push, hpush, hsig, hscript, hcommitment, rfl⟩
    refine ⟨hscript, push, hpush, hsig, _, ⟨hcommitment, rfl⟩, _, houtputs.2 rfl, ?_⟩
    have hsig' := hlength hsig
    rw [scriptSigOf] at hsig'
    rw [hsig']
    exact (coinbaseOf_eq sha256 _ _ _ rfl rfl rfl).symm

theorem directOutputs_script {script : Bytes} :
    directOutputs value (some script) none = .ok direct ↔
      script ≠ [] ∧ [(value, script)] = direct := by
  simp [directOutputs, bind_eq_ok, require_eq_ok]

theorem writable_committed {value : Nat} (hvalue : value < 2 ^ 63) (script : Rust.Slice)
    (commitment : Option Rust.Slice) :
    Writable (committed [(value, script.bytes)] (commitment.map Rust.Slice.bytes)) := by
  have hbound : ∀ s : Rust.Slice, s.bytes.length < 2 ^ 64 := fun s =>
    lt_of_le_of_lt s.length_le (by decide)
  have hscript : ((0 : Int) ≤ value ∧ (value : Int) ≤ 0x7FFFFFFFFFFFFFFF) ∧
      script.bytes.length < 2 ^ 64 := ⟨by omega, hbound script⟩
  cases commitment with
  | none =>
    refine ⟨by simp [committed], fun output hmem => ?_⟩
    obtain rfl : output = (↑value, script.bytes) := by simpa [committed] using hmem
    exact hscript
  | some commitment =>
    refine ⟨by simp [committed], fun output hmem => ?_⟩
    obtain rfl | rfl : output = (↑value, script.bytes) ∨ output = (0, commitment.bytes) := by
      simpa [committed] using hmem
    · exact hscript
    · exact ⟨⟨le_rfl, (by decide : (0 : Int) ≤ 0x7FFFFFFFFFFFFFFF)⟩, hbound commitment⟩

end Accepted

/-- **The miners agree.** For every height and value below `2 ^ 63`, either both miners refuse or
both return the same coinbase. Its declaration is the serialization without witness of a
transaction, the bytes for the block are its serialization with witness, and its input starts with
the height as the node pushes it. -/
theorem miners_agree (sha256 : HashFn) (height value : UInt64) (hheight : height.toNat < 2 ^ 63)
    (hvalue : value.toNat < 2 ^ 63) (payoutScript flags : Rust.Slice)
    (commitment : Option Rust.Slice) :
    (buildCoinbase sha256 height.toNat value.toNat (some payoutScript.bytes) none flags.bytes
          (commitment.map Rust.Slice.bytes)).toOption =
        (Rust.buildCoinbase sha256 height value payoutScript flags commitment).toOption ∧
      encodeBlockHeight height.toNat = .ok (Node.pushInt64 (Int64.ofNat height.toNat)) ∧
      Rust.encodedHeight height = .ok (Node.pushInt64 (Int64.ofNat height.toNat)) ∧
      ∀ c, Rust.buildCoinbase sha256 height value payoutScript flags commitment = .ok c →
        ∃ tx : Node.Transaction, tx.hasWitness = commitment.isSome ∧
          c.declarationPrefix ++ c.declarationSuffix = tx.serialize false ∧
          c.blockBytes = tx.serialize true ∧ c.txidHash = hash256 sha256 (tx.serialize false) ∧
          ∃ input rest, tx.vin = [input] ∧
            input.scriptSig = Node.pushInt64 (Int64.ofNat height.toNat) ++ rest := by
  have hpython := encodeBlockHeight_natCast hheight
  have hrust := Rust.encodedHeight_eq hheight
  refine ⟨?_, hpython, hrust, fun c hc => ?_⟩
  · refine Option.ext fun c => ?_
    rw [toOption_eq_some, toOption_eq_some, Rust.buildCoinbase_eq_ok hvalue, buildCoinbase_eq_ok,
      hpython, hrust, Option.isSome_map]
    simp only [directOutputs_script, withCommitment_eq_ok, Except.ok.injEq]
    constructor
    · rintro ⟨push, _, _, hpush, hsig, ⟨hscript, rfl⟩, ⟨hcommitment, rfl⟩, -, rfl⟩
      exact ⟨push, hpush, hsig, hscript, hcommitment, rfl⟩
    · rintro ⟨push, hpush, hsig, hscript, hcommitment, rfl⟩
      exact ⟨push, _, _, hpush, hsig, ⟨hscript, rfl⟩, ⟨hcommitment, rfl⟩,
        writable_committed hvalue payoutScript commitment, rfl⟩
  · obtain ⟨push, hpush, -, -, -, rfl⟩ := (Rust.buildCoinbase_eq_ok hvalue).1 hc
    obtain rfl := Except.ok.inj (hrust.symm.trans hpush)
    refine ⟨coinbaseTransaction _ _ _, ?_, declaration_append sha256 _ _ _, rfl, rfl, _, _, rfl,
      append_assoc _ _ _⟩
    cases commitment <;> rfl

/-- Height three hundred, one output and a witness commitment. -/
theorem miners_agree_example :
    (Rust.buildCoinbase Sha256.sha256 300 5000 ⟨[0x51], by decide⟩ ⟨[], by decide⟩
        (some ⟨[0x6a], by decide⟩)).toOption.isSome ∧
      (buildCoinbase Sha256.sha256 300 5000 (some [0x51]) none [] (some [0x6a])).toOption =
        (Rust.buildCoinbase Sha256.sha256 300 5000 ⟨[0x51], by decide⟩ ⟨[], by decide⟩
          (some ⟨[0x6a], by decide⟩)).toOption :=
  ⟨by decide +kernel, (miners_agree Sha256.sha256 300 5000 (by decide) (by decide)
    ⟨[0x51], by decide⟩ ⟨[], by decide⟩ (some ⟨[0x6a], by decide⟩)).1⟩

end Soveroot.Miner
