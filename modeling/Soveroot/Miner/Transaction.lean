import Soveroot.Lib.Hex
import Soveroot.Lib.Sha256

/-!
# Transactions of the node

How the node writes scripts and transactions: `CScript() << n` of `src/script/script.h`,
`WriteCompactSize` of `src/serialize.h` and `SerializeTransaction` of
`src/primitives/transaction.h`. A transaction has two serializations; the one without the witness
stacks is what its identifier hashes.
-/

namespace Soveroot.Miner

open Py Wire

/-- `while (value) { result.push_back(value & 0xff); value >>= 8; }` of a 64-bit word. -/
def wordBytes (value : UInt64) : Bytes :=
  if value = 0 then [] else (value &&& 0xff).toUInt8 :: wordBytes (value >>> 8)
termination_by value.toNat
decreasing_by
  rename_i h
  have hpos : value.toNat ≠ 0 := fun h0 => h (UInt64.toNat_inj.1 h0)
  rw [UInt64.toNat_shiftRight, show (8 : UInt64).toNat % 64 = 8 from rfl, Nat.shiftRight_eq_div_pow]
  exact Nat.div_lt_self (Nat.pos_of_ne_zero hpos) (by decide)

namespace Node

/-! ## Scripts -/

/-- `CScriptNum::serialize`. -/
def serializeScriptNum (value : Int64) : Bytes :=
  if value = 0 then []
  else
    let neg := value < 0
    let absvalue := if neg then ~~~value.toUInt64 + 1 else value.toUInt64
    let result := wordBytes absvalue
    if result.getLastD 0 &&& 0x80 ≠ 0 then result ++ [if neg then 0x80 else 0]
    else if neg then result.dropLast ++ [result.getLastD 0 ||| 0x80]
    else result

def appendDataSize (size : UInt32) : Bytes :=
  if size < 0x4c then [size.toUInt8]
  else if size ≤ 0xff then [0x4c, size.toUInt8]
  else if size ≤ 0xffff then 0x4d :: leBytes 2 size.toNat
  else 0x4e :: leBytes 4 size.toNat

/-- `CScript() << data`. -/
def pushBytes (data : Bytes) : Bytes := appendDataSize (UInt32.ofNat data.length) ++ data

/-- `CScript() << n`: `CScript::push_int64`. -/
def pushInt64 (n : Int64) : Bytes :=
  if n = -1 ∨ (1 ≤ n ∧ n ≤ 16) then [(n + 0x50).toUInt64.toUInt8]
  else if n = 0 then [0]
  else pushBytes (serializeScriptNum n)

/-! ## Transactions -/

def writeCompactSize (nSize : Nat) : Bytes :=
  if nSize < 253 then leBytes 1 nSize
  else if nSize ≤ 0xffff then 253 :: leBytes 2 nSize
  else if nSize ≤ 0xffffffff then 254 :: leBytes 4 nSize
  else 255 :: leBytes 8 nSize

def writeVector {α : Type} (write : α → Bytes) (items : List α) : Bytes :=
  writeCompactSize items.length ++ items.flatMap write

def writeBytes (data : Bytes) : Bytes := writeCompactSize data.length ++ data

@[simp] theorem writeVector_nil {α : Type} (write : α → Bytes) : writeVector write [] = [0] := rfl

@[simp] theorem writeVector_singleton {α : Type} (write : α → Bytes) (a : α) :
    writeVector write [a] = 1 :: write a := by
  rw [writeVector, List.flatMap_singleton]
  rfl

/-- `COutPoint`. -/
structure OutPoint where
  hash : Digest
  n : UInt32

/-- `CTxIn`, with its witness stack. -/
structure TxIn where
  prevout : OutPoint
  scriptSig : Bytes
  nSequence : UInt32
  scriptWitness : List Bytes

/-- `CTxOut`. -/
structure TxOut where
  nValue : Int64
  scriptPubKey : Bytes

/-- `CTransaction`. -/
structure Transaction where
  version : UInt32
  vin : List TxIn
  vout : List TxOut
  nLockTime : UInt32

def OutPoint.write (p : OutPoint) : Bytes := p.hash.bytes ++ leBytes 4 p.n.toNat

def TxIn.write (i : TxIn) : Bytes :=
  i.prevout.write ++ writeBytes i.scriptSig ++ leBytes 4 i.nSequence.toNat

def TxOut.write (o : TxOut) : Bytes :=
  leBytes 8 o.nValue.toUInt64.toNat ++ writeBytes o.scriptPubKey

def Transaction.hasWitness (tx : Transaction) : Bool := tx.vin.any fun i => !i.scriptWitness.isEmpty

/-- `SerializeTransaction`. -/
def Transaction.serialize (allowWitness : Bool) (tx : Transaction) : Bytes :=
  let flags := allowWitness && tx.hasWitness
  leBytes 4 tx.version.toNat ++
    (if flags then writeVector TxIn.write [] ++ [1] else []) ++
    writeVector TxIn.write tx.vin ++ writeVector TxOut.write tx.vout ++
    (if flags then tx.vin.flatMap fun i => writeVector writeBytes i.scriptWitness else []) ++
    leBytes 4 tx.nLockTime.toNat

end Node

end Soveroot.Miner
