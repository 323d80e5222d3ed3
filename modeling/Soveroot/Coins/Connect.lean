import Soveroot.Coins.Refine

/-!
# Connecting and disconnecting blocks

`UpdateCoins`, `AddCoins`, `ApplyTxInUndo` and `DisconnectBlock` on the top cache of a stack, with
the undo data that connecting a block records: for every transaction but the coinbase, the coins its
inputs spent. An input is its outpoint, an undo record a coin as `SpendCoin` moved it out (`none`
when it was null already).
-/

namespace Soveroot.Coins

open Py Check

/-- The part of a `CTransaction` that the coin set depends on. -/
structure Tx where
  hash : Digest
  vin : List OutPoint
  vout : List TxOut
  deriving DecidableEq

def zeroHash : Digest := .filled 0

def OutPoint.isNull (o : OutPoint) : Bool := o.hash == zeroHash && o.n == 0xffffffff

def Tx.isCoinBase (tx : Tx) : Bool := tx.vin.length == 1 && tx.vin.all OutPoint.isNull

/-- The outputs of a transaction with the outpoints they get. -/
def Tx.outputs (tx : Tx) : List (OutPoint × TxOut) :=
  tx.vout.zipIdx.map fun (out, i) => (⟨tx.hash, i⟩, out)

abbrev TxUndo := List (Option Coin)

structure Block where
  coinbase : Tx
  others : List Tx
  coinbase_isCoinBase : coinbase.isCoinBase = true
  others_not_coinBase : ∀ tx ∈ others, tx.isCoinBase = false
  deriving DecidableEq

def Block.vtx (block : Block) : List Tx := block.coinbase :: block.others

inductive BlockError where
  | coins (e : CoinsError)
  /-- A failed `assert`. -/
  | assertion (condition : String)
  deriving DecidableEq

def raised {α : Type} (x : Except CoinsError α) : Except BlockError α := x.mapError .coins

/-! ## Connecting -/

/-- The loop of `AddCoins`. -/
def addOutputs (c : Cache) (height : Nat) (coinBase checkForOverwrite : Bool) :
    List (OutPoint × TxOut) → Except CoinsError Cache
  | [] => .ok c
  | (o, out) :: rest => do
      let (overwrite, c) := if checkForOverwrite then c.haveCoin o else (coinBase, c)
      let c ← c.addCoin o ⟨out, coinBase, height⟩ overwrite
      addOutputs c height coinBase checkForOverwrite rest

def addCoins (c : Cache) (tx : Tx) (height : Nat) (checkForOverwrite : Bool) :
    Except CoinsError Cache :=
  addOutputs c height tx.isCoinBase checkForOverwrite tx.outputs

/-- The loop of `HaveInputs`. -/
def haveCoins (c : Cache) : List OutPoint → Bool × Cache
  | [] => (true, c)
  | p :: vin =>
    if (c.haveCoin p).1 then haveCoins (c.haveCoin p).2 vin else (false, (c.haveCoin p).2)

def haveInputs (c : Cache) (tx : Tx) : Bool × Cache :=
  if tx.isCoinBase then (true, c) else haveCoins c tx.vin

/-- The loop of `UpdateCoins` over the inputs. -/
def spendInputs (c : Cache) : List OutPoint → Except BlockError (TxUndo × Cache)
  | [] => .ok ([], c)
  | p :: vin => do
      let ((isSpent, coin), c) := c.spendCoin p
      require (isSpent = true) (.assertion "is_spent")
      let (undo, c) ← spendInputs c vin
      pure (coin :: undo, c)

def updateCoins (tx : Tx) (c : Cache) (height : Nat) : Except BlockError (TxUndo × Cache) := do
  let (undo, c) ← (if tx.isCoinBase then .ok ([], c) else spendInputs c tx.vin)
  let c ← raised (addCoins c tx height false)
  pure (undo, c)

/-- `UpdateCoins` over the transactions of a block, with all they record. -/
def updateAll (height : Nat) : List Tx → Cache → Except BlockError (List TxUndo × Cache)
  | [], c => .ok ([], c)
  | tx :: txs, c => do
      let (undo, c) ← updateCoins tx c height
      let (undos, c) ← updateAll height txs c
      pure (undo :: undos, c)

/-- The coins of a block connected; the record of the coinbase is a dummy and not kept. -/
def connectCoins (block : Block) (height : Nat) (c : Cache) :
    Except BlockError (List TxUndo × Cache) := do
  let (undos, c) ← updateAll height block.vtx c
  pure (undos.tail, c)

/-! ## Disconnecting -/

inductive DisconnectResult where
  | ok
  | unclean
  | failed
  deriving DecidableEq

def resultOf (clean : Bool) : DisconnectResult := if clean then .ok else .unclean

/-- `MAX_BLOCK_WEIGHT / MIN_TRANSACTION_OUTPUT_WEIGHT`. -/
def maxOutputsPerBlock : Nat := 4000000 / 36

/-- The loop of `AccessByTxid`, with `left` outputs to try. -/
def accessFrom (c : Cache) (txid : Digest) : (left : Nat) → Option Coin × Cache
  | 0 => (none, c)
  | left + 1 =>
    match c.accessCoin ⟨txid, maxOutputsPerBlock - (left + 1)⟩ with
    | (some coin, c) => (some coin, c)
    | (none, c) => accessFrom c txid left

def accessByTxid (c : Cache) (txid : Digest) : Option Coin × Cache :=
  accessFrom c txid maxOutputsPerBlock

/-- The height and the coinbase flag of an undo record, looked for elsewhere when they are missing;
`none` is `DISCONNECT_FAILED`. A null record has height zero as well. -/
def completeUndo (undo : Option Coin) (c : Cache) (out : OutPoint) :
    Except BlockError (Option Coin × Cache) :=
  match undo with
  | some coin =>
    if coin.height = 0 then
      let (alternate, c) := accessByTxid c out.hash
      .ok (alternate.map fun a => { coin with height := a.height, coinBase := a.coinBase }, c)
    else .ok (some coin, c)
  | none =>
    match accessByTxid c out.hash with
    | (some _, _) => .error (.assertion "!coin.IsSpent()")
    | (none, c) => .ok (none, c)

def applyTxInUndo (undo : Option Coin) (c : Cache) (out : OutPoint) :
    Except BlockError (DisconnectResult × Cache) := do
  let (have_, c) := c.haveCoin out
  let (undo, c) ← completeUndo undo c out
  match undo with
  | none => pure (.failed, c)
  | some coin =>
    let c ← raised (c.addCoin out coin have_)
    pure (resultOf !have_, c)

def restoreInputs : List (OutPoint × Option Coin) → Bool → Cache →
    Except BlockError (DisconnectResult × Cache)
  | [], clean, c => .ok (resultOf clean, c)
  | (out, undo) :: rest, clean, c => do
      let (res, c) ← applyTxInUndo undo c out
      if res = .failed then pure (.failed, c)
      else restoreInputs rest (clean && decide (res ≠ .unclean)) c

/-- The outputs of a transaction taken back; whether each was there as the block has it. -/
def takeOutputs (height : Nat) (coinBase exception : Bool) :
    List (OutPoint × TxOut) → Bool → Cache → Bool × Cache
  | [], clean, c => (clean, c)
  | (o, out) :: rest, clean, c =>
    if isUnspendable out.scriptPubKey then takeOutputs height coinBase exception rest clean c
    else
      let ((isSpent, coin), c) := c.spendCoin o
      let matched := isSpent && decide (coin = some ⟨out, coinBase, height⟩)
      takeOutputs height coinBase exception rest (clean && (matched || exception)) c

/-- The block index entry that `DisconnectBlock` is given. -/
structure BlockRef where
  height : Nat
  hash : Digest
  prevHash : Digest

/-- A `uint256` from its hexadecimal text, which has the last byte first. -/
def uint256 (text : String) (h : ((fromHex (ascii text)).getD []).length = 32) : Digest :=
  ⟨((fromHex (ascii text)).getD []).reverse, by rw [List.length_reverse, h]⟩

/-- The two blocks whose coinbases were overwritten by later ones. -/
def bip30Blocks : List (Nat × Digest) :=
  [(91722,
    uint256 "00000000000271a2dc26e7667f8419f2e15416dc6955e5a6c6cdf3f2574dd08e" (by decide +kernel)),
    (91812, uint256 "00000000000af0aed4792b1acee3d966af36cf5def14935db8de83d6f9306f2f"
        (by decide +kernel))]

/-- `fEnforceBIP30`. -/
def enforceBip30 (index : BlockRef) : Bool :=
  !bip30Blocks.any fun (height, hash) => index.height == height && index.hash == hash

/-- One transaction undone; the first of a block has no undo record. -/
def disconnectTx (height : Nat) (enforce : Bool) (tx : Tx) (undo : Option TxUndo) (clean : Bool)
    (c : Cache) : Except BlockError (DisconnectResult × Cache) :=
  let exception := tx.isCoinBase && !enforce
  let (clean, c) := takeOutputs height tx.isCoinBase exception tx.outputs clean c
  match undo with
  | none => .ok (resultOf clean, c)
  | some undo =>
    if undo.length ≠ tx.vin.length then .ok (.failed, c)
    else restoreInputs (tx.vin.zip undo).reverse clean c

/-- The loop of `DisconnectBlock`, over the transactions from the last on. -/
def disconnectAll (height : Nat) (enforce : Bool) :
    List (Tx × Option TxUndo) → Bool → Cache → Except BlockError (DisconnectResult × Cache)
  | [], clean, c => .ok (resultOf clean, c)
  | (tx, undo) :: rest, clean, c => do
      let (res, c) ← disconnectTx height enforce tx undo clean c
      if res = .failed then pure (.failed, c)
      else disconnectAll height enforce rest (decide (res = .ok)) c

def withUndo (block : Block) (undos : List TxUndo) : List (Tx × Option TxUndo) :=
  block.vtx.zip (none :: undos.map some)

/-- `DisconnectBlock`, with what `ReadBlockUndo` gave. -/
def disconnectBlock (block : Block) (index : BlockRef)
    (blockUndo : Option (List TxUndo)) (c : Cache) : Except BlockError (DisconnectResult × Cache) :=
  match blockUndo with
  | none => .ok (.failed, c)
  | some undos =>
    if undos.length + 1 ≠ block.vtx.length then .ok (.failed, c)
    else do
      let (res, c) ← disconnectAll index.height (enforceBip30 index)
        (withUndo block undos).reverse true c
      if res = .failed then pure (.failed, c)
      else pure (res, c.setBestBlock (some index.prevHash))

end Soveroot.Coins
