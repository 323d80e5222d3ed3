import Mathlib.Logic.Function.Basic
import Soveroot.Lib.Check
import Soveroot.Lib.Sha256

/-!
# Stacks of coin caches

`coins.h` and `coins.cpp`: a `CCoinsViewCache` keeps the coins it has fetched or changed in a map
and stands on another view. A spent coin stays in the map as a null coin until the layer below has
been told, unless the entry is `FRESH`.

A view is a base map under any number of layers. A null coin is `none`, and the circular list of
flagged entries is the list of their outpoints. The accounting of memory is left out.
-/

namespace Soveroot.Coins

open Py Check

deriving instance DecidableEq for Digest

structure OutPoint where
  hash : Digest
  n : Nat
  deriving DecidableEq

/-- A `CTxOut` that is not null: `nValue` is `-1` in the null output only. -/
structure TxOut where
  value : Int
  scriptPubKey : Bytes
  value_ne : value ≠ -1
  deriving DecidableEq

def opReturn : UInt8 := 0x6a
def maxScriptSize : Nat := 10000

def isUnspendable (script : Bytes) : Bool :=
  script.head? == some opReturn || decide (script.length > maxScriptSize)

/-- A `Coin` that is not spent. -/
structure Coin where
  out : TxOut
  coinBase : Bool
  height : Nat
  deriving DecidableEq

abbrev CoinMap := OutPoint → Option Coin

/-- `CCoinsCacheEntry`; the coin is `none` when it is spent. -/
structure Entry where
  coin : Option Coin
  dirty : Bool
  fresh : Bool
  deriving DecidableEq

/-- The members of a `CCoinsViewCache` that are its own. -/
structure Layer where
  /-- `cacheCoins` -/
  coins : OutPoint → Option Entry
  /-- The linked list behind `m_sentinel`. -/
  flagged : List OutPoint
  /-- `m_dirty_count` -/
  dirtyCount : Nat
  /-- `hashBlock`, `none` when it is null. -/
  hashBlock : Option Digest

inductive CoinsError where
  | logicError (message : String)
  deriving DecidableEq

def overwriteError : CoinsError :=
  .logicError "Attempted to overwrite an unspent coin (when possible_overwrite is false)"
def freshMisapplied : CoinsError :=
  .logicError "FRESH flag misapplied to coin that exists in parent cache"
def notCleared : CoinsError := .logicError "Not all unspent flagged entries were cleared"

namespace Layer

def empty : Layer := ⟨fun _ => none, [], 0, none⟩

def put (l : Layer) (o : OutPoint) (e : Entry) : Layer :=
  { l with coins := Function.update l.coins o (some e) }

/-- `CCoinsCacheEntry::AddFlags`: an entry that had no flag is linked in before the sentinel. -/
def addFlags (l : Layer) (o : OutPoint) (dirty fresh : Bool) : Layer :=
  match l.coins o with
  | none => l
  | some e =>
    let l := if e.dirty || e.fresh then l else { l with flagged := l.flagged ++ [o] }
    l.put o { e with dirty := e.dirty || dirty, fresh := e.fresh || fresh }

def setDirty (l : Layer) (o : OutPoint) : Layer := l.addFlags o true false
def setFresh (l : Layer) (o : OutPoint) : Layer := l.addFlags o false true

def setClean (l : Layer) (o : OutPoint) : Layer :=
  match l.coins o with
  | none => l
  | some e =>
    if e.dirty || e.fresh then
      { l with flagged := l.flagged.erase o }.put o { e with dirty := false, fresh := false }
    else l

/-- `cacheCoins.erase`; the destructor of the entry takes it out of the list. -/
def erase (l : Layer) (o : OutPoint) : Layer :=
  let l := l.setClean o
  { l with coins := Function.update l.coins o none }

/-- `cacheCoins.clear()`, with the destructors of all entries. -/
def clear (l : Layer) : Layer :=
  { l with coins := fun _ => none, flagged := l.flagged.filter fun o => (l.coins o).isNone }

/-- `TrySub(m_dirty_count, flag)`. -/
def subDirty (l : Layer) (flag : Bool) : Layer :=
  { l with dirtyCount := l.dirtyCount - flag.toNat }

/-- `++m_dirty_count`. -/
def countDirty (l : Layer) : Layer := { l with dirtyCount := l.dirtyCount + 1 }

end Layer

/-- A view: a map of coins with its best block, or a cache on another view. -/
inductive View where
  | base (coins : CoinMap) (best : Option Digest)
  | cache (layer : Layer) (below : View)

/-- A `CCoinsViewCache` object. -/
structure Cache where
  layer : Layer
  below : View

def Cache.view (c : Cache) : View := .cache c.layer c.below

/-! ## Lookups -/

/-- `FetchCoin`, given what the view below answers and becomes when it is asked. -/
def fetchFrom (l : Layer) (below : View) (o : OutPoint) (fetched : Option Coin × View) :
    Option Entry × Cache :=
  match l.coins o with
  | some e => (some e, ⟨l, below⟩)
  | none =>
    match fetched with
    | (some coin, below) =>
      (some ⟨some coin, false, false⟩, ⟨l.put o ⟨some coin, false, false⟩, below⟩)
    | (none, below) => (none, ⟨l, below⟩)

/-- The unspent coin of a fetched entry. -/
def unspentOf (e : Option Entry) : Option Coin := e.bind Entry.coin

namespace View

/-- `GetCoin`. It may fill the caches it passes. -/
def getCoin : View → OutPoint → Option Coin × View
  | base coins best, o => (coins o, base coins best)
  | cache l below, o =>
    let (e, c) := fetchFrom l below o (below.getCoin o)
    (unspentOf e, c.view)

def peekCoin : View → OutPoint → Option Coin
  | base coins _, o => coins o
  | cache l below, o => (l.coins o).elim (below.peekCoin o) Entry.coin

end View

namespace Cache

def fetchCoin (c : Cache) (o : OutPoint) : Option Entry × Cache :=
  fetchFrom c.layer c.below o (c.below.getCoin o)

def getCoin (c : Cache) (o : OutPoint) : Option Coin × Cache :=
  let (e, c) := c.fetchCoin o
  (unspentOf e, c)

/-- `AccessCoin`; the empty coin is `none`. -/
def accessCoin (c : Cache) (o : OutPoint) : Option Coin × Cache := c.getCoin o

def haveCoin (c : Cache) (o : OutPoint) : Bool × Cache :=
  let (e, c) := c.fetchCoin o
  ((unspentOf e).isSome, c)

def peekCoin (c : Cache) (o : OutPoint) : Option Coin := c.view.peekCoin o

/-! ## Changes -/

def addCoin (c : Cache) (o : OutPoint) (coin : Coin) (possibleOverwrite : Bool) :
    Except CoinsError Cache :=
  if isUnspendable coin.out.scriptPubKey then .ok c
  else do
    let existing := c.layer.coins o
    -- `emplace` makes a null coin without flags
    let e := existing.getD ⟨none, false, false⟩
    require (possibleOverwrite ∨ e.coin = none) overwriteError
    let fresh := !possibleOverwrite && !e.dirty
    let l := if existing.isSome then c.layer.subDirty e.dirty else c.layer
    let l := ((l.put o { e with coin := some coin }).setDirty o).countDirty
    pure ⟨if fresh then l.setFresh o else l, c.below⟩

/-- `SpendCoin`, with the coin moved out. -/
def spendCoin (c : Cache) (o : OutPoint) : (Bool × Option Coin) × Cache :=
  match c.fetchCoin o with
  | (none, c) => ((false, none), c)
  | (some e, c) =>
    let l := c.layer.subDirty e.dirty
    let l :=
      if e.fresh then l.erase o
      else (l.setDirty o).countDirty.put o { e with coin := none, dirty := true }
    ((true, e.coin), ⟨l, c.below⟩)

def uncache (c : Cache) (o : OutPoint) : Cache :=
  match c.layer.coins o with
  | some e => if e.dirty then c else ⟨c.layer.erase o, c.below⟩
  | none => c

def setBestBlock (c : Cache) (hash : Option Digest) : Cache :=
  ⟨{ c.layer with hashBlock := hash }, c.below⟩

end Cache

/-! ## Batch writes -/

namespace Layer

/-- The body of the loop of `CCoinsViewCache::BatchWrite`. -/
def batchEntry (us : Layer) (o : OutPoint) (e : Entry) : Except CoinsError Layer :=
  if !e.dirty then .ok us
  else
    match us.coins o with
    | none =>
      if e.fresh && e.coin.isNone then .ok us
      else
        let us := ((us.put o ⟨e.coin, false, false⟩).setDirty o).countDirty
        .ok (if e.fresh then us.setFresh o else us)
    | some u => do
        require (¬ (e.fresh = true ∧ u.coin ≠ none)) freshMisapplied
        if u.fresh && e.coin.isNone then pure ((us.subDirty u.dirty).erase o)
        else
          let us := us.put o { u with coin := e.coin }
          pure (if u.dirty then us else (us.setDirty o).countDirty)

def nextAndMaybeErase (child : Layer) (willErase : Bool) (o : OutPoint) (e : Entry) : Layer :=
  let child := child.subDirty e.dirty
  if willErase then child
  else if e.coin.isNone then child.erase o
  else child.setClean o

end Layer

namespace View

/-- What one entry of the cursor does to the view it is written to. -/
def batchEntry : View → OutPoint → Entry → Except CoinsError View
  | base coins best, o, e =>
    .ok (base (if e.dirty then Function.update coins o e.coin else coins) best)
  | cache l below, o, e => do pure (cache (← l.batchEntry o e) below)

def setBestBlock : View → Option Digest → View
  | base coins _, hash => base coins hash
  | cache l below, hash => cache { l with hashBlock := hash } below

/-- One turn of the loop of `BatchWrite`: the entry is written and left behind. -/
def batchStep (willErase : Bool) (s : Layer × View) (o : OutPoint) :
    Except CoinsError (Layer × View) :=
  match s.1.coins o with
  | none => .ok s
  | some e => do
      let v ← s.2.batchEntry o e
      pure (s.1.nextAndMaybeErase willErase o e, v)

/-- `BatchWrite` of a child's cursor: the flagged entries from the first on. -/
def batchWrite (v : View) (child : Layer) (willErase : Bool) :
    Except CoinsError (Layer × View) := do
  let (l, v) ← child.flagged.foldlM (batchStep willErase) (child, v)
  pure (l, v.setBestBlock child.hashBlock)

end View

namespace Cache

def flush (c : Cache) : Except CoinsError Cache := do
  let (l, below) ← c.below.batchWrite c.layer true
  pure ⟨l.clear, below⟩

def sync (c : Cache) : Except CoinsError Cache := do
  let (l, below) ← c.below.batchWrite c.layer false
  require (l.flagged = []) notCleared
  pure ⟨l, below⟩

end Cache

/-- An output of five. -/
def Sample.paysFive (scriptPubKey : Bytes) : TxOut := ⟨5, scriptPubKey, by decide⟩

end Soveroot.Coins
