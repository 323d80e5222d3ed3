import Soveroot.Coins.Database

/-!
# Recovering from an interrupted flush

`ReplayBlocks` undoes the blocks between the old head and the fork and does those between the fork
and the new head again, whichever of their writes had reached the disk. Every outpoint that one of
these blocks touches ends with the value the last of them gives it; every other outpoint had the
same value before and after the interrupted flush.
-/

namespace Soveroot.Coins

open Py Check Writes

namespace BlockIndex

/-- The coin set of a tip. The outputs of the genesis block are not part of it. -/
def coins : BlockIndex → CoinMap
  | genesis _ => fun _ => none
  | next prev _ block => apply prev.coins (blockWrites (prev.height + 1) block.vtx)

/-- The block could be applied to the coin set it was mined on. -/
def Applies : BlockIndex → Prop
  | genesis _ => True
  | next prev _ block => BlockApplies (prev.height + 1) prev.coins block.vtx

end BlockIndex

/-- `ReadBlock` and `ReadBlockUndo`. -/
structure BlockFiles where
  readBlock : BlockIndex → Option Block
  readBlockUndo : BlockIndex → Option (List TxUndo)

/-- The files hold a block, and the undo data recorded when it was connected. -/
def BlockFiles.Hold (files : BlockFiles) : BlockIndex → Prop
  | .genesis _ => True
  | .next prev hash block =>
    files.readBlock (.next prev hash block) = some block ∧
      files.readBlockUndo (.next prev hash block) =
        some (undoData block (prev.height + 1) prev.coins)

/-- How a replay ends without success. -/
inductive ReplayError where
  /-- An error is logged and `false` returned. -/
  | refused (log : String)
  /-- A failed `assert`. -/
  | assertion (condition : String)
  | nullPointer
  | block (e : BlockError)
  | database (e : DatabaseError)
  deriving DecidableEq

/-- The loop of `RollforwardBlock` over the inputs. -/
def spendAll (c : Cache) (vin : List OutPoint) : Cache := vin.foldl (fun c p => (c.spendCoin p).2) c

/-- The body of the loop of `RollforwardBlock`. -/
def rollforwardTx (height : Nat) (c : Cache) (tx : Tx) : Except BlockError Cache :=
  let c := if tx.isCoinBase then c else spendAll c tx.vin
  raised (addCoins c tx height true)

def rollforwardBlock (files : BlockFiles) (pindex : BlockIndex) (c : Cache) :
    Except ReplayError Cache :=
  match files.readBlock pindex with
  | none => .error (.refused "ReplayBlock(): ReadBlock failed")
  | some block => (block.vtx.foldlM (rollforwardTx pindex.height) c).mapError .block

def rollbackBlock (files : BlockFiles) (pindex prev : BlockIndex) (c : Cache) :
    Except ReplayError Cache :=
  match files.readBlock pindex with
  | none => .error (.refused "RollbackBlock(): ReadBlock() failed")
  | some block => do
      let (res, c) ← (disconnectBlock block ⟨pindex.height, pindex.hash, prev.hash⟩
        (files.readBlockUndo pindex) c).mapError .block
      require (res ≠ .failed) (.refused "RollbackBlock(): DisconnectBlock failed")
      pure c

def rollback (files : BlockFiles) (fork : BlockIndex) : BlockIndex → Cache →
    Except ReplayError Cache
  | .genesis hash, c => if .genesis hash = fork then .ok c else .error .nullPointer
  | .next prev hash block, c =>
    if .next prev hash block = fork then .ok c
    else do
      let c ← rollbackBlock files (.next prev hash block) prev c
      rollback files fork prev c

def rollforwardAt (files : BlockFiles) (new : BlockIndex) (c : Cache) (height : Nat) :
    Except ReplayError Cache := do
  let pindex ← orRaise (new.getAncestor height) (.assertion "pindexNew->GetAncestor(nHeight)")
  rollforwardBlock files pindex c

def rollforward (files : BlockFiles) (new : BlockIndex) (forkHeight : Nat) (c : Cache) :
    Except ReplayError Cache :=
  (List.range' (forkHeight + 1) (new.height - forkHeight)).foldlM (rollforwardAt files new) c

/-- The old tip, when there is one, rolled back to the fork, with the height of the fork. -/
def rollbackFrom (files : BlockFiles) (index : Digest → Option BlockIndex) (new : BlockIndex)
    (old : Option Digest) (c : Cache) : Except ReplayError (Nat × Cache) :=
  match old with
  | none => .ok (0, c)
  | some hash => do
      let pindexOld ← orRaise (index hash)
        (.refused "ReplayBlocks(): reorganization from unknown block requested")
      let fork ← orRaise (pindexOld.lastCommonAncestor new) (.assertion "pindexFork != nullptr")
      let c ← rollback files fork pindexOld c
      pure (fork.height, c)

/-- `ReplayBlocks` up to its flush; `none` when there is nothing to replay. -/
def replayCache (files : BlockFiles) (index : Digest → Option BlockIndex) (db : Database) :
    Except ReplayError (Option Cache) :=
  match db.heads with
  | [] => .ok none
  | [new, old] => do
      let pindexNew ← orRaise (new.bind index)
        (.refused "ReplayBlocks(): reorganization to unknown block requested")
      let (forkHeight, c) ← rollbackFrom files index pindexNew old ⟨Layer.empty,
        .base db.coins db.best⟩
      let c ← rollforward files pindexNew forkHeight c
      pure (some (c.setBestBlock (some pindexNew.hash)))
  | _ => .error (.refused "ReplayBlocks(): unknown inconsistent state")

/-- `ReplayBlocks`, with its flush. -/
def replayBlocks (files : BlockFiles) (index : Digest → Option BlockIndex)
    (full : List DbWrite → Bool) (db : Database) : Except ReplayError Database := do
  match ← replayCache files index db with
  | none => pure db
  | some c =>
    let batches ← (db.batchWrite full c.layer).mapError .database
    pure (db.writeBatches batches)

/-! ## What rolling back and forward writes -/

namespace BlockIndex

def backWrites (fork : BlockIndex) : BlockIndex → List (OutPoint × Option Coin)
  | genesis _ => []
  | next prev hash block =>
    if next prev hash block = fork then []
    else undoWrites (prev.height + 1) prev.coins block.vtx ++ backWrites fork prev

def foreWrites (fork : BlockIndex) : BlockIndex → List (OutPoint × Option Coin)
  | genesis _ => []
  | next prev hash block =>
    if next prev hash block = fork then []
    else foreWrites fork prev ++ blockWrites (prev.height + 1) block.vtx

variable {i f : BlockIndex}

theorem backWrites_self (f : BlockIndex) : backWrites f f = [] := by
  cases f with
  | genesis hash => rfl
  | next prev hash block => exact if_pos rfl

theorem foreWrites_self (f : BlockIndex) : foreWrites f f = [] := by
  cases f with
  | genesis hash => rfl
  | next prev hash block => exact if_pos rfl

theorem Ancestor.ne_next {hash : Digest} {block : Block} (h : Ancestor f i) :
    BlockIndex.next i hash block ≠ f := fun heq => by
  have hle := h.height_le
  rw [← heq] at hle
  exact absurd hle (Nat.not_succ_le_self _)

theorem coins_restorable (i : BlockIndex) : Restorable .univ i.coins := by
  induction i with
  | genesis hash => intro o _ coin hcoin; simp [coins] at hcoin
  | next prev hash block ih => exact ih.blockWrites (Nat.succ_ne_zero _) _

/-- A property of the blocks of a chain above a block of it. -/
def Above (f i : BlockIndex) (p : BlockIndex → Prop) : Prop :=
  ∀ j, Ancestor j i → f.height < j.height → p j

section

variable {p : BlockIndex → Prop} {hash : Digest} {block : Block}

theorem Above.last (h : Above f (.next i hash block) p) (hf : Ancestor f i) :
    p (.next i hash block) :=
  h _ (.self _) (Nat.lt_succ_of_le hf.height_le)

theorem Above.below (h : Above f (.next i hash block) p) : Above f i p :=
  fun j hj => h j (hj.next _ _)

end

theorem Ancestor.apply_backWrites (h : Ancestor f i) (happlies : Above f i Applies) :
    apply i.coins (backWrites f i) = f.coins := by
  induction h with
  | self => rw [backWrites_self, apply_nil]
  | next h hash block ih =>
    rw [backWrites, if_neg h.ne_next, apply_append, coins,
      BlockApplies.cancel (happlies.last h), ih happlies.below]

theorem Ancestor.apply_foreWrites (h : Ancestor f i) :
    apply f.coins (foreWrites f i) = i.coins := by
  induction h with
  | self => rw [foreWrites_self, apply_nil]
  | next h hash block ih => rw [foreWrites, if_neg h.ne_next, apply_append, ih, coins]

end BlockIndex

section Rolling

variable {files : BlockFiles} {c : Cache} {m : CoinMap} {ms : List CoinMap} {f i new : BlockIndex}

open BlockIndex

theorem spendAll_spec (h : c.Shows m ms) (vin : List OutPoint) :
    (spendAll c vin).Shows (apply m (spendWrites vin)) ms := by
  induction vin generalizing c m with
  | nil => exact h
  | cons p vin ih => exact ih (h.spendCoin p).2.2

theorem rollforwardTx_spec (h : c.Shows m ms) (height : Nat) (tx : Tx) :
    ∃ c', rollforwardTx height c tx = .ok c' ∧ c'.Shows (apply m (txWrites height tx)) ms := by
  have hspend : (if tx.isCoinBase then c else spendAll c tx.vin).Shows
      (apply m (spendWrites tx.spent)) ms := by
    by_cases hcb : tx.isCoinBase = true
    · rw [if_pos hcb, Tx.spent, if_pos hcb]
      exact h
    · rw [if_neg hcb, Tx.spent, if_neg hcb]
      exact spendAll_spec h tx.vin
  obtain ⟨c', hadd, h'⟩ := addCoins_spec hspend tx height true (fun hf => by simp at hf)
  exact ⟨c', by simp only [rollforwardTx, hadd]; rfl, by rwa [txWrites, apply_append]⟩

theorem rollforwardAll_spec (h : c.Shows m ms) (height : Nat) (txs : List Tx) :
    ∃ c', txs.foldlM (rollforwardTx height) c = .ok c' ∧
      c'.Shows (apply m (blockWrites height txs)) ms := by
  induction txs generalizing c m with
  | nil => exact ⟨c, rfl, h⟩
  | cons tx txs ih =>
    obtain ⟨c₁, htx, h₁⟩ := rollforwardTx_spec h height tx
    obtain ⟨c', hrest, h'⟩ := ih h₁
    exact ⟨c', by rw [List.foldlM_cons, htx, ok_bind, hrest], by rwa [blockWrites_cons,
      apply_append]⟩

variable {prev : BlockIndex} {hash : Digest} {block : Block} (h : c.Shows m ms)
include h

theorem rollbackBlock_spec (happlies : (BlockIndex.next prev hash block).Applies)
    (hfiles : files.Hold (.next prev hash block)) :
    ∃ c', rollbackBlock files (.next prev hash block) prev c = .ok c' ∧
      c'.Shows (apply m (undoWrites (prev.height + 1) prev.coins block.vtx)) ms := by
  obtain ⟨clean, c', hdis, h', -⟩ := disconnectBlock_spec h ⟨prev.height + 1, hash, prev.hash⟩
    (Nat.succ_ne_zero _) (coins_restorable prev)
    (fun _ _ _ _ => Set.mem_univ _) happlies
  refine ⟨_, ?_, h'.setBestBlock (some prev.hash)⟩
  simp only [rollbackBlock, hfiles.1, hfiles.2, height_next, hash_next, hdis]
  cases clean <;> rfl

theorem rollback_spec (hf : Ancestor f i) (happlies : Above f i Applies)
    (hfiles : Above f i files.Hold) :
    ∃ c', rollback files f i c = .ok c' ∧ c'.Shows (apply m (backWrites f i)) ms := by
  induction hf generalizing c m with
  | self =>
    refine ⟨c, ?_, by rwa [backWrites_self]⟩
    cases f <;> exact if_pos rfl
  | next hf hash block ih =>
    obtain ⟨c₁, hblock, h₁⟩ := rollbackBlock_spec h (happlies.last hf) (hfiles.last hf)
    obtain ⟨c', hrest, h'⟩ := ih h₁ happlies.below hfiles.below
    refine ⟨c', ?_, by rwa [backWrites, if_neg hf.ne_next, apply_append]⟩
    rw [rollback, if_neg hf.ne_next, hblock, ok_bind, hrest]

theorem rollforwardBlock_spec (hfiles : files.Hold (.next prev hash block)) :
    ∃ c', rollforwardBlock files (.next prev hash block) c = .ok c' ∧
      c'.Shows (apply m (blockWrites (prev.height + 1) block.vtx)) ms := by
  obtain ⟨c', hall, h'⟩ := rollforwardAll_spec h (prev.height + 1) block.vtx
  exact ⟨c', by simp only [rollforwardBlock, hfiles.1, height_next, hall]; rfl, h'⟩

theorem rollforward_spec (hf : Ancestor f i) (hi : Ancestor i new)
    (hfiles : Above f i files.Hold) :
    ∃ c', (List.range' (f.height + 1) (i.height - f.height)).foldlM (rollforwardAt files new) c =
        .ok c' ∧
      c'.Shows (apply m (foreWrites f i)) ms := by
  induction hf with
  | self => exact ⟨c, by rw [Nat.sub_self]; rfl, by rwa [foreWrites_self]⟩
  | @next prev hf hash block ih =>
    obtain ⟨c₁, hrest, h₁⟩ := ih (((Ancestor.self _).next hash block).trans hi) hfiles.below
    obtain ⟨c', hblock, h'⟩ := rollforwardBlock_spec h₁ (hfiles.last hf)
    refine ⟨c', ?_, by rwa [foreWrites, if_neg hf.ne_next, apply_append]⟩
    have hlength : (BlockIndex.next prev hash block).height - f.height =
        prev.height - f.height + 1 :=
      Nat.succ_sub hf.height_le
    have hlast : f.height + 1 + (prev.height - f.height) =
        (BlockIndex.next prev hash block).height := by
      have := hf.height_le
      omega
    rw [hlength, List.range'_1_concat, List.foldlM_append, hrest, ok_bind, hlast, List.foldlM_cons,
      rollforwardAt, getAncestor_of_le hi.height_le, hi.back_height, orRaise_some, ok_bind, hblock,
      ok_bind]
    rfl

end Rolling

/-! ## Recovery -/

/-- The coins of a tip, of which there is none before the first flush. -/
def coinsOf (tip : Option BlockIndex) : CoinMap := tip.elim (fun _ => none) BlockIndex.coins

structure Database.ConsistentWith (db : Database) (tip : Option BlockIndex) : Prop where
  coins : db.coins = coinsOf tip
  best : db.best = tip.map BlockIndex.hash
  heads : db.heads = []

/-- A flush from one tip to another was interrupted after its first batch: at each outpoint there is
the coin of the one tip or of the other. -/
structure Database.Between (db : Database) (old : Option BlockIndex) (new : BlockIndex) : Prop where
  coins : ∀ o, db.coins o = coinsOf old o ∨ db.coins o = new.coins o
  best : db.best = none
  heads : db.heads = [some new.hash, old.map BlockIndex.hash]

/-- A block of one of two branches: on the chain of one tip and not of the other. -/
def InBranch (old : Option BlockIndex) (new i : BlockIndex) : Prop :=
  (i.Ancestor new ∧ ∀ tip ∈ old, ¬ i.Ancestor tip) ∨ ∃ tip ∈ old, i.Ancestor tip ∧ ¬ i.Ancestor new

/-- Two indexed tips of one block tree, with the blocks of both branches valid and on file. -/
structure Tips (files : BlockFiles) (index : Digest → Option BlockIndex) (old : Option BlockIndex)
    (new : BlockIndex) : Prop where
  root : ∀ tip ∈ old, tip.back 0 = new.back 0
  indexed : index new.hash = some new ∧ ∀ tip ∈ old, index tip.hash = some tip
  onFile : ∀ i, InBranch old new i → files.Hold i
  applies : ∀ i, InBranch old new i → i.Applies

/-- What a crash leaves: replays of which each is interrupted in its flush, after any number of its
batches but the last. -/
inductive Crashes (files : BlockFiles) (index : Digest → Option BlockIndex) :
    Database → Database → Prop where
  | none (db : Database) : Crashes files index db db
  | again {db db' : Database} (h : Crashes files index db db') {c : Cache}
      (hcache : replayCache files index db' = .ok (some c)) {full : List DbWrite → Bool}
      {batches : List (List DbWrite)} (hbatches : db'.batchWrite full c.layer = .ok batches)
      {n : Nat} (hn : n < batches.length) :
      Crashes files index db (db'.writeBatches (batches.take n))

section Recovery

variable {files : BlockFiles} {index : Digest → Option BlockIndex} {old : Option BlockIndex}
  {new : BlockIndex} {db db' : Database}

open BlockIndex

theorem coins_back_zero (i : BlockIndex) : (i.back 0).coins = fun _ => none := by
  cases h : i.back 0 with
  | genesis hash => rfl
  | next prev hash block =>
    have := height_back (Nat.zero_le i.height)
    rw [h] at this
    simp at this

theorem Database.Between.replayCache (hdb : db.Between old new) (htips : Tips files index old new) :
    ∃ c, replayCache files index db = .ok (some c) ∧ c.Shows new.coins [db.coins] ∧
      c.layer.hashBlock = some new.hash := by
  have hempty : Cache.Shows ⟨Layer.empty, .base db.coins db.best⟩ db.coins [db.coins] :=
    ⟨⟨Layer.valid_empty _, trivial⟩, rfl⟩
  -- the fork, and what rolling back to it writes
  obtain ⟨f, ws, c₁, hf, hfiles, hback, h₁, hws⟩ : ∃ f ws c₁, Ancestor f new ∧
      Above f new files.Hold ∧
      rollbackFrom files index new (old.map BlockIndex.hash) ⟨Layer.empty, .base db.coins db.best⟩ =
        .ok (f.height, c₁) ∧
      c₁.Shows (apply db.coins ws) [db.coins] ∧ apply (coinsOf old) ws = f.coins := by
    cases old with
    | none =>
      refine ⟨new.back 0, [], _, ancestor_back _ _,
        fun j hj _ => htips.onFile j (.inl ⟨hj, by simp⟩), ?_, hempty, (coins_back_zero new).symm⟩
      rw [height_back (Nat.zero_le _)]
      rfl
    | some tip =>
      obtain ⟨f, hfork, hf⟩ := lastCommonAncestor_spec (htips.root tip rfl)
      have holdBranch : Above f tip (InBranch (some tip) new) := fun j hj hlt =>
        .inr ⟨tip, rfl, hj, fun hj' => absurd (hf.height_le j hj hj') (Nat.not_le.2 hlt)⟩
      have hnewBranch : Above f new (InBranch (some tip) new) := fun j hj hlt =>
        .inl ⟨hj, fun _ htip hj' =>
          absurd (hf.height_le j (Option.some.inj htip ▸ hj') hj) (Nat.not_le.2 hlt)⟩
      have happlies : Above f tip Applies := fun j hj hlt => htips.applies j (holdBranch j hj hlt)
      obtain ⟨c₁, hrollback, h₁⟩ := rollback_spec hempty hf.left happlies
        fun j hj hlt => htips.onFile j (holdBranch j hj hlt)
      refine ⟨f, backWrites f tip, c₁, hf.right,
        fun j hj hlt => htips.onFile j (hnewBranch j hj hlt), ?_, h₁,
        hf.left.apply_backWrites happlies⟩
      rw [Option.map_some, rollbackFrom, htips.indexed.2 tip rfl, orRaise_some, ok_bind, hfork,
        orRaise_some, ok_bind, hrollback]
      rfl
  obtain ⟨c₂, hfore, h₂⟩ := rollforward_spec h₁ hf (.self new) hfiles
  -- the writes of both branches lead from the old coins to the new, so from a mixture too
  rw [← apply_append,
    apply_of_mixed (by rw [apply_append, hws, hf.apply_foreWrites]) hdb.coins] at h₂
  refine ⟨c₂.setBestBlock (some new.hash), ?_, h₂.setBestBlock _, rfl⟩
  rw [Coins.replayCache, hdb.heads]
  simp only [Option.bind_some, htips.indexed.1, orRaise_some, ok_bind, hback, rollforward, hfore]
  rfl

theorem Database.flush_spec {child : Layer} (full : List DbWrite → Bool)
    (hchild : child.Valid db.coins) (hover : child.above db.coins = new.coins)
    (hhash : child.hashBlock = some new.hash)
    (hold : db.oldTip (some new.hash) = .ok (old.map BlockIndex.hash))
    (hcoins : ∀ o, db.coins o = coinsOf old o ∨ db.coins o = new.coins o) :
    ∃ batches, db.batchWrite full child = .ok batches ∧
      (db.writeBatches batches).ConsistentWith (some new) ∧
      ∀ n, n + 1 < batches.length → (db.writeBatches (batches.take (n + 1))).Between old new := by
  obtain ⟨batches, hbatches, hall, hsome⟩ := batchWrite_spec full hchild hhash hold
  refine ⟨batches, hbatches, by rw [hall, hover]; exact ⟨rfl, rfl, rfl⟩, fun n hn => ?_⟩
  obtain ⟨coins, hwrite, hmixed⟩ := hsome n hn
  rw [hwrite]
  refine ⟨fun o => ?_, rfl, rfl⟩
  rcases hmixed o with h | h
  · exact (hcoins o).imp h.trans h.trans
  · exact .inr (h.trans (congrFun hover o))

theorem Database.Between.oldTip (hdb : db.Between old new) :
    db.oldTip (some new.hash) = .ok (old.map BlockIndex.hash) := by
  rw [Database.oldTip, hdb.best, hdb.heads]
  dsimp only
  rw [require_of_pos rfl]
  rfl

theorem Database.ConsistentWith.oldTip (hdb : db.ConsistentWith old) (hash : Digest) :
    db.oldTip (some hash) = .ok (old.map BlockIndex.hash) := by
  rw [Database.oldTip, hdb.best, hdb.heads]
  cases old <;> rfl

section

variable (hdb : db.Between old new) (htips : Tips files index old new)
include hdb htips

theorem Database.Between.flush (full : List DbWrite → Bool) :
    ∃ c batches, Coins.replayCache files index db = .ok (some c) ∧
      db.batchWrite full c.layer = .ok batches ∧
      (db.writeBatches batches).ConsistentWith (some new) ∧
      ∀ n, n + 1 < batches.length → (db.writeBatches (batches.take (n + 1))).Between old new := by
  obtain ⟨c, hcache, hshows, hhash⟩ := hdb.replayCache htips
  have hmap : c.below.map = db.coins := View.map_of_maps hshows.below
  obtain ⟨batches, hbatches⟩ := Database.flush_spec full (hmap ▸ hshows.layer) (hmap ▸ hshows.above)
    hhash hdb.oldTip hdb.coins
  exact ⟨c, batches, hcache, hbatches⟩

theorem Database.Between.crashes (h : Crashes files index db db') : db'.Between old new := by
  induction h with
  | none => exact hdb
  | @again _ _ c hcache full batches hbatches n hn ih =>
    obtain ⟨c', batches', hcache', hbatches', -, hsome⟩ := ih.flush htips full
    obtain rfl : c = c' := Option.some.inj (Except.ok.inj (hcache.symm.trans hcache'))
    obtain rfl : batches = batches' := Except.ok.inj (hbatches.symm.trans hbatches')
    cases n with
    | zero => exact ih
    | succ n => exact hsome n hn

end

section

variable (hdb : db.ConsistentWith old)
include hdb

theorem Database.ConsistentWith.replayCache :
    Coins.replayCache files index db = .ok none := by
  rw [Coins.replayCache, hdb.heads]

theorem Database.ConsistentWith.crashes (h : Crashes files index db db') : db' = db := by
  induction h with
  | none => rfl
  | again _ hcache _ _ ih =>
    rw [ih, hdb.replayCache] at hcache
    simp at hcache

theorem Database.ConsistentWith.replayBlocks (full : List DbWrite → Bool) :
    Coins.replayBlocks files index full db = .ok db := by
  rw [Coins.replayBlocks, hdb.replayCache]
  rfl

end

theorem Database.Between.replayBlocks (hdb : db.Between old new) (htips : Tips files index old new)
    (full : List DbWrite → Bool) :
    ∃ db', Coins.replayBlocks files index full db = .ok db' ∧ db'.ConsistentWith (some new) := by
  obtain ⟨c, batches, hcache, hbatches, hall, -⟩ := hdb.flush htips full
  refine ⟨_, ?_, hall⟩
  simp only [Coins.replayBlocks, hcache, ok_bind, hbatches]
  rfl

/-- **A flush survives crashes.** From a database consistent with the old tip, any flush to the new
one may be cut short after any of its batches, and any number of replays cut short in theirs: the
first replay that completes leaves exactly the coins of the new tip. -/
theorem replayBlocks_restores (files : BlockFiles) (index : Digest → Option BlockIndex)
    (old : Option BlockIndex) (new : BlockIndex) (htips : Tips files index old new) (db : Database)
    (hdb : db.ConsistentWith old) (child : Layer) (hchild : child.Valid db.coins)
    (hover : child.above db.coins = new.coins) (hhash : child.hashBlock = some new.hash)
    (full : List DbWrite → Bool) :
    ∃ batches, db.batchWrite full child = .ok batches ∧
      (db.writeBatches batches).ConsistentWith (some new) ∧
      ∀ n, 1 ≤ n → ∀ db₁, Crashes files index (db.writeBatches (batches.take n)) db₁ →
        ∀ full', ∃ db₂, replayBlocks files index full' db₁ = .ok db₂ ∧
          db₂.ConsistentWith (some new) := by
  obtain ⟨batches, hbatches, hall, hsome⟩ := Database.flush_spec full hchild hover hhash
    (hdb.oldTip new.hash) fun o => .inl (congrFun hdb.coins o)
  refine ⟨batches, hbatches, hall, fun n hn db₁ hcrashes full' => ?_⟩
  obtain ⟨n, rfl⟩ := Nat.exists_eq_add_of_le' hn
  by_cases hlt : n + 1 < batches.length
  · exact ((hsome n hlt).crashes htips hcrashes).replayBlocks htips full'
  · -- the flush was complete
    rw [List.take_of_length_le (Nat.le_of_not_lt hlt)] at hcrashes
    rw [hall.crashes hcrashes]
    exact ⟨_, hall.replayBlocks full', hall⟩

end Recovery

namespace Sample

def solo (n : UInt8) : Block where
  coinbase := pays (hashOf n) [nullOutPoint]
  others := []
  coinbase_isCoinBase := by cases n; rfl
  others_not_coinBase := by simp

def tip (n : UInt8) : BlockIndex := .next (.genesis (hashOf 10)) (hashOf n) (solo n)

def indexOf (hash : Digest) : Option BlockIndex :=
  if hash = hashOf 1 then some (tip 1) else if hash = hashOf 2 then some (tip 2) else none

def allFiles : BlockFiles where
  readBlock
    | .genesis _ => none
    | .next _ _ block => some block
  readBlockUndo
    | .genesis _ => none
    | .next prev _ block => some (undoData block (prev.height + 1) prev.coins)

theorem allFiles_hold (i : BlockIndex) : allFiles.Hold i := by
  cases i with
  | genesis hash => trivial
  | next prev hash block => exact ⟨rfl, rfl⟩

theorem applies_of_ancestor_tip {n : UInt8} {i : BlockIndex} (hn : (tip n).Applies)
    (h : i.Ancestor (tip n)) : i.Applies := by
  cases h with
  | self => exact hn
  | next h => cases h; trivial

def tipDatabase (n : UInt8) : Database := ⟨(tip n).coins, some (hashOf n), []⟩

/-- The dirty entries of a reorganisation from the first tip to the second. -/
def reorganised : Layer where
  coins o :=
    if o = ⟨hashOf 1, 0⟩ then some ⟨none, true, false⟩
    else if o = ⟨hashOf 2, 0⟩ then some ⟨(tip 2).coins o, true, true⟩
    else none
  flagged := [⟨hashOf 1, 0⟩, ⟨hashOf 2, 0⟩]
  dirtyCount := 2
  hashBlock := some (hashOf 2)

theorem coins_tip (n : UInt8) :
    (tip n).coins =
      Function.update (fun _ => none) ⟨hashOf n, 0⟩ (some ⟨paysFive [], true, 1⟩) := rfl

theorem reorganised_above : reorganised.above (tip 1).coins = (tip 2).coins := by
  funext o
  by_cases h₁ : o = ⟨hashOf 1, 0⟩
  · subst h₁
    decide +kernel
  · by_cases h₂ : o = ⟨hashOf 2, 0⟩
    · subst h₂
      decide +kernel
    · simp [Layer.above, reorganised, coins_tip, h₁, h₂]

theorem reorganised_valid : reorganised.Valid (tip 1).coins := by
  have hcases : ∀ o e, reorganised.coins o = some e →
      (o = ⟨hashOf 1, 0⟩ ∧ e = ⟨none, true, false⟩) ∨
        (o = ⟨hashOf 2, 0⟩ ∧ e = ⟨some ⟨paysFive [], true, 1⟩, true, true⟩) := by
    intro o e he
    simp only [reorganised] at he
    split_ifs at he with h₁ h₂
    · exact .inl ⟨h₁, (Option.some.inj he).symm⟩
    · subst h₂
      exact .inr ⟨rfl, (Option.some.inj he).symm⟩
  refine ⟨fun o e he => ?_, fun o e he hd => ?_, fun o e he hf => ?_, by decide +kernel,
    fun o => ?_, rfl⟩
  · rcases hcases o e he with ⟨-, rfl⟩ | ⟨-, rfl⟩
    · exact .spent
    · exact .created _
  · rcases hcases o e he with ⟨-, rfl⟩ | ⟨-, rfl⟩ <;> simp at hd
  · rcases hcases o e he with ⟨-, rfl⟩ | ⟨rfl, rfl⟩
    · simp at hf
    · decide +kernel
  · constructor
    · intro ho
      rcases List.mem_cons.1 ho with rfl | ho
      · exact ⟨_, rfl, rfl⟩
      · obtain rfl := List.mem_singleton.1 ho
        exact ⟨⟨some ⟨paysFive [], true, 1⟩, true, true⟩, by decide +kernel, rfl⟩
    · rintro ⟨e, he, -⟩
      rcases hcases o e he with ⟨rfl, -⟩ | ⟨rfl, -⟩ <;> simp [reorganised]

end Sample

open Sample

/-- A reorganisation cut short between two batches. -/
theorem replayBlocks_restores_reorganised :
    ∃ batches, (tipDatabase 1).batchWrite (fun _ => true) reorganised = .ok batches ∧
      ((tipDatabase 1).writeBatches batches).ConsistentWith (some (tip 2)) ∧
      ∀ n, 1 ≤ n → ∀ db₁, Crashes allFiles indexOf
          ((tipDatabase 1).writeBatches (batches.take n)) db₁ →
        ∀ full', ∃ db₂, replayBlocks allFiles indexOf full' db₁ = .ok db₂ ∧
          db₂.ConsistentWith (some (tip 2)) :=
  replayBlocks_restores allFiles indexOf (some (tip 1)) (tip 2)
    { root := by rintro _ ⟨⟩; rfl
      indexed := ⟨by decide +kernel, by rintro _ ⟨⟩; decide +kernel⟩
      onFile := fun i _ => allFiles_hold i
      applies := by
        have hblock (n : UInt8) (h : BlockApplies 1 (fun _ => none) (solo n).vtx) :
            (tip n).Applies := h
        rintro i (⟨hi, -⟩ | ⟨_, ⟨⟩, hi, -⟩)
        · exact applies_of_ancestor_tip (hblock 2 (by decide +kernel)) hi
        · exact applies_of_ancestor_tip (hblock 1 (by decide +kernel)) hi }
    (tipDatabase 1) ⟨rfl, rfl, rfl⟩ reorganised reorganised_valid
    reorganised_above rfl fun _ => true

end Soveroot.Coins
