import Soveroot.Coins.Chain

/-!
# The coin database

`CCoinsViewDB::BatchWrite` sends the dirty entries of a cache to disk in batches, each of which
arrives as a whole or not at all. The first batch also erases the best block and notes the two
heads, the last notes the new best block and erases the heads. When a batch is large enough to be
sent is left open: `full` decides, for any content of the batch.
-/

namespace Soveroot.Coins

open Py Check Writes List

/-- What is on disk; a null hash and a missing best block are `none`, missing heads are no heads. -/
structure Database where
  coins : CoinMap
  best : Option Digest
  heads : List (Option Digest)

/-- One write of a batch; `none` and `[]` stand for `Erase`. -/
inductive DbWrite where
  | coin (o : OutPoint) (coin : Option Coin)
  | best (hash : Option Digest)
  | heads (hashes : List (Option Digest))

/-- A failed `assert` of `BatchWrite`. -/
inductive DatabaseError where
  | assertion (condition : String)
  deriving DecidableEq

namespace Database

def write (db : Database) : DbWrite → Database
  | .coin o coin => { db with coins := Function.update db.coins o coin }
  | .best hash => { db with best := hash }
  | .heads hashes => { db with heads := hashes }

def writeBatch (db : Database) (batch : List DbWrite) : Database := batch.foldl write db

def writeBatches (db : Database) (batches : List (List DbWrite)) : Database :=
  batches.foldl writeBatch db

/-- The tip that the coins on disk had before a write that leads to `hashBlock`. -/
def oldTip (db : Database) (hashBlock : Option Digest) : Except DatabaseError (Option Digest) :=
  match db.best, db.heads with
  | none, [new, old] => do
      require (new = hashBlock) (.assertion "old_heads[0] == hashBlock")
      pure old
  | best, _ => .ok best

def entryWrites (child : Layer) (o : OutPoint) : List DbWrite :=
  match child.coins o with
  | some e => if e.dirty then [.coin o e.coin] else []
  | none => []

/-- The loop of `BatchWrite` and the last batch: the batches sent, with one batch filled so far. -/
def sendBatches (full : List DbWrite → Bool) (child : Layer) (last : List DbWrite) :
    List OutPoint → (batch : List DbWrite) → List (List DbWrite)
  | [], batch => [batch ++ last]
  | o :: os, batch =>
    let batch := batch ++ entryWrites child o
    if full batch then batch :: sendBatches full child last os []
    else sendBatches full child last os batch

/-- `CCoinsViewDB::BatchWrite`: the batches in the order in which they are sent. -/
def batchWrite (full : List DbWrite → Bool) (db : Database) (child : Layer) :
    Except DatabaseError (List (List DbWrite)) := do
  let hashBlock := child.hashBlock
  require (hashBlock ≠ none) (.assertion "!hashBlock.IsNull()")
  let old ← db.oldTip hashBlock
  pure (sendBatches full child [.heads [], .best hashBlock] child.flagged
    [.best none, .heads [hashBlock, old]])

/-! ## What is on disk after some batches -/

variable {db : Database} {child : Layer} {full : List DbWrite → Bool}

theorem writeBatches_eq (db : Database) (batches : List (List DbWrite)) :
    db.writeBatches batches = db.writeBatch batches.flatten := by
  induction batches generalizing db with
  | nil => rfl
  | cons batch batches ih =>
    rw [flatten_cons, writeBatch, foldl_append]
    exact ih _

theorem writeBatch_append (db : Database) (ws ws' : List DbWrite) :
    db.writeBatch (ws ++ ws') = (db.writeBatch ws).writeBatch ws' := foldl_append

section Sending

variable {last : List DbWrite} {os : List OutPoint} {batch : List DbWrite}

theorem flatten_sendBatches :
    (sendBatches full child last os batch).flatten = batch ++ os.flatMap (entryWrites child) ++
      last := by
  induction os generalizing batch with
  | nil => simp [sendBatches]
  | cons o os ih =>
    rw [sendBatches]
    split_ifs <;> simp [ih]

theorem flatten_take_sendBatches {n : Nat}
    (hn : n + 1 < (sendBatches full child last os batch).length) :
    ∃ j, ((sendBatches full child last os batch).take (n + 1)).flatten =
      batch ++ (os.take j).flatMap (entryWrites child) := by
  induction os generalizing batch n with
  | nil => simp [sendBatches] at hn
  | cons o os ih =>
    rw [sendBatches] at hn ⊢
    split_ifs at hn ⊢ with hfull
    · cases n with
      | zero => exact ⟨1, by simp⟩
      | succ n =>
        obtain ⟨j, hj⟩ := ih (Nat.lt_of_succ_lt_succ hn)
        exact ⟨j + 1, by simp [hj]⟩
    · obtain ⟨j, hj⟩ := ih hn
      exact ⟨j + 1, by simp [hj]⟩

end Sending

theorem writeBatch_entries (hchild : child.Valid db.coins) {os : List OutPoint}
    (hos : ∀ o ∈ os, o ∈ child.flagged) (db' : Database) :
    db'.writeBatch (os.flatMap (entryWrites child)) =
      { db' with coins := apply db'.coins (os.map fun o => (o, child.above db.coins o)) } := by
  induction os generalizing db' with
  | nil => rfl
  | cons o os ih =>
    obtain ⟨e, he, hdirty⟩ := (hchild.mem_flagged o).1 (hos o mem_cons_self)
    have hentry : entryWrites child o = [.coin o (child.above db.coins o)] := by
      simp only [entryWrites, he, hdirty, if_true, Layer.above_of_some he]
    rw [flatMap_cons, hentry, writeBatch_append,
      ih fun o' ho' => hos o' (mem_cons_of_mem _ ho')]
    rfl

theorem apply_flagged (hchild : child.Valid db.coins) :
    apply db.coins (child.flagged.map fun o => (o, child.above db.coins o)) =
      child.above db.coins := by
  funext o
  rw [apply_map]
  split_ifs with ho
  · rfl
  · cases he : child.coins o with
    | none => exact (Layer.above_of_none he).symm
    | some e =>
      have hclean : e.dirty = false := by
        by_contra hdirty
        exact ho ((hchild.mem_flagged o).2 ⟨e, he, by simpa using hdirty⟩)
      rw [Layer.above_of_some he, hchild.clean o e he hclean]

/-- The batches of a valid child: all of them make the coins what the child shows, and some of them
leave both heads noted and at each outpoint the old coin or the new one. -/
theorem batchWrite_spec (full : List DbWrite → Bool) (hchild : child.Valid db.coins) {hash : Digest}
    {old : Option Digest} (hhash : child.hashBlock = some hash)
    (hold : db.oldTip (some hash) = .ok old) :
    ∃ batches, db.batchWrite full child = .ok batches ∧
      db.writeBatches batches = ⟨child.above db.coins, some hash, []⟩ ∧
      ∀ n, n + 1 < batches.length → ∃ coins,
        db.writeBatches (batches.take (n + 1)) = ⟨coins, none, [some hash, old]⟩ ∧
        ∀ o, coins o = db.coins o ∨ coins o = child.above db.coins o := by
  refine ⟨_, by rw [batchWrite, hhash, require_of_pos (by simp), ok_bind, hold, ok_bind]; rfl, ?_,
    fun n hn => ?_⟩
  · rw [writeBatches_eq, flatten_sendBatches, writeBatch_append, writeBatch_append,
      writeBatch_entries hchild fun o ho => ho]
    simp only [writeBatch, foldl_cons, foldl_nil, write, apply_flagged hchild]
  · obtain ⟨j, hj⟩ := flatten_take_sendBatches hn
    rw [writeBatches_eq, hj, writeBatch_append,
      writeBatch_entries hchild fun o ho => mem_of_mem_take ho]
    refine ⟨_, rfl, fun o => ?_⟩
    rw [apply_map]
    split_ifs
    · exact Or.inr rfl
    · exact Or.inl rfl

end Database

end Soveroot.Coins
