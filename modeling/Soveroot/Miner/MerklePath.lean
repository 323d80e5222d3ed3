import Soveroot.Merkle.Root
import Soveroot.Miner.Compact

/-!
# The Merkle path of the coinbase

Both miners declare the siblings of the coinbase, from the leaves up, beside the root of their
transactions. The coinbase stands first in every row, so its sibling is the second hash and does not
depend on it (`pathLoop_spec`).
-/

namespace Soveroot.Miner

open Py Check MerkleTree Merkle

variable (sha256 : HashFn)

def leaves (hashes : List Bytes) : Except Exn (List Digest) :=
  hashes.mapM fun item =>
    if h : item.length = 32 then .ok ⟨item, h⟩
    else .error (.miningError "merkle leaves must be 32-byte hashes")

/-- The loop of `merkle_root`, in both miners. -/
def rootLoop (layer : List Digest) : Digest :=
  if 1 < layer.length then rootLoop (hashPairs sha256 (padded layer)) else layer.headD zero
  termination_by layer.length
  decreasing_by
    rw [hashPairs_padded, length_nextRow]
    omega

def merkleRoot (hashes : List Bytes) : Except Exn Bytes := do
  require (hashes ≠ []) (.miningError "a block must contain at least the coinbase transaction")
  let layer ← leaves hashes
  pure (rootLoop sha256 layer).bytes

/-- The loop of `coinbase_merkle_path`. A row of two hashes or more has `layer[index ^ 1]`. -/
def pathLoop (index : Nat) (layer : List Digest) : List Digest :=
  if 1 < layer.length then
    (padded layer).getD (index ^^^ 1) zero ::
      pathLoop (index / 2) (hashPairs sha256 (padded layer))
  else []
  termination_by layer.length
  decreasing_by
    rw [hashPairs_padded, length_nextRow]
    omega

def coinbaseMerklePath (hashes : List Bytes) : Except Exn (List Bytes) := do
  require (hashes ≠ []) (.miningError "a block must contain at least the coinbase transaction")
  let layer ← leaves hashes
  pure ((pathLoop sha256 0 layer).map Digest.bytes)

namespace Rust

def merkleRoot (hashes : List Digest) : Except String Digest := do
  require (hashes ≠ []) "block has no coinbase hash"
  pure (rootLoop sha256 hashes)

/-- The loop of `coinbase_merkle_path`, which takes `hashes[1]`. -/
def pathLoop (hashes : List Digest) : List Digest :=
  if 1 < hashes.length then
    (padded hashes).getD 1 zero :: pathLoop (hashPairs sha256 (padded hashes))
  else []
  termination_by hashes.length
  decreasing_by
    rw [hashPairs_padded, length_nextRow]
    omega

def coinbaseMerklePath (hashes : List Digest) : Except String (List Digest) := do
  require (hashes ≠ []) "block has no coinbase hash"
  pure (pathLoop sha256 hashes)

end Rust

variable {sha256} {layer : List Digest} {a b : Digest}

theorem leaves_bytes (l : List Digest) : leaves (l.map Digest.bytes) = .ok l := by
  induction l with
  | nil => rfl
  | cons d l ih =>
    rw [leaves] at ih
    rw [leaves, List.map_cons, List.mapM_cons, dif_pos d.length_bytes, ih]
    rfl

theorem pathLoop_zero (layer : List Digest) :
    pathLoop sha256 0 layer = Rust.pathLoop sha256 layer := by
  fun_induction Rust.pathLoop sha256 layer with
  | case1 layer hlt ih =>
    rw [pathLoop, if_pos hlt, Nat.zero_div, ih]
    rfl
  | case2 layer hle => rw [pathLoop, if_neg hle]

theorem hashPairs_cons : hashPairs sha256 (padded (a :: b :: layer)) =
    sha256D64 sha256 a b :: nextRow (sha256D64 sha256) layer := hashPairs_padded sha256 _

theorem rootLoop_cons : rootLoop sha256 (a :: b :: layer) =
    rootLoop sha256 (sha256D64 sha256 a b :: nextRow (sha256D64 sha256) layer) := by
  rw [rootLoop, if_pos (by simp), hashPairs_cons]

theorem Rust.pathLoop_cons : Rust.pathLoop sha256 (a :: b :: layer) =
    b :: Rust.pathLoop sha256 (sha256D64 sha256 a b :: nextRow (sha256D64 sha256) layer) := by
  have hsecond : (padded (a :: b :: layer)).getD 1 zero = b := by
    unfold padded
    split_ifs <;> rfl
  rw [Rust.pathLoop, if_pos (by simp), hashPairs_cons, hsecond]

/-- The path leads from the coinbase to the root, and is that of any other coinbase. -/
theorem pathLoop_spec (first : Digest) (rest : List Digest) :
    (Rust.pathLoop sha256 (first :: rest)).foldl (sha256D64 sha256) first =
        rootLoop sha256 (first :: rest) ∧
      ∀ leaf, Rust.pathLoop sha256 (leaf :: rest) = Rust.pathLoop sha256 (first :: rest) := by
  -- the row above is shorter, and its hashes behind the first are those of `rest`
  induction hn : rest.length using Nat.strong_induction_on generalizing first rest with
  | _ n ih =>
    cases rest with
    | nil => simp [Rust.pathLoop, rootLoop]
    | cons b rest =>
      have hlt : (nextRow (sha256D64 sha256) rest).length < n := by
        rw [length_nextRow, ← hn, List.length_cons]
        omega
      have hrow := ih _ hlt (sha256D64 sha256 first b) _ rfl
      refine ⟨?_, fun leaf => ?_⟩
      · rw [Rust.pathLoop_cons, rootLoop_cons, List.foldl_cons, hrow.1]
      · rw [Rust.pathLoop_cons, Rust.pathLoop_cons, hrow.2]

theorem computeLoop_fst (mutated : Bool) (hashes : List Digest) :
    (computeLoop sha256 mutated hashes).1 = rootLoop sha256 hashes := by
  fun_induction computeLoop sha256 mutated hashes with
  | case1 mutated hashes hlt ih => rw [ih, rootLoop.eq_def sha256 hashes, if_pos hlt]
  | case2 mutated hashes hle => rw [rootLoop, if_neg hle]

/-- **The declared path is right.** Both miners have one path and one root. The path hashes the
coinbase to the root, it does not depend on the coinbase, and the root is the one of the node. -/
theorem merkle_path_right (first : Digest) (rest : List Digest) :
    ∃ root path, merkleRoot sha256 ((first :: rest).map Digest.bytes) = .ok root.bytes ∧
      coinbaseMerklePath sha256 ((first :: rest).map Digest.bytes) = .ok (path.map Digest.bytes) ∧
      Rust.merkleRoot sha256 (first :: rest) = .ok root ∧
      Rust.coinbaseMerklePath sha256 (first :: rest) = .ok path ∧
      path.foldl (sha256D64 sha256) first = root ∧
      (∀ leaf, coinbaseMerklePath sha256 ((leaf :: rest).map Digest.bytes) =
          .ok (path.map Digest.bytes) ∧
        Rust.coinbaseMerklePath sha256 (leaf :: rest) = .ok path) ∧
      (computeMerkleRoot sha256 (first :: rest)).1 = root := by
  have hpath : ∀ leaf, coinbaseMerklePath sha256 ((leaf :: rest).map Digest.bytes) =
      .ok ((Rust.pathLoop sha256 (leaf :: rest)).map Digest.bytes) := by
    intro leaf
    rw [coinbaseMerklePath, leaves_bytes, ← pathLoop_zero]
    rfl
  obtain ⟨hfold, hsame⟩ := @pathLoop_spec sha256 first rest
  refine ⟨_, _, ?_, hpath first, rfl, rfl, hfold, fun leaf => ⟨?_, ?_⟩, computeLoop_fst _ _⟩
  · rw [merkleRoot, leaves_bytes]
    rfl
  · rw [hpath, hsame]
  · rw [← hsame leaf]
    rfl

end Soveroot.Miner
