import Mathlib.Data.List.Forall2
import Mathlib.Data.Nat.Bitwise
import Soveroot.Merkle.Root

/-!
# Partial Merkle trees

`CPartialMerkleTree` of `src/merkleblock.cpp` keeps, of the tree over a list of transactions, what a
reader needs who knows the root: flags in depth-first order, and a hash for every node that is not
descended into.

* `extract_build`: what is built from a list, packed and unpacked, gives back the root and the
  matched transactions, when `ComputeMerkleRoot` reports no mutation of the list.
* `extract_sound`: flags and hashes of any origin that give the root of such a list give
  transactions of that list only.
-/

namespace Soveroot.Merkle

open Py MerkleTree List Option

/-! ## Bits and bytes -/

/-- One turn of the loop of `BitsToBytes`. -/
def packBit (bits : List Bool) (ret : Bytes) (p : Nat) : Bytes :=
  ret.modify (p / 8) (· ||| ((bits.getD p false).toUInt8 <<< UInt8.ofNat (p % 8)))

def bitsToBytes (bits : List Bool) : Bytes :=
  (range bits.length).foldl (packBit bits) (replicate ((bits.length + 7) / 8) 0)

def bytesToBits (bytes : Bytes) : List Bool :=
  (range (bytes.length * 8)).map fun p =>
    decide (bytes.getD (p / 8) 0 &&& (1 <<< UInt8.ofNat (p % 8)) ≠ 0)

def bitAt (bytes : Bytes) (p : Nat) : Bool := (bytes.getD (p / 8) 0).toNat.testBit (p % 8)

variable {b : Nat}

theorem and_bit_ne_zero (x : UInt8) (hb : b < 8) :
    x &&& (1 <<< UInt8.ofNat b) ≠ 0 ↔ x.toNat.testBit b = true := by
  have hbit : ((1 : UInt8) <<< UInt8.ofNat b).toNat = 2 ^ b := by
    rw [UInt8.toNat_shiftLeft, UInt8.toNat_ofNat_of_lt' (by simp [UInt8.size]; omega),
      Nat.mod_eq_of_lt hb,
      Nat.shiftLeft_eq, UInt8.toNat_one, Nat.one_mul]
    exact Nat.mod_eq_of_lt (Nat.pow_lt_pow_right (by decide) hb)
  rw [ne_eq, ← UInt8.toNat_inj, UInt8.toNat_and, hbit, Nat.and_two_pow]
  cases x.toNat.testBit b <;> simp

theorem testBit_shiftLeft_bool (v : Bool) {a : Nat} (ha : a < 8) :
    (v.toUInt8 <<< UInt8.ofNat a).toNat.testBit b = (decide (a = b) && v) := by
  have hvalue : (v.toUInt8 <<< UInt8.ofNat a).toNat = if v then 2 ^ a else 0 := by
    rw [UInt8.toNat_shiftLeft, UInt8.toNat_ofNat_of_lt' (by simp [UInt8.size]; omega),
      Nat.mod_eq_of_lt ha,
      Nat.shiftLeft_eq]
    cases v
    · simp [Bool.toUInt8]
    · simpa [Bool.toUInt8] using Nat.pow_lt_pow_right (by decide) ha
  rw [hvalue]
  cases v <;> simp [Nat.testBit_two_pow]

variable {bits : List Bool}

theorem bitAt_packBit {ret : Bytes} {q : Nat} (hq : q / 8 < ret.length) (p : Nat) :
    bitAt (packBit bits ret q) p = (bitAt ret p || (decide (q = p) && bits.getD q false)) := by
  have hmod := Nat.mod_lt q (show 0 < 8 by decide)
  rw [bitAt, bitAt, packBit, getD_eq_getElem?_getD, getD_eq_getElem?_getD, getElem?_modify]
  by_cases hp : q / 8 = p / 8
  · have heq : q % 8 = p % 8 ↔ q = p := by omega
    simp only [← hp, if_true, getElem?_eq_getElem hq, Option.map_eq_map, Option.map_some,
      Option.getD_some, UInt8.toNat_or, Nat.testBit_or, testBit_shiftLeft_bool _ hmod, heq,
      getD_eq_getElem?_getD]
  · have hne : q ≠ p := fun h => hp (by rw [h])
    simp [hp, hne]

theorem length_packBit (bits : List Bool) (ret : Bytes) (q : Nat) :
    (packBit bits ret q).length = ret.length := by
  rw [packBit, length_modify]

variable {k : Nat}

theorem packBits_spec (bits : List Bool) (hk : k ≤ bits.length) :
    ((range k).foldl (packBit bits) (replicate ((bits.length + 7) / 8) 0)).length =
      (bits.length + 7) / 8 ∧
    ∀ p, bitAt ((range k).foldl (packBit bits) (replicate ((bits.length + 7) / 8) 0)) p =
      (decide (p < k) && bits.getD p false) := by
  induction k with
  | zero =>
    refine ⟨by simp, ?_⟩
    intro p
    have hzero : (replicate ((bits.length + 7) / 8) (0 : UInt8)).getD (p / 8) 0 = 0 := by
      rw [getD_eq_getElem?_getD, getElem?_replicate]
      split_ifs <;> rfl
    rw [range_zero, foldl_nil, bitAt, hzero]
    simp
  | succ k ih =>
    obtain ⟨hlength, hbits⟩ := ih (Nat.le_of_succ_le hk)
    rw [range_succ, foldl_append, foldl_cons, foldl_nil]
    refine ⟨by rw [length_packBit, hlength], ?_⟩
    intro p
    rw [bitAt_packBit (by rw [hlength]; omega), hbits]
    by_cases hp : k = p
    · subst hp
      simp
    · have hlt : p < k + 1 ↔ p < k := by omega
      simp [hp, hlt]

theorem bytesToBits_eq (bytes : Bytes) :
    bytesToBits bytes = (range (bytes.length * 8)).map (bitAt bytes) := by
  apply map_congr_left
  intro p _
  rw [Bool.eq_iff_iff, decide_eq_true_iff, and_bit_ne_zero _ (Nat.mod_lt p (by decide)), bitAt]

/-- Bits that are packed and unpacked come back, followed by zeros to a whole number of bytes. -/
theorem bytesToBits_bitsToBytes (bits : List Bool) : bytesToBits (bitsToBytes bits) =
    bits ++ replicate ((bits.length + 7) / 8 * 8 - bits.length) false := by
  obtain ⟨hlength, hbits⟩ := packBits_spec bits le_rfl
  apply ext_getElem?
  intro p
  rw [bytesToBits_eq, bitsToBytes, hlength, getElem?_map]
  by_cases hp : p < (bits.length + 7) / 8 * 8
  · rw [getElem?_range hp, map_some, hbits]
    by_cases hlt : p < bits.length
    · rw [getElem?_append_left hlt]
      simp [hlt]
    · rw [getElem?_append_right (Nat.le_of_not_lt hlt), getElem?_replicate, if_pos (by omega)]
      simp [hlt]
  · rw [getElem?_eq_none (by simpa using hp), getElem?_eq_none (by simp; omega)]
    rfl

/-! ## The tree -/

/-- `CPartialMerkleTree`. -/
structure PartialMerkleTree where
  nTransactions : Nat
  vBits : List Bool
  vHash : List Digest
  fBad : Bool

/-- `CalcTreeWidth`. The numbers are far below `2 ^ 32`: at most 16666 transactions are looked
at. -/
def calcTreeWidth (nTransactions height : Nat) : Nat :=
  (nTransactions + (1 <<< height) - 1) >>> height

theorem calcTreeWidth_eq (n height : Nat) :
    calcTreeWidth n height = (n + 2 ^ height - 1) / 2 ^ height := by
  rw [calcTreeWidth, Nat.one_shiftLeft, Nat.shiftRight_eq_div_pow]

def heightFrom (nTransactions nHeight : Nat) : Nat :=
  if 1 < calcTreeWidth nTransactions nHeight then
    heightFrom nTransactions (nHeight + 1) else nHeight
  termination_by nTransactions - nHeight
  decreasing_by
    rename_i h
    rw [calcTreeWidth_eq] at h
    have hpow := Nat.lt_two_pow_self (n := nHeight)
    have htwo := (Nat.le_div_iff_mul_le (Nat.two_pow_pos nHeight)).1 h
    omega

def treeHeight (nTransactions : Nat) : Nat := heightFrom nTransactions 0

variable (sha256 : HashFn)

/-- `CalcHash`. An empty list, and a position past the end, are `none`. -/
def calcHash (vTxid : List Digest) : Nat → Nat → Option Digest
  | 0, pos => vTxid[pos]?
  | height + 1, pos =>
    (calcHash vTxid height (pos * 2)).bind fun left =>
      let right :=
        if pos * 2 + 1 < calcTreeWidth vTxid.length height then calcHash vTxid height (pos * 2 + 1)
        else some left
      right.map fun right => sha256D64 sha256 left right

/-- Whether a node is the parent of at least one matched transaction. -/
def parentOfMatch (nTransactions : Nat) (vMatch : List Bool) (height pos : Nat) : Bool :=
  (range' (pos <<< height) ((pos + 1) <<< height - pos <<< height)).any fun p =>
    p < nTransactions && vMatch.getD p false

/-- `TraverseAndBuild`, on `vBits` and `vHash`. -/
def traverseAndBuild (vTxid : List Digest) (vMatch : List Bool) :
    Nat → Nat → List Bool × List Digest → Option (List Bool × List Digest)
  | 0, pos, (vBits, vHash) =>
    let vBits := vBits ++ [parentOfMatch vTxid.length vMatch 0 pos]
    (calcHash sha256 vTxid 0 pos).map fun hash => (vBits, vHash ++ [hash])
  | height + 1, pos, (vBits, vHash) =>
    let fParentOfMatch := parentOfMatch vTxid.length vMatch (height + 1) pos
    let vBits := vBits ++ [fParentOfMatch]
    if fParentOfMatch then
      (traverseAndBuild vTxid vMatch height (pos * 2) (vBits, vHash)).bind fun built =>
        if pos * 2 + 1 < calcTreeWidth vTxid.length height then
          traverseAndBuild vTxid vMatch height (pos * 2 + 1) built
        else some built
    else (calcHash sha256 vTxid (height + 1) pos).map fun hash => (vBits, vHash ++ [hash])

/-- The constructor from a list and a mask. -/
def PartialMerkleTree.build (vTxid : List Digest) (vMatch : List Bool) : Option PartialMerkleTree :=
  (traverseAndBuild sha256 vTxid vMatch (treeHeight vTxid.length) 0 ([], [])).map
    fun (vBits, vHash) => ⟨vTxid.length, vBits, vHash, false⟩

/-- The bits packed to bytes and unpacked, as they are sent. -/
def PartialMerkleTree.sent (t : PartialMerkleTree) : PartialMerkleTree :=
  { t with vBits := bytesToBits (bitsToBytes t.vBits), fBad := false }

/-- What `TraverseAndExtract` changes. -/
structure Extraction where
  nBitsUsed : Nat
  nHashUsed : Nat
  vMatch : List Digest
  vnIndex : List Nat
  fBad : Bool

/-- The branch of `TraverseAndExtract` that uses a stored hash. -/
def storedHash (t : PartialMerkleTree) (leaf : Bool) (pos : Nat) (st : Extraction) :
    Digest × Extraction :=
  match t.vHash[st.nHashUsed]? with
  | none => (zero, { st with fBad := true })
  | some hash =>
    let st := { st with nHashUsed := st.nHashUsed + 1 }
    (hash, if leaf then
      { st with vMatch := st.vMatch ++ [hash], vnIndex := st.vnIndex ++ [pos] } else st)

def traverseAndExtract (t : PartialMerkleTree) : Nat → Nat → Extraction → Digest × Extraction
  | 0, pos, st =>
    match t.vBits[st.nBitsUsed]? with
    | none => (zero, { st with fBad := true })
    | some fParentOfMatch =>
      storedHash t fParentOfMatch pos { st with nBitsUsed := st.nBitsUsed + 1 }
  | height + 1, pos, st =>
    match t.vBits[st.nBitsUsed]? with
    | none => (zero, { st with fBad := true })
    | some false => storedHash t false pos { st with nBitsUsed := st.nBitsUsed + 1 }
    | some true =>
      let (left, st) :=
        traverseAndExtract t height (pos * 2) { st with nBitsUsed := st.nBitsUsed + 1 }
      if pos * 2 + 1 < calcTreeWidth t.nTransactions height then
        let (right, st) := traverseAndExtract t height (pos * 2 + 1) st
        -- the transactions below two branches are different
        (sha256D64 sha256 left right, if right = left then { st with fBad := true } else st)
      else (sha256D64 sha256 left left, st)

/-- `MAX_BLOCK_WEIGHT / MIN_TRANSACTION_WEIGHT`. -/
def maxTransactions : Nat := 4000000 / (4 * 60)

/-- `ExtractMatches`, with the contents of `vMatch` and `vnIndex` afterwards. -/
def extractMatches (t : PartialMerkleTree) (vnIndex : List Nat) : Digest × List Digest × List Nat :=
  if t.nTransactions = 0 then (zero, [], vnIndex)
  else if t.nTransactions > maxTransactions then (zero, [], vnIndex)
  else if t.vHash.length > t.nTransactions then (zero, [], vnIndex)
  else if t.vBits.length < t.vHash.length then (zero, [], vnIndex)
  else
    let (hashMerkleRoot, st) :=
      traverseAndExtract sha256 t (treeHeight t.nTransactions) 0 ⟨0, 0, [], vnIndex, t.fBad⟩
    if st.fBad then (zero, st.vMatch, st.vnIndex)
    else if (st.nBitsUsed + 7) / 8 ≠ (t.vBits.length + 7) / 8 then (zero, st.vMatch, st.vnIndex)
    else if st.nHashUsed ≠ t.vHash.length then (zero, st.vMatch, st.vnIndex)
    else (hashMerkleRoot, st.vMatch, st.vnIndex)

/-! ## The tree over a list -/

variable {sha256} {vTxid : List Digest} {vMatch : List Bool}

section

variable (node : Digest → Digest → Digest) (vTxid : List Digest)

theorem calcTreeWidth_length (height : Nat) :
    calcTreeWidth vTxid.length height = (level node vTxid height).length := by
  rw [calcTreeWidth_eq, length_level]

theorem heightFrom_eq (height : Nat) :
    heightFrom vTxid.length height = height + depth node (level node vTxid height) := by
  fun_induction heightFrom vTxid.length height with
  | case1 height h ih =>
    rw [calcTreeWidth_length node] at h
    rw [ih, depth_of_lt h, level, add_right_comm]
    rfl
  | case2 height h =>
    rw [calcTreeWidth_length node] at h
    rw [depth_of_le (Nat.le_of_not_lt h), Nat.add_zero]

theorem treeHeight_eq :
    treeHeight vTxid.length = depth node vTxid := by
  rw [treeHeight, heightFrom_eq node, zero_add, level]

end

variable {height pos : Nat}

theorem two_mul_lt_of_lt_succ (h : pos < (level (sha256D64 sha256) vTxid (height + 1)).length) :
    pos * 2 < (level (sha256D64 sha256) vTxid height).length := by
  rw [level, length_nextRow] at h
  omega

theorem calcHash_eq (h : pos < (level (sha256D64 sha256) vTxid height).length) :
    calcHash sha256 vTxid height pos = (level (sha256D64 sha256) vTxid height)[pos]? := by
  induction height generalizing pos with
  | zero => rfl
  | succ height ih =>
    have hleft := two_mul_lt_of_lt_succ h
    rw [calcHash, ih hleft, getElem?_level_succ, mul_comm 2 pos, getElem?_eq_getElem hleft,
      calcTreeWidth_length (sha256D64 sha256), bind_some]
    by_cases hright : pos * 2 + 1 < (level (sha256D64 sha256) vTxid height).length
    · rw [if_pos hright, ih hright, getElem?_eq_getElem hright]
      rfl
    · rw [if_neg hright, getElem?_eq_none (Nat.le_of_not_lt hright)]
      rfl

def matchedBelow (n : Nat) (vMatch : List Bool) (height pos : Nat) : List Nat :=
  (range' (pos * 2 ^ height) (2 ^ height)).filter fun p => p < n && vMatch.getD p false

section

variable (n : Nat) (vMatch : List Bool) (height pos : Nat)

theorem parentOfMatch_eq :
    parentOfMatch n vMatch height pos = !(matchedBelow n vMatch height pos).isEmpty := by
  have hcount : (pos + 1) <<< height - pos <<< height = 2 ^ height := by
    rw [Nat.shiftLeft_eq, Nat.shiftLeft_eq, Nat.succ_mul, Nat.add_sub_cancel_left]
  rw [parentOfMatch, hcount, Nat.shiftLeft_eq, matchedBelow, Bool.eq_iff_iff]
  simp [and_assoc]

theorem matchedBelow_succ :
    matchedBelow n vMatch (height + 1) pos =
      matchedBelow n vMatch height (pos * 2) ++ matchedBelow n vMatch height (pos * 2 + 1) := by
  rw [matchedBelow, matchedBelow, matchedBelow, ← filter_append, pow_succ, mul_two (2 ^ height),
    ← range'_append]
  congr 2
  · congr 1
    ring
  · congr 1
    ring

end

theorem matchedBelow_eq_nil {n : Nat} (h : n ≤ pos * 2 ^ height) :
    matchedBelow n vMatch height pos = [] := by
  rw [matchedBelow, filter_eq_nil_iff]
  intro p hp
  rw [mem_range'_1] at hp
  simp only [Bool.and_eq_true, decide_eq_true_eq, not_and]
  omega

theorem matchedBelow_zero (n : Nat) (vMatch : List Bool) (pos : Nat) :
    matchedBelow n vMatch 0 pos = if pos < n ∧ vMatch.getD pos false = true then [pos] else [] := by
  by_cases h : pos < n ∧ vMatch.getD pos false = true
  · rw [if_pos h, matchedBelow]
    simp only [pow_zero, mul_one, range'_one, filter_cons, h, decide_true, Bool.and_self,
      if_true, filter_nil]
  · rw [if_neg h, matchedBelow, filter_eq_nil_iff]
    simpa using h

theorem mul_lt_length (h : pos < (level (sha256D64 sha256) vTxid height).length) :
    pos * 2 ^ height < vTxid.length := by
  have hpos := Nat.two_pow_pos height
  rw [length_level] at h
  have := (Nat.le_div_iff_mul_le hpos).1 h
  rw [Nat.succ_mul] at this
  omega

/-! ## Building and extracting -/

/-- An extraction that used some bits and hashes and found some leaves. -/
def Extraction.advance (st : Extraction) (vTxid : List Digest) (bits hashes : Nat)
    (leaves : List Nat) :
    Extraction where
  nBitsUsed := st.nBitsUsed + bits
  nHashUsed := st.nHashUsed + hashes
  vMatch := st.vMatch ++ leaves.filterMap (vTxid[·]?)
  vnIndex := st.vnIndex ++ leaves
  fBad := st.fBad

/-- The bits and hashes that are written for a node, and that read from it. -/
structure Encodes (sha256 : HashFn) (vTxid : List Digest) (vMatch : List Bool) (height pos : Nat)
    (node : Digest) (bits : List Bool) (hashes : List Digest) : Prop where
  built : ∀ vBits vHash, traverseAndBuild sha256 vTxid vMatch height pos (vBits, vHash) =
    some (vBits ++ bits, vHash ++ hashes)
  length_le : hashes.length ≤ bits.length
  leaves_le : pos * 2 ^ height + hashes.length ≤ vTxid.length ∧
    pos * 2 ^ height + hashes.length ≤ (pos + 1) * 2 ^ height
  extracted : ∀ (t : PartialMerkleTree) (st : Extraction) (restBits : List Bool) (restHashes :
    List Digest),
    t.nTransactions = vTxid.length → t.vBits.drop st.nBitsUsed = bits ++ restBits →
    t.vHash.drop st.nHashUsed = hashes ++ restHashes →
    traverseAndExtract sha256 t height pos st =
      (node,
        st.advance vTxid bits.length hashes.length (matchedBelow vTxid.length vMatch height pos))

variable {α : Type} {l rest : List α} {a : α}

theorem getElem?_of_drop (h : l.drop k = a :: rest) : l[k]? = some a := by
  rw [← Nat.add_zero k, ← getElem?_drop, h]
  rfl

theorem drop_of_drop {front : List α} (h : l.drop k = front ++ rest) :
    l.drop (k + front.length) = rest := by
  rw [← drop_drop, h, drop_left]

theorem drop_succ_of_drop (h : l.drop k = a :: rest) :
    l.drop (k + 1) = rest := drop_of_drop (show l.drop k = [a] ++ rest from h)

variable {t : PartialMerkleTree}

theorem storedHash_eq (st : Extraction) {hash : Digest} {rest : List Digest}
    (h : t.vHash.drop st.nHashUsed = hash :: rest) (leaf : Bool) (pos : Nat) :
    storedHash t leaf pos st = (hash, ⟨st.nBitsUsed, st.nHashUsed + 1,
      st.vMatch ++ if leaf then [hash] else [], st.vnIndex ++ if leaf then [pos] else [],
        st.fBad⟩) := by
  rw [storedHash, getElem?_of_drop h]
  cases leaf <;> simp

theorem encodes_leaf {txid : Digest} (h : vTxid[pos]? = some txid) :
    Encodes sha256 vTxid vMatch 0 pos txid [vMatch.getD pos false] [txid] := by
  obtain ⟨hlt, hget⟩ := List.getElem?_eq_some_iff.1 h
  have hparent : parentOfMatch vTxid.length vMatch 0 pos = vMatch.getD pos false := by
    rw [parentOfMatch_eq, matchedBelow_zero]
    cases vMatch.getD pos false <;> simp [hlt]
  refine ⟨?_, le_rfl, by simp; omega, ?_⟩
  · intro vBits vHash
    rw [traverseAndBuild, calcHash, h, hparent]
    rfl
  · intro t st restBits restHashes _ hbits hhashes
    rw [traverseAndExtract, getElem?_of_drop hbits]
    show storedHash t _ pos _ = _
    rw [storedHash_eq { st with nBitsUsed := st.nBitsUsed + 1 } hhashes, matchedBelow_zero,
      Extraction.advance]
    cases vMatch.getD pos false <;> simp [hlt, hget]

variable {node : Digest}

theorem encodes_pruned (h : (level (sha256D64 sha256) vTxid (height + 1))[pos]? = some node)
    (hmatch : matchedBelow vTxid.length vMatch (height + 1) pos = []) :
    Encodes sha256 vTxid vMatch (height + 1) pos node [false] [node] := by
  have hlt := (List.getElem?_eq_some_iff.1 h).1
  have hparent : parentOfMatch vTxid.length vMatch (height + 1) pos = false := by
    rw [parentOfMatch_eq, hmatch]
    rfl
  have hpos := Nat.two_pow_pos (height + 1)
  have hleaf := mul_lt_length hlt
  refine ⟨?_, le_rfl, ⟨hleaf, ?_⟩, ?_⟩
  · intro vBits vHash
    rw [traverseAndBuild, hparent, calcHash_eq hlt, h]
    rfl
  · rw [Nat.succ_mul]
    exact Nat.add_le_add_left hpos _
  · intro t st restBits restHashes _ hbits hhashes
    rw [traverseAndExtract, getElem?_of_drop hbits]
    show storedHash t false pos _ = _
    rw [storedHash_eq { st with nBitsUsed := st.nBitsUsed + 1 } hhashes, hmatch, Extraction.advance]
    simp

theorem Extraction.advance_advance (st : Extraction) (vTxid : List Digest)
    (bits hashes bits' hashes' : Nat)
    (leaves leaves' : List Nat) :
    (st.advance vTxid bits hashes leaves).advance vTxid bits' hashes' leaves' =
      st.advance vTxid (bits + bits') (hashes + hashes') (leaves ++ leaves') := by
  simp only [Extraction.advance, filterMap_append, append_assoc, add_assoc]

theorem Extraction.advance_bit (st : Extraction) (vTxid : List Digest) :
    { st with nBitsUsed := st.nBitsUsed + 1 } = st.advance vTxid 1 0 [] := by
  simp [Extraction.advance]

variable {left : Digest} {hashes : List Digest}

theorem encodes_left (h : Encodes sha256 vTxid vMatch height (pos * 2) left bits hashes)
    (hwidth : ¬ pos * 2 + 1 < calcTreeWidth vTxid.length height)
    (hmatch : matchedBelow vTxid.length vMatch (height + 1) pos ≠ []) :
    Encodes sha256 vTxid vMatch (height + 1) pos (sha256D64 sha256 left left)
    (true :: bits) hashes := by
  have hparent : parentOfMatch vTxid.length vMatch (height + 1) pos = true := by
    rw [parentOfMatch_eq]
    simpa using hmatch
  have hright : matchedBelow vTxid.length vMatch height (pos * 2 + 1) = [] := by
    apply matchedBelow_eq_nil
    by_contra hlt
    apply hwidth
    rw [calcTreeWidth_eq, ← Nat.succ_le_iff, Nat.le_div_iff_mul_le (Nat.two_pow_pos _),
      Nat.succ_mul]
    omega
  obtain ⟨hcount, hcount'⟩ := h.leaves_le
  have hpos : pos * 2 ^ (height + 1) = pos * 2 * 2 ^ height := by ring
  have hpos' : (pos * 2 + 1) * 2 ^ height ≤ (pos + 1) * 2 ^ (height + 1) := by
    rw [Nat.pow_succ, Nat.mul_comm (2 ^ height), ← Nat.mul_assoc]
    exact Nat.mul_le_mul_right _ (by omega)
  refine ⟨?_, ?_, ⟨by omega, by omega⟩, ?_⟩
  · intro vBits vHash
    rw [traverseAndBuild, hparent]
    simp only [if_true, h.built, bind_some, if_neg hwidth, append_assoc, cons_append,
      nil_append]
  · exact h.length_le.trans (Nat.le_succ _)
  · intro t st restBits restHashes ht hbits hhashes
    rw [traverseAndExtract, getElem?_of_drop hbits, ht]
    simp only [if_neg hwidth, Extraction.advance_bit st vTxid]
    rw [h.extracted t (st.advance vTxid 1 0 [])
      restBits restHashes ht (drop_succ_of_drop hbits) hhashes,
      Extraction.advance_advance, matchedBelow_succ, hright, append_nil, nil_append, zero_add,
      length_cons, add_comm 1]

theorem encodes_both {right : Digest} {bits' : List Bool} {hashes' : List Digest}
    (h : Encodes sha256 vTxid vMatch height (pos * 2) left bits hashes)
    (h' : Encodes sha256 vTxid vMatch height (pos * 2 + 1) right bits' hashes')
    (hwidth : pos * 2 + 1 < calcTreeWidth vTxid.length height) (hne : right ≠ left)
    (hmatch : matchedBelow vTxid.length vMatch (height + 1) pos ≠ []) :
    Encodes sha256 vTxid vMatch (height + 1) pos (sha256D64 sha256 left right)
    (true :: (bits ++ bits'))
      (hashes ++ hashes') := by
  have hparent : parentOfMatch vTxid.length vMatch (height + 1) pos = true := by
    rw [parentOfMatch_eq]
    simpa using hmatch
  obtain ⟨hcount, hcount'⟩ := h.leaves_le
  obtain ⟨hcountr, hcountr'⟩ := h'.leaves_le
  have hpos : pos * 2 ^ (height + 1) = pos * 2 * 2 ^ height := by ring
  have hpos' : (pos + 1) * 2 ^ (height + 1) = (pos * 2 + 1 + 1) * 2 ^ height := by ring
  have hlength := h.length_le
  have hlength' := h'.length_le
  refine ⟨?_, ?_, ⟨?_, ?_⟩, ?_⟩
  · intro vBits vHash
    rw [traverseAndBuild, hparent]
    simp only [if_true, h.built, h'.built, bind_some, if_pos hwidth, append_assoc,
      cons_append, nil_append]
  · simp only [length_append, length_cons]
    omega
  · rw [length_append]
    omega
  · rw [length_append]
    omega
  · intro t st restBits restHashes ht hbits hhashes
    rw [cons_append, append_assoc] at hbits
    rw [append_assoc] at hhashes
    have hbits₁ := drop_succ_of_drop hbits
    rw [traverseAndExtract, getElem?_of_drop hbits, ht]
    simp only [if_pos hwidth, Extraction.advance_bit st vTxid]
    rw [h.extracted t (st.advance vTxid 1 0 []) _ _ ht hbits₁ hhashes]
    simp only [Extraction.advance_advance]
    rw [h'.extracted t (st.advance vTxid (1 + bits.length) (0 + hashes.length)
        ([] ++ matchedBelow vTxid.length vMatch height (pos * 2))) restBits restHashes ht ?_ ?_,
          if_neg hne, Extraction.advance_advance,
      matchedBelow_succ]
    · simp only [nil_append, zero_add, length_cons, length_append]
      rw [show 1 + bits.length + bits'.length = bits.length + bits'.length + 1 from by omega]
    · rw [Extraction.advance, ← add_assoc]
      exact drop_of_drop hbits₁
    · rw [Extraction.advance, Nat.zero_add]
      exact drop_of_drop hhashes

theorem exists_encodes (vMatch : List Bool) (hfree : TwinFree (sha256D64 sha256) vTxid)
    (hheight : height ≤ depth (sha256D64 sha256) vTxid)
    (hnode : (level (sha256D64 sha256) vTxid height)[pos]? = some node) :
    ∃ bits hashes, Encodes sha256 vTxid vMatch height pos node bits hashes := by
  induction height generalizing pos node with
  | zero => exact ⟨_, _, encodes_leaf hnode⟩
  | succ height ih =>
    by_cases hmatch : matchedBelow vTxid.length vMatch (height + 1) pos = []
    · exact ⟨_, _, encodes_pruned hnode hmatch⟩
    · rw [getElem?_level_succ, Nat.mul_comm 2 pos, map_eq_some_iff] at hnode
      obtain ⟨left, hleft, rfl⟩ := hnode
      obtain ⟨bits, hashes, henc⟩ := ih (Nat.le_of_succ_le hheight) hleft
      have hwidth := calcTreeWidth_length (sha256D64 sha256) vTxid height
      by_cases hright : pos * 2 + 1 < (level (sha256D64 sha256) vTxid height).length
      · rw [getElem?_eq_getElem hright, getD_some]
        obtain ⟨bits', hashes', henc'⟩ :=
          ih (Nat.le_of_succ_le hheight) (getElem?_eq_getElem hright)
        refine ⟨_, _, encodes_both henc henc' (hwidth ▸ hright) ?_ hmatch⟩
        intro heq
        refine hfree height hheight ⟨pos, left, ?_, ?_⟩
        · rwa [Nat.mul_comm]
        · rw [Nat.mul_comm, getElem?_eq_getElem hright, heq]
      · rw [getElem?_eq_none (Nat.le_of_not_lt hright), getD_none]
        exact ⟨_, _, encodes_left henc (hwidth ▸ hright) hmatch⟩

def matchedPositions (vTxid : List Digest) (vMatch : List Bool) : List Nat :=
  (range vTxid.length).filter fun p => vMatch.getD p false

theorem length_level_depth (node : Digest → Digest → Digest) (vTxid : List Digest) :
    (level node vTxid (depth node vTxid)).length ≤ 1 := by
  fun_induction depth node vTxid with
  | case1 vTxid h => exact h
  | case2 vTxid h ih =>
    rw [level_succ]
    exact ih

theorem matchedBelow_root (h : vTxid.length ≤ 2 ^ depth (sha256D64 sha256) vTxid) :
    matchedBelow vTxid.length vMatch (depth (sha256D64 sha256) vTxid) 0 =
      matchedPositions vTxid vMatch := by
  obtain ⟨k, hk⟩ := Nat.exists_eq_add_of_le h
  rw [matchedBelow, matchedPositions, Nat.zero_mul, hk, ← range'_append, filter_append,
    ← range_eq_range']
  have hrest : (range' (0 + 1 * vTxid.length) k).filter
      (fun p => decide (p < vTxid.length) && vMatch.getD p false) = [] := by
    rw [filter_eq_nil_iff]
    intro p hp
    rw [mem_range'_1] at hp
    simp only [Bool.and_eq_true, decide_eq_true_eq, not_and]
    omega
  rw [hrest, append_nil]
  apply filter_congr
  intro p hp
  simp [mem_range.1 hp]

theorem getElem?_root (sha256 : HashFn) (h : vTxid ≠ []) :
    (level (sha256D64 sha256) vTxid (depth (sha256D64 sha256) vTxid))[0]? =
      some (computeMerkleRoot sha256 vTxid).1 ∧
    vTxid.length ≤ 2 ^ depth (sha256D64 sha256) vTxid := by
  have hle := length_level_depth (sha256D64 sha256) vTxid
  have hpos := length_pos_iff.2 h
  have htwo := Nat.two_pow_pos (depth (sha256D64 sha256) vTxid)
  have hone : 0 < (level (sha256D64 sha256) vTxid (depth (sha256D64 sha256) vTxid)).length := by
    rw [length_level]
    exact Nat.div_pos (by omega) htwo
  rw [length_level, Nat.div_le_iff_le_mul_add_pred htwo] at hle
  rw [computeMerkleRoot_fst]
  refine ⟨?_, by omega⟩
  cases hrow : level (sha256D64 sha256) vTxid (depth (sha256D64 sha256) vTxid) with
  | nil =>
    rw [hrow] at hone
    exact absurd hone (by simp)
  | cons root row => rfl

theorem extract_build (hne : vTxid ≠ []) (hmax : vTxid.length ≤ maxTransactions)
    (hfree : TwinFree (sha256D64 sha256) vTxid) (vMatch : List Bool) :
    ∃ t, PartialMerkleTree.build sha256 vTxid vMatch = some t ∧
      extractMatches sha256 t.sent [] = ((computeMerkleRoot sha256 vTxid).1,
        (matchedPositions vTxid vMatch).filterMap (vTxid[·]?), matchedPositions vTxid vMatch) := by
  obtain ⟨hroot, hdepth⟩ := getElem?_root sha256 hne
  obtain ⟨bits, hashes, henc⟩ := exists_encodes vMatch hfree le_rfl hroot
  have hheight := treeHeight_eq (sha256D64 sha256) vTxid
  refine ⟨⟨vTxid.length, bits, hashes, false⟩, ?_, ?_⟩
  · rw [PartialMerkleTree.build, hheight, henc.built]
    rfl
  · have hlength := henc.length_le
    have hleaves := henc.leaves_le.1
    have hpos := length_pos_iff.2 hne
    have hbits : (bytesToBits (bitsToBytes bits)).length = (bits.length + 7) / 8 * 8 := by
      rw [bytesToBits_bitsToBytes, length_append, length_replicate]
      omega
    obtain ⟨t, ht⟩ : ∃ t, t = PartialMerkleTree.sent ⟨vTxid.length, bits, hashes, false⟩ := ⟨_, rfl⟩
    have hn : t.nTransactions = vTxid.length := by rw [ht]; rfl
    have hvBits : t.vBits = bytesToBits (bitsToBytes bits) := by rw [ht]; rfl
    have hvHash : t.vHash = hashes := by rw [ht]; rfl
    have hfBad : t.fBad = false := by rw [ht]; rfl
    have hextract := henc.extracted t ⟨0, 0, [], [], false⟩
      (replicate ((bits.length + 7) / 8 * 8 - bits.length) false) [] hn
      (by rw [hvBits, bytesToBits_bitsToBytes, drop_zero])
      (by rw [hvHash, append_nil, drop_zero])
    have hpadding : (bits.length + 7) / 8 = ((bits.length + 7) / 8 * 8 + 7) / 8 := by omega
    rw [← ht, extractMatches, if_neg (by omega), if_neg (by omega), if_neg (by rw [hvHash]; omega),
      if_neg (by rw [hvHash, hvBits]; omega), hn, hfBad, hheight, hextract,
        matchedBelow_root hdepth]
    simp [Extraction.advance, hvBits, hvHash, hbits, ← hpadding]

/-! ## Proofs of any origin -/

variable {st : Extraction} {leaf : Bool}

theorem fBad_storedHash (h : (storedHash t leaf pos st).2.fBad = false) : st.fBad = false := by
  rw [storedHash] at h
  split at h
  · cases h
  · cases leaf <;> exact h

theorem fBad_traverseAndExtract (h : (traverseAndExtract sha256 t height pos st).2.fBad = false) :
    st.fBad = false := by
  induction height generalizing pos st with
  | zero =>
    rw [traverseAndExtract] at h
    split at h
    · cases h
    · have hst := fBad_storedHash h
      exact hst
  | succ height ih =>
    rw [traverseAndExtract] at h
    split at h
    · cases h
    · have hst := fBad_storedHash h
      exact hst
    · simp only at h
      split_ifs at h
      · have hst := ih (ih h)
        exact hst
      · have hst := ih h
        exact hst

/-- The pairs that a list combines have no second preimage. -/
def Binding (sha256 : HashFn) (vTxid : List Digest) : Prop :=
  ∀ p, Combined (sha256D64 sha256) vTxid p →
    ∀ a b, sha256D64 sha256 a b = sha256D64 sha256 p.1 p.2 → (a, b) = p

/-- The transactions found are those of the list, at their positions. -/
def Genuine (vTxid : List Digest) (st : Extraction) : Prop :=
  Forall₂ (fun txid pos => vTxid[pos]? = some txid) st.vMatch st.vnIndex

theorem genuine_storedHash (hst : Genuine vTxid st)
    (hbad : (storedHash t leaf pos st).2.fBad = false)
    (hnode : leaf = true → vTxid[pos]? = some (storedHash t leaf pos st).1) :
    Genuine vTxid (storedHash t leaf pos st).2 := by
  rw [storedHash] at hbad hnode ⊢
  cases hhash : t.vHash[st.nHashUsed]? with
  | none =>
    rw [hhash] at hbad
    cases hbad
  | some hash =>
    rw [hhash] at hnode
    cases leaf with
    | false => exact hst
    | true => exact rel_append hst (.cons (hnode rfl) .nil)

/-- Below a node with the hash that the list has there, nothing but transactions of the list is
found. -/
theorem genuine_traverseAndExtract (hbinding : Binding sha256 vTxid)
    (hheight : height ≤ depth (sha256D64 sha256) vTxid) (hst : Genuine vTxid st)
    (hbad : (traverseAndExtract sha256 t height pos st).2.fBad = false)
    (hnode : (level (sha256D64 sha256) vTxid height)[pos]? =
      some (traverseAndExtract sha256 t height pos st).1) :
    Genuine vTxid (traverseAndExtract sha256 t height pos st).2 := by
  induction height generalizing pos st with
  | zero =>
    rw [traverseAndExtract] at hbad hnode ⊢
    cases hbit : t.vBits[st.nBitsUsed]? with
    | none =>
      rw [hbit] at hbad
      cases hbad
    | some leaf =>
      rw [hbit] at hbad hnode
      exact genuine_storedHash hst hbad fun _ => hnode
  | succ height ih =>
    have hbelow := Nat.le_of_succ_le hheight
    rw [traverseAndExtract] at hbad hnode ⊢
    cases hbit : t.vBits[st.nBitsUsed]? with
    | none =>
      rw [hbit] at hbad
      cases hbad
    | some parent =>
      rw [hbit] at hbad hnode
      cases parent with
      | false => exact genuine_storedHash hst hbad fun h => by cases h
      | true =>
        -- the children of the list's node are the only ones with its hash
        rw [getElem?_level_succ, mul_comm 2 pos, map_eq_some_iff] at hnode
        obtain ⟨left, hleft, hnode⟩ := hnode
        have hcombined : Combined (sha256D64 sha256) vTxid
            (left, (level (sha256D64 sha256) vTxid height)[pos * 2 + 1]?.getD left) := by
          refine ⟨height, hheight, mem_of_getElem? (i := pos) ?_⟩
          rw [getElem?_pairUp, mul_comm 2 pos, hleft]
          rfl
        have hchildren := hbinding _ hcombined
        generalize hst₁ : { st with nBitsUsed := st.nBitsUsed + 1 } = st₁ at hbad hnode ⊢
        have hgenuine₁ : Genuine vTxid st₁ := by
          rw [← hst₁]
          exact hst
        by_cases hwidth : pos * 2 + 1 < calcTreeWidth t.nTransactions height
        · simp only [if_pos hwidth] at hbad hnode ⊢
          obtain ⟨hl, hr⟩ := Prod.mk.inj (hchildren _ _ hnode.symm)
          by_cases hsame : (traverseAndExtract sha256 t height (pos * 2 + 1)
              (traverseAndExtract sha256 t height (pos * 2) st₁).2).1 =
              (traverseAndExtract sha256 t height (pos * 2) st₁).1
          · rw [if_pos hsame] at hbad
            cases hbad
          · rw [if_neg hsame] at hbad ⊢
            have hright : (level (sha256D64 sha256) vTxid height)[pos * 2 + 1]? =
                some (traverseAndExtract sha256 t height (pos * 2 + 1)
                  (traverseAndExtract sha256 t height (pos * 2) st₁).2).1 := by
              cases h : (level (sha256D64 sha256) vTxid height)[pos * 2 + 1]? with
              | none =>
                rw [h, getD_none] at hr
                exact absurd (hr.trans hl.symm) hsame
              | some right =>
                rw [h, getD_some] at hr
                rw [hr]
            apply ih hbelow _ hbad hright
            apply ih hbelow hgenuine₁ (fBad_traverseAndExtract hbad)
            rw [hleft, hl]
        · simp only [if_neg hwidth] at hbad hnode ⊢
          obtain ⟨hl, -⟩ := Prod.mk.inj (hchildren _ _ hnode.symm)
          apply ih hbelow hgenuine₁ hbad
          rw [hleft, hl]

theorem extract_sound (hne : vTxid ≠ []) (hbinding : Binding sha256 vTxid)
    (hheight : treeHeight t.nTransactions = treeHeight vTxid.length)
    (hzero : (computeMerkleRoot sha256 vTxid).1 ≠ zero)
    (hroot : (extractMatches sha256 t []).1 = (computeMerkleRoot sha256 vTxid).1) :
    Forall₂ (fun txid pos => vTxid[pos]? = some txid) (extractMatches sha256 t []).2.1
      (extractMatches sha256 t []).2.2 := by
  rw [treeHeight_eq (sha256D64 sha256)] at hheight
  rw [extractMatches, hheight] at hroot ⊢
  simp only at hroot ⊢
  split_ifs at hroot ⊢ with h₁ h₂ h₃ h₄ hbad h₅ h₆
  iterate 7
    · exact absurd hroot.symm hzero
  have hstart : Genuine vTxid ⟨0, 0, [], [], t.fBad⟩ := .nil
  apply genuine_traverseAndExtract hbinding le_rfl hstart (Bool.eq_false_iff.2 hbad)
  rw [(getElem?_root sha256 hne).1, ← hroot]

/-- The partial tree of a list that `ComputeMerkleRoot` finds in order gives back the root and the
matched transactions, and no partial tree of the same height that gives this root contains another
transaction, or one at another position. -/
theorem partial_tree_complete_and_sound (hne : 1 ≤ vTxid.length) (hmax : vTxid.length ≤ 16666)
    (hmutated : (computeMerkleRoot sha256 vTxid).2 = false) (hbinding : Binding sha256 vTxid) :
    (∀ vMatch : List Bool, vMatch.length = vTxid.length →
      ∃ t, PartialMerkleTree.build sha256 vTxid vMatch = some t ∧
        extractMatches sha256 t.sent [] = ((computeMerkleRoot sha256 vTxid).1,
          (matchedPositions vTxid vMatch).filterMap (vTxid[·]?), matchedPositions vTxid vMatch)) ∧
    ∀ t : PartialMerkleTree, treeHeight t.nTransactions = treeHeight vTxid.length →
      (computeMerkleRoot sha256 vTxid).1 ≠ zero →
      (extractMatches sha256 t []).1 = (computeMerkleRoot sha256 vTxid).1 →
      Forall₂ (fun txid pos => vTxid[pos]? = some txid) (extractMatches sha256 t []).2.1
        (extractMatches sha256 t []).2.2 := by
  have hnil : vTxid ≠ [] := length_pos_iff.1 hne
  refine ⟨?_, ?_⟩
  · intro vMatch _
    exact extract_build hnil hmax (mutated_eq_false_iff.1 hmutated) vMatch
  · intro t hheight hzero hroot
    exact extract_sound hnil hbinding hheight hzero hroot

def lone : HashFn := fun bytes =>
  if bytes = (Digest.filled 1).bytes ++ (Digest.filled 2).bytes then Digest.filled 3
  else if bytes = (Digest.filled 3).bytes then Digest.filled 4 else Digest.filled 0

theorem lone_binding : Binding lone [Digest.filled 1, Digest.filled 2] := by
  have hdepth : depth (sha256D64 lone) [Digest.filled 1, Digest.filled 2] = 1 := by
    rw [depth_of_lt (by decide), depth_of_le (by decide)]
  intro p ⟨height, hheight, hp⟩ a b hab
  obtain rfl : height = 0 := by omega
  obtain rfl : p = (Digest.filled 1, Digest.filled 2) := by simpa [level, pairUp] using hp
  have hvalue : sha256D64 lone (Digest.filled 1) (Digest.filled 2) = Digest.filled 4 := by
    decide +kernel
  by_cases h : a.bytes ++ b.bytes = (Digest.filled 1).bytes ++ (Digest.filled 2).bytes
  · obtain ⟨ha, hb⟩ := append_inj h (by rw [a.length_bytes, (Digest.filled 1).length_bytes])
    rw [Prod.mk.injEq, Digest.mk.injEq, Digest.mk.injEq]
    exact ⟨ha, hb⟩
  · have hlong : a.bytes ++ b.bytes ≠ (Digest.filled 3).bytes := by
      intro heq
      have := congrArg length heq
      rw [length_append, a.length_bytes, b.length_bytes, (Digest.filled 3).length_bytes] at this
      omega
    have hinner : lone (a.bytes ++ b.bytes) = Digest.filled 0 := by
      rw [lone, if_neg h, if_neg hlong]
    have hother : sha256D64 lone a b = Digest.filled 0 := by
      rw [sha256D64, hinner]
      decide +kernel
    rw [hother, hvalue] at hab
    exact absurd hab (by decide +kernel)

theorem partial_tree_complete_and_sound_pair :
    ∃ t, PartialMerkleTree.build lone [Digest.filled 1, Digest.filled 2] [false, true] = some t ∧
      extractMatches lone t.sent [] =
      ((computeMerkleRoot lone [Digest.filled 1, Digest.filled 2]).1, [Digest.filled 2], [1]) := by
  have hmutated : (computeMerkleRoot lone [Digest.filled 1, Digest.filled 2]).2 = false := by
    rw [mutated_eq_false_iff]
    intro height hheight
    rw [depth_of_lt (by decide), depth_of_le (by decide)] at hheight
    obtain rfl : height = 0 := by omega
    rw [← mutation_iff]
    decide +kernel
  exact (partial_tree_complete_and_sound (by decide) (by decide) hmutated lone_binding).1 [false,
    true] rfl

end Soveroot.Merkle
