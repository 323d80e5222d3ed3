import Soveroot.Lib.Fenwick
import Soveroot.Pow.Machine

/-!
# The packed replay store

`_PackedReplay` of `packed_reconstruction.py`, and the same store in `PackedReconstructionArena`: a
bitmap of the words written, their values in the order of the words, and a binary indexed tree that
counts the words written in each chunk of 256. The counters of the tree have 16 bits. Python raises
where one would be passed, C++ wraps around (`Width`).

The last counter of the tree counts every word written. The layout of half the scratchpad leaves
room for more than 65535 values from 2 MiB on.
-/

namespace Soveroot.Pow

open Check Fenwick List Stateful

inductive PackedExhausted where
  | full
  deriving DecidableEq

/-- The part of `PackedLayout` that the store reads. -/
structure PackedLayout where
  wordCount : Nat
  rankChunks : Nat
  primaryCacheCapacity : Nat
  replayValueCapacity : Nat

/-- The layout of `_PackedArena`. -/
def PackedLayout.new {μ : Type} (scratchpadBytes budgetBytes : Nat) :
    Except (Raised μ) PackedLayout := do
  let wordCount := scratchpadBytes / 8
  let bitmapBytes := (wordCount + 7) / 8
  let arenaBytes := budgetBytes - 512
  let rankChunks := (wordCount + 256 - 1) / 256
  let rankBytes := (rankChunks + 1) * 2
  let available := arenaBytes - bitmapBytes * 2 - rankBytes
  require (16 + 8 < available) (.valueError "budget cannot hold packed replay and primary cache")
  let primaryBytes := available * 1 / 4
  let primaryBytes := primaryBytes - primaryBytes % 16
  let primaryCapacity := primaryBytes / 16
  let replayBytes := available - primaryBytes
  let replayCapacity := replayBytes / 8
  require (¬ (primaryCapacity = 0 ∨ replayCapacity = 0))
    (.valueError "budget cannot split packed replay and primary cache")
  pure ⟨wordCount, rankChunks, primaryCapacity, replayCapacity⟩

/-- The bitmap, the counters and the values, and the counts. -/
structure PackedReplay where
  present : Nat → Bool
  ranks : Nat → Nat
  values : Nat → Nat
  distinct : Nat := 0
  peakEntries : Nat := 0
  rankProbes : Nat := 0
  shiftedBytes : Nat := 0

/-- What happens to a number that is put into a counter. -/
def Width : Type := Nat → Except (Raised PackedExhausted) Nat

/-- `struct.pack_into("<H", …)`. -/
def Width.python : Width := fun n => if n < 2 ^ 16 then .ok n else .error .structError

/-- `static_cast<std::uint16_t>`. -/
def Width.cpp : Width := fun n => .ok (n % 2 ^ 16)

/-- A counter that is wide enough. -/
def Width.unbounded : Width := .ok

namespace PackedReplay

/-- The constructor, and `ResetReplay`: the values stay what they are. -/
def reset (values : Nat → Nat) : PackedReplay :=
  { present := fun _ => false, ranks := fun _ => 0, values := values }

/-- The bits set among the first `k` of a byte of the bitmap. -/
def bitCount (r : PackedReplay) (byte k : Nat) : Nat :=
  (range k).countP fun bit => r.present (byte * 8 + bit)

def rank (r : PackedReplay) (word : Nat) : Nat :=
  let chunk := word / 256
  let firstByte := chunk * 256 / 8
  let finalByte := word / 8
  ((down chunk).map r.ranks).sum +
    ((range' firstByte (finalByte - firstByte)).map fun byte => r.bitCount byte 8).sum +
      r.bitCount finalByte (word &&& 7)

/-- The probes of `_rank`. -/
def probes (word : Nat) : Nat :=
  (down (word / 256)).length + (word / 8 - word / 256 * 256 / 8) + 1

/-- A value is put in front of those from `rank` on. -/
def insertValue (r : PackedReplay) (rank word value : Nat) : PackedReplay :=
  { r with
    present := Function.update r.present word true
    values := fun i =>
      if i < rank ∨ r.distinct < i then r.values i else if i = rank then value else r.values (i - 1)
    shiftedBytes := r.shiftedBytes + (r.distinct - rank) * 8 }

def countEntry (r : PackedReplay) : PackedReplay :=
  { r with distinct := r.distinct + 1, peakEntries := max r.peakEntries (r.distinct + 1) }

/-- One turn of `_fenwick_add`. -/
def bump (width : Width) (index : Nat) : Stateful PackedReplay (Raised PackedExhausted) Unit := do
  let r ← Stateful.read
  let count ← Stateful.check (width (r.ranks index + 1))
  Stateful.update fun r =>
    { r with ranks := Function.update r.ranks index count, rankProbes := r.rankProbes + 1 }

end PackedReplay

namespace PackedLayout

variable (layout : PackedLayout) (width : Width)

def fenwickAdd (chunk : Nat) : Stateful PackedReplay (Raised PackedExhausted) Unit :=
  (up layout.rankChunks (chunk + 1)).foldlM (fun _ index => PackedReplay.bump width index) ()

/-- The word a selector selects. -/
def word (selector : Nat) : Nat := selector &&& (layout.wordCount - 1)

/-- `_PackedReplay.write`, and `ReplayWrite`. -/
def write (selector value : Nat) : Stateful PackedReplay (Raised PackedExhausted) Unit := do
  let word := layout.word selector
  let r ← Stateful.read
  let rank := r.rank word
  Stateful.update fun r => { r with rankProbes := r.rankProbes + PackedReplay.probes word }
  if r.present word then
    Stateful.update fun r => { r with values := Function.update r.values rank (u64 value) }
  else do
    Stateful.check (require (r.distinct ≠ layout.replayValueCapacity) (.own .full))
    Stateful.update fun r => r.insertValue rank word (u64 value)
    layout.fenwickAdd width (word / 256)
    Stateful.update PackedReplay.countEntry

/-- One more write: its outcome, after those of the writes before. -/
def step (out : List (Except (Raised PackedExhausted) Unit) × PackedReplay) (w : Nat × Nat) :
    List (Except (Raised PackedExhausted) Unit) × PackedReplay :=
  let (outcome, r) := layout.write width w.1 w.2 out.2
  (out.1 ++ [outcome], r)

/-- The outcomes of all writes and the store after them. A refused write does not end the run. -/
def run (values : Nat → Nat) (writes : List (Nat × Nat)) :
    List (Except (Raised PackedExhausted) Unit) × PackedReplay :=
  writes.foldl (layout.step width) ([], PackedReplay.reset values)

/-- The counters are wide enough: over every sequence of writes none exceeds 65535, Python raises no
packing error, and nothing wraps around in C++. -/
def WideEnough : Prop := ∀ values writes,
  (∀ index, (layout.run .unbounded values writes).2.ranks index ≤ 65535) ∧
    layout.run .python values writes = layout.run .unbounded values writes ∧
    layout.run .cpp values writes = layout.run .unbounded values writes

/-! ## The counters over a run -/

variable {layout width} {r : PackedReplay}

/-- As `_PackedArena` lays them out. -/
structure Regular (layout : PackedLayout) : Prop where
  wordCount : layout.wordCount = 256 * layout.rankChunks
  rankChunks : ∃ m, layout.rankChunks = 2 ^ m

/-- No counter exceeds the words written, and the last one has them all. -/
structure Counts (layout : PackedLayout) (r : PackedReplay) : Prop where
  le : ∀ index, r.ranks index ≤ r.distinct
  last : r.ranks layout.rankChunks = r.distinct
  distinct : r.distinct ≤ layout.replayValueCapacity

theorem counts_reset (values : Nat → Nat) : layout.Counts (PackedReplay.reset values) :=
  ⟨fun _ => Nat.le_refl 0, rfl, Nat.zero_le _⟩

variable {l : List Nat}

theorem foldlM_bump (hl : l.Nodup)
    (h : ∀ index ∈ l, width (r.ranks index + 1) = .ok (r.ranks index + 1)) :
    l.foldlM (fun _ index => PackedReplay.bump width index) () r =
      (.ok (), { r with
        ranks := fun index => r.ranks index + if index ∈ l then 1 else 0
        rankProbes := r.rankProbes + l.length }) := by
  induction l generalizing r with
  | nil => rfl
  | cons index l ih =>
    obtain ⟨hnot, hl⟩ := nodup_cons.1 hl
    have hbump : PackedReplay.bump width index r = (.ok (), { r with
        ranks := Function.update r.ranks index (r.ranks index + 1)
        rankProbes := r.rankProbes + 1 }) := by
      simp only [PackedReplay.bump, bind_apply, Stateful.read, Stateful.next, Stateful.check,
        h index (mem_cons_self ..), Stateful.update]
    rw [foldlM_cons, bind_apply, hbump, Stateful.next, ih hl]
    · congr 2
      · funext j
        by_cases hj : j = index
        · simp [hj, hnot]
        · simp [hj]
      · simp only [length_cons]
        omega
    · intro j hj
      have hne : j ≠ index := by rintro rfl; exact hnot hj
      simp only [Function.update_of_ne hne]
      exact h j (mem_cons_of_mem _ hj)

theorem foldlM_bump_raises {index : Nat} (hmem : index ∈ l) (hl : l.Nodup)
    (hfull : r.ranks index = 65535) :
    (l.foldlM (fun _ index => PackedReplay.bump .python index) () r).1 = .error .structError := by
  induction l generalizing r with
  | nil => cases hmem
  | cons j l ih =>
    obtain ⟨hnot, hl⟩ := nodup_cons.1 hl
    rw [foldlM_cons, bind_apply]
    by_cases hwide : r.ranks j + 1 < 2 ^ 16
    · have hne : index ≠ j := by rintro rfl; omega
      simp only [PackedReplay.bump, bind_apply, Stateful.read, Stateful.next, Stateful.check,
        Width.python, if_pos hwide, Stateful.update]
      refine ih ((mem_cons.1 hmem).resolve_left hne) hl ?_
      exact (Function.update_of_ne hne _ _).trans hfull
    · simp only [PackedReplay.bump, bind_apply, Stateful.read, Stateful.next, Stateful.check,
        Width.python, if_neg hwide]

/-- A write of a word that is there, or finds no room, leaves the counters alone. -/
theorem write_old {selector : Nat} (value : Nat)
    (h : r.present (layout.word selector) = true ∨
      r.distinct = layout.replayValueCapacity) :
    (∀ width, layout.write width selector value r = layout.write .unbounded selector value r) ∧
      (layout.write .unbounded selector value r).2.ranks = r.ranks ∧
      (layout.write .unbounded selector value r).2.distinct = r.distinct := by
  by_cases hpresent : r.present (layout.word selector) = true
  · simp [write, bind_apply, Stateful.read, Stateful.next, Stateful.update, hpresent]
  · simp [write, bind_apply, Stateful.read, Stateful.next, Stateful.update, hpresent,
      Stateful.check, require, h.resolve_left hpresent]

theorem write_new (selector value : Nat)
    (hnew : r.present (layout.word selector) = false)
    (hroom : r.distinct < layout.replayValueCapacity) :
    ∃ r₁ : PackedReplay, r₁.ranks = r.ranks ∧ r₁.distinct = r.distinct ∧
      r₁.present = Function.update r.present (layout.word selector) true ∧
      ∀ width, layout.write width selector value r = Stateful.next
        (fun _ => Stateful.update PackedReplay.countEntry)
        (layout.fenwickAdd width ((layout.word selector) / 256) r₁) := by
  let probed := { r with rankProbes := r.rankProbes + PackedReplay.probes (layout.word selector) }
  refine ⟨probed.insertValue (r.rank (layout.word selector)) (layout.word selector) (u64 value),
    rfl, rfl, rfl, fun width => ?_⟩
  simp [write, probed, bind_apply, Stateful.read, Stateful.next, Stateful.update, hnew,
    Stateful.check, require, hroom.ne]

theorem Regular.up (h : layout.Regular) (selector : Nat) :
    layout.rankChunks ∈ up layout.rankChunks (layout.word selector / 256 + 1) ∧
      (up layout.rankChunks (layout.word selector / 256 + 1)).Nodup := by
  obtain ⟨m, hm⟩ := h.rankChunks
  have hpos := Nat.two_pow_pos m
  have hword := Nat.and_le_right (n := selector) (m := layout.wordCount - 1)
  rw [← word, h.wordCount] at hword
  rw [hm]
  exact up_two_pow (by omega) (by omega)

theorem write_room (h : layout.Regular) (hr : layout.Counts r) (selector value : Nat)
    (hnew : r.present (layout.word selector) = false)
    (hroom : r.distinct < layout.replayValueCapacity) :
    ∃ r', layout.Counts r' ∧ r'.distinct = r.distinct + 1 ∧
      r'.present = Function.update r.present (layout.word selector) true ∧
      ∀ width : Width, (∀ n ≤ r.distinct + 1, width n = .ok n) →
        layout.write width selector value r = (.ok (), r') := by
  obtain ⟨hmem, hnodup⟩ := h.up selector
  obtain ⟨r₁, hranks, hdistinct, hpresent, hwrite⟩ := write_new selector value hnew hroom
  set l := Fenwick.up layout.rankChunks (layout.word selector / 256 + 1) with hl
  refine ⟨PackedReplay.countEntry { r₁ with
      ranks := fun index => r₁.ranks index + if index ∈ l then 1 else 0
      rankProbes := r₁.rankProbes + l.length }, ⟨?_, ?_, ?_⟩, ?_, hpresent, ?_⟩
  · intro index
    have := hr.le index
    simp only [PackedReplay.countEntry, hranks, hdistinct]
    split <;> omega
  · simp only [PackedReplay.countEntry, hranks, hdistinct, hmem, if_true, hr.last]
  · simp only [PackedReplay.countEntry, hdistinct]
    omega
  · simp only [PackedReplay.countEntry, hdistinct]
  · intro width hwidth
    rw [hwrite, fenwickAdd, ← hl, foldlM_bump hnodup]
    · rfl
    · intro index _
      have := hr.le index
      exact hwidth _ (by rw [hranks]; omega)

section

variable (width : Width) (h : layout.Regular)
  (hwidth : ∀ n ≤ layout.replayValueCapacity, width n = .ok n)
include h hwidth

/-- With counters that are wide enough for the values there is room for, the width does not show. -/
theorem write_eq_unbounded (hr : layout.Counts r) (w : Nat × Nat) :
    layout.write width w.1 w.2 r = layout.write .unbounded w.1 w.2 r ∧
      layout.Counts (layout.write .unbounded w.1 w.2 r).2 := by
  by_cases hold : r.present (layout.word w.1) = true ∨ r.distinct = layout.replayValueCapacity
  · obtain ⟨hwrite, hranks, hdistinct⟩ := write_old w.2 hold
    refine ⟨hwrite width, ?_, ?_, ?_⟩
    · rw [hranks, hdistinct]
      exact hr.le
    · rw [hranks, hdistinct]
      exact hr.last
    · rw [hdistinct]
      exact hr.distinct
  · rw [not_or, Bool.not_eq_true] at hold
    have hroom := Nat.lt_of_le_of_ne hr.distinct hold.2
    obtain ⟨r', hcounts, -, -, hwrite⟩ := write_room h hr w.1 w.2 hold.1 hroom
    rw [hwrite width fun n hn => hwidth n (by omega), hwrite .unbounded fun _ _ => rfl]
    exact ⟨rfl, hcounts⟩

theorem run_eq_unbounded (values : Nat → Nat) (writes : List (Nat × Nat)) :
    layout.run width values writes = layout.run .unbounded values writes ∧
      layout.Counts (layout.run .unbounded values writes).2 := by
  suffices hfrom : ∀ out, layout.Counts out.2 →
      writes.foldl (layout.step width) out = writes.foldl (layout.step .unbounded) out ∧
        layout.Counts (writes.foldl (layout.step .unbounded) out).2 from
    hfrom _ (counts_reset values)
  induction writes with
  | nil => exact fun out hout => ⟨rfl, hout⟩
  | cons w writes ih =>
    intro out hout
    obtain ⟨hwrite, hcounts⟩ := write_eq_unbounded width h hwidth hout w
    have hstep : layout.step width out w = layout.step .unbounded out w := by
      rw [step, step, hwrite]
    rw [foldl_cons, foldl_cons, hstep]
    exact ih _ hcounts

end

/-- The first `n` words in turn. -/
def inTurn (n : Nat) : List (Nat × Nat) := (range n).map fun word => (word, 0)

theorem run_inTurn_succ (values : Nat → Nat) (n : Nat) :
    layout.run width values (inTurn (n + 1)) =
      layout.step width (layout.run width values (inTurn n)) (n, 0) := by
  rw [run, inTurn, range_succ, map_append, foldl_append]
  rfl

variable {n : Nat}

theorem Regular.word_of_lt (h : layout.Regular) (hn : n < layout.wordCount) :
    layout.word n = n := by
  obtain ⟨m, hm⟩ := h.rankChunks
  have hcount : layout.wordCount = 2 ^ (8 + m) := by
    rw [h.wordCount, hm, Nat.pow_add]
  rw [word, hcount, Nat.and_two_pow_sub_one_eq_mod, ← hcount, Nat.mod_eq_of_lt hn]

theorem run_inTurn (width : Width) (h : layout.Regular) (values : Nat → Nat)
    (hroom : n ≤ layout.replayValueCapacity) (hwords : n ≤ layout.wordCount)
    (hwidth : ∀ k ≤ n, width k = .ok k) :
    layout.Counts (layout.run width values (inTurn n)).2 ∧
      (layout.run width values (inTurn n)).2.distinct = n ∧
      ∀ word, (layout.run width values (inTurn n)).2.present word = decide (word < n) := by
  induction n with
  | zero => exact ⟨counts_reset values, rfl, fun word => by simp [run, inTurn, PackedReplay.reset]⟩
  | succ n ih =>
    obtain ⟨hcounts, hdistinct, hpresent⟩ := ih (by omega) (by omega) fun k hk =>
      hwidth k (by omega)
    have hword := h.word_of_lt hwords
    obtain ⟨r', hcounts', hdistinct', hpresent', hwrite⟩ := write_room h hcounts n 0
      (by simp [hword, hpresent]) (by omega)
    rw [hdistinct] at hdistinct' hwrite
    have hrun : (layout.run width values (inTurn (n + 1))).2 = r' := by
      rw [run_inTurn_succ, step, hwrite width hwidth]
    rw [hrun]
    refine ⟨hcounts', hdistinct', fun word => ?_⟩
    rw [hpresent', hword, Function.update_apply, hpresent]
    by_cases hlt : word = n
    · simp [hlt]
    · simp only [hlt, if_false, decide_eq_decide]
      omega

theorem python_raises (h : layout.Regular) (values : Nat → Nat) (hn : n = 65535)
    (hroom : n < layout.replayValueCapacity) (hwords : n < layout.wordCount) :
    (layout.run .python values (inTurn (n + 1))).1.getLast? = some (.error .structError) := by
  obtain ⟨hcounts, hdistinct, hpresent⟩ := run_inTurn .python h values hroom.le hwords.le
    fun k hk => if_pos (by omega)
  rw [run_inTurn_succ, step]
  generalize (layout.run .python values (inTurn n)).2 = r at hcounts hdistinct hpresent
  obtain ⟨r₁, hranks, -, -, hwrite⟩ := write_new n 0
    (by rw [h.word_of_lt hwords, hpresent]; simp) (show r.distinct < _ by omega)
  have hraise := foldlM_bump_raises (r := r₁) (h.up n).1 (h.up n).2
    (by rw [hranks, hcounts.last, hdistinct, hn])
  have herror : (layout.write .python n 0 r).1 = .error .structError := by
    rw [hwrite, fenwickAdd]
    rcases hout : (Fenwick.up layout.rankChunks (layout.word n / 256 + 1)).foldlM
      (fun _ index => PackedReplay.bump .python index) () r₁ with ⟨_ | _, r'⟩
    · rw [hout] at hraise
      exact hraise
    · rw [hout] at hraise
      cases hraise
  dsimp only
  rw [herror, getLast?_concat]

/-! ## The layout of half the scratchpad -/

/-- The layout with the budget `reconstruct_with_packed_checkpoints` takes by default. -/
def half (p : Params) : Except (Raised PackedExhausted) PackedLayout :=
  PackedLayout.new p.scratchpadBytes (p.scratchpadBytes / 2)

theorem half_spec {p : Params} (hp : p.Valid) :
    ∃ layout, half p = .ok layout ∧ layout.Regular ∧
      (p.scratchpadBytes ≤ 2 ^ 20 → layout.replayValueCapacity ≤ 65535) ∧
      (2 ^ 20 < p.scratchpadBytes →
        65536 ≤ layout.replayValueCapacity ∧ 65536 ≤ layout.wordCount) := by
  obtain ⟨hmin, -⟩ := hp.scratchpadBytes
  obtain ⟨k, hk⟩ := (Nat.and_sub_one_eq_zero_iff_isPowerOfTwo (by omega)).1 hp.scratchpadBytes_pow
  have hle : 13 ≤ k := by
    by_contra hlt
    have := Nat.pow_le_pow_right (n := 2) (by decide) (show k ≤ 12 by omega)
    omega
  obtain ⟨m, rfl⟩ : ∃ m, k = 11 + m := ⟨k - 11, by omega⟩
  -- everything is counted in chunks
  obtain ⟨q, hq⟩ : ∃ q, q = 2 ^ m := ⟨_, rfl⟩
  have hbytes : p.scratchpadBytes = 2048 * q := by rw [hk, hq, Nat.pow_add]
  have havailable : 1024 * q - 512 - 32 * q * 2 - (q + 1) * 2 = 958 * q - 514 := by omega
  refine ⟨_, by
    rw [half, PackedLayout.new, hbytes]
    simp only [show 2048 * q / 8 = 256 * q by omega, show (256 * q + 7) / 8 = 32 * q by omega,
      show 2048 * q / 2 = 1024 * q by omega, show (256 * q + 256 - 1) / 256 = q by omega,
        havailable,
      Nat.mul_one]
    rw [require, if_pos (by omega), ok_bind, require, if_pos (by omega), ok_bind]
    rfl, ⟨rfl, m, hq⟩, fun hsmall => ?_, fun hlarge => ?_⟩
  · change (958 * q - 514 - ((958 * q - 514) / 4 - (958 * q - 514) / 4 % 16)) / 8 ≤ 65535
    omega
  · have hlarge : 2 ^ 10 ≤ q := by
      rw [hq]
      refine Nat.pow_le_pow_right (by decide) ?_
      by_contra hlt
      have := Nat.pow_le_pow_right (n := 2) (by decide) (show m ≤ 9 by omega)
      omega
    change 65536 ≤ (958 * q - 514 - ((958 * q - 514) / 4 - (958 * q - 514) / 4 % 16)) / 8 ∧
      65536 ≤ 256 * q
    omega

/-- The counters are wide enough up to 1 MiB of scratchpad. -/
theorem counters_wide_enough_iff (p : Params) (hp : p.Valid) :
    (∃ layout, half p = .ok layout ∧ layout.WideEnough) ↔ p.scratchpadBytes ≤ 2 ^ 20 := by
  obtain ⟨layout, hlayout, hregular, hsmall, hlarge⟩ := half_spec hp
  constructor
  · rintro ⟨layout', hlayout', hwide⟩
    rw [hlayout] at hlayout'
    obtain rfl := Except.ok.inj hlayout'
    by_contra hlt
    obtain ⟨hroom, hwords⟩ := hlarge (by omega)
    obtain ⟨hcounts, hdistinct, -⟩ := run_inTurn .unbounded hregular
      (fun _ => 0) hroom hwords fun _ _ => rfl
    have hle := (hwide (fun _ => 0) (inTurn 65536)).1 layout.rankChunks
    rw [hcounts.last, hdistinct] at hle
    omega
  · intro hle
    refine ⟨layout, hlayout, fun values writes => ?_⟩
    have hpython := run_eq_unbounded .python hregular (fun n hn => if_pos (by omega)) values writes
    have hcpp := run_eq_unbounded .cpp hregular
      (fun n hn => congrArg Except.ok (Nat.mod_eq_of_lt (by omega))) values writes
    refine ⟨fun index => ?_, hpython.1, hcpp.1⟩
    have := hpython.2.le index
    have := hpython.2.distinct
    omega

theorem counters_wide_enough_smallest :
    ∃ layout, half ⟨64 * 1024, 8 * 1024, 1⟩ = .ok layout ∧ layout.WideEnough :=
  (counters_wide_enough_iff _ ⟨by decide, by decide, by decide, by decide, by decide, by decide,
    by decide⟩).2 (by decide)

/-- With 2 MiB of scratchpad, 65536 writes in turn end in a packing error. -/
theorem packing_error_at_two_mebibytes :
    ∃ layout, half ⟨64 * 1024, 2 * 1024 * 1024, 1⟩ = .ok layout ∧
      (layout.run .python (fun _ => 0) (inTurn 65536)).1.getLast? = some (.error .structError) := by
  obtain ⟨layout, hlayout, hregular, -, hlarge⟩ := half_spec (p := ⟨64 * 1024, 2 * 1024 * 1024, 1⟩)
    ⟨by decide, by decide, by decide, by decide, by decide, by decide, by decide⟩
  obtain ⟨hroom, hwords⟩ := hlarge (by decide)
  exact ⟨layout, hlayout, python_raises hregular _ rfl hroom hwords⟩

end PackedLayout

end Soveroot.Pow
