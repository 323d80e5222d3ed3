import Mathlib.Data.List.MinMax
import Mathlib.Data.Prod.Lex
import Mathlib.Order.Bounds.Basic
import Soveroot.Lib.Check
import Soveroot.Lib.Paging

/-!
# Cache simulations of a recorded trace

`TraceRecorder` of `powvm_v1.cpp` keeps the scratchpad accesses of an evaluation and replays them
against a cache: `SimulateCache` drops the least recently used word, `SimulateOfflineOptimal` the
word whose next read is farthest. Reads of a word that has not been written yet are free in both.

`Serves` are the runs of all policies on a trace. The offline simulation is a run of the farthest
rule of `Paging`, so it has the fewest misses of them all.
-/

namespace Soveroot.Pow

open Check Paging List

structure TraceEvent where
  word : Nat
  isWrite : Bool
  deriving DecidableEq, Repr

structure CacheTraceStats where
  capacityWords : Nat
  materializedReadHits : Nat
  materializedReadMisses : Nat
  evictions : Nat
  deriving DecidableEq, Repr

/-- The recorder. The scratchpad masks every selector, so that a word indexes its tables. -/
structure TraceRecorder where
  wordCount : Nat
  events : List TraceEvent
  word_lt : ∀ event ∈ events, event.word < wordCount

/-- `written[event.word] = true` at a write. -/
def mark (written : Nat → Bool) (event : TraceEvent) : Nat → Bool :=
  if event.isWrite then Function.update written event.word true else written

/-! ## The least recently used word -/

/-- The words cached, the last touched first, and the figures so far. -/
structure LruState where
  recent : List Nat
  stats : CacheTraceStats

def LruState.touch (capacity : Nat) (s : LruState) (word : Nat) : LruState :=
  if word ∈ s.recent then { s with recent := word :: s.recent.erase word }
  else if s.recent.length = capacity then
    { recent := word :: s.recent.dropLast
      stats := { s.stats with evictions := s.stats.evictions + 1 } }
  else { s with recent := word :: s.recent }

def LruState.countRead (s : LruState) (word : Nat) : LruState :=
  if word ∈ s.recent then
    { s with stats.materializedReadHits := s.stats.materializedReadHits + 1 }
  else { s with stats.materializedReadMisses := s.stats.materializedReadMisses + 1 }

/-- One event of `SimulateCache`. -/
def LruState.event (capacity : Nat) (written : Nat → Bool) (s : LruState) (event : TraceEvent) :
    LruState :=
  if event.isWrite then s.touch capacity event.word
  else if written event.word then (s.countRead event.word).touch capacity event.word
  else s

/-- The loop of `SimulateCache`. -/
def LruState.run (capacity : Nat) : (Nat → Bool) → LruState → List TraceEvent → LruState
  | _, s, [] => s
  | written, s, event :: events =>
    LruState.run capacity (mark written event) (s.event capacity written event) events

/-! ## The word read farthest ahead -/

/-- The accesses the offline simulation counts: writes, and reads of words written before. -/
def accesses : (Nat → Bool) → List TraceEvent → List (Access Nat)
  | _, [] => []
  | written, event :: events =>
    if event.isWrite then ⟨event.word, true⟩ :: accesses (mark written event) events
    else if written event.word then ⟨event.word, false⟩ :: accesses (mark written event) events
    else accesses (mark written event) events

/-- The backward loop that fills `next_use`, from access `index` on, with the table `next_read` it
leaves. `NEVER` is `none`. -/
def nextUses : Nat → List (Access Nat) → (Nat → Option Nat) × List (Option Nat)
  | _, [] => (fun _ => none, [])
  | index, access :: rest =>
    let (nextRead, nextUse) := nextUses (index + 1) rest
    (Function.update nextRead access.word (if access.isWrite then none else some index),
      nextRead access.word :: nextUse)

/-- The words cached with their next reads, as the pairs of `by_next_use`, which `cached` indexes by
word; and the figures so far. -/
structure OfflineState where
  byNextUse : List (Nat × Nat)
  stats : CacheTraceStats

/-- `cached.find(word)`. -/
def OfflineState.find (s : OfflineState) (word : Nat) : Option (Nat × Nat) :=
  s.byNextUse.find? (·.2 = word)

/-- The count of a hit or a miss, and the removal of the entry found. -/
def OfflineState.take (s : OfflineState) (access : Access Nat) : OfflineState :=
  let stats :=
    if access.isWrite then s.stats
    else match s.find access.word with
      | none => { s.stats with materializedReadMisses := s.stats.materializedReadMisses + 1 }
      | some _ => { s.stats with materializedReadHits := s.stats.materializedReadHits + 1 }
  match s.find access.word with
  | none => { s with stats }
  | some found => { byNextUse := s.byNextUse.erase found, stats }

/-- The decision about the accessed word: `next` is its next read. -/
def OfflineState.place (capacity : Nat) (s : OfflineState) (word : Nat) :
    Option Nat → OfflineState
  | none => s
  | some next =>
    if s.byNextUse.length = capacity then
      -- `std::prev(by_next_use.end())`: the set is ordered by next read, then word
      match s.byNextUse.argmax toLex with
      | none => s
      | some farthest =>
        if farthest.1 ≤ next then s
        else
          { byNextUse := (next, word) :: s.byNextUse.erase farthest
            stats := { s.stats with evictions := s.stats.evictions + 1 } }
    else { s with byNextUse := (next, word) :: s.byNextUse }

/-- The forward loop of `SimulateOfflineOptimal`. -/
def OfflineState.run (capacity : Nat) : OfflineState → List (Access Nat × Option Nat) → OfflineState
  | s, [] => s
  | s, (access, next) :: rest =>
    OfflineState.run capacity ((s.take access).place capacity access.word next) rest

namespace TraceRecorder

variable (t : TraceRecorder)

/-- `std::invalid_argument`, by its text. -/
def checkCapacity (capacity : Nat) : Except String Unit :=
  require (¬ (capacity = 0 ∨ capacity > t.wordCount)) "trace cache capacity is invalid"

def simulateCache (capacity : Nat) : Except String CacheTraceStats := do
  t.checkCapacity capacity
  pure (LruState.run capacity (fun _ => false) ⟨[], ⟨capacity, 0, 0, 0⟩⟩ t.events).stats

def simulateOfflineOptimal (capacity : Nat) : Except String CacheTraceStats := do
  t.checkCapacity capacity
  let accesses := accesses (fun _ => false) t.events
  let nextUse := (nextUses 0 accesses).2
  pure (OfflineState.run capacity ⟨[], ⟨capacity, 0, 0, 0⟩⟩ (accesses.zip nextUse)).stats

end TraceRecorder

/-! ## Policies on a trace -/

def eventMiss (written : Nat → Bool) (held : Finset Nat) (event : TraceEvent) : Nat :=
  if !event.isWrite ∧ written event.word ∧ event.word ∉ held then 1 else 0

/-- The runs of all policies on a trace, by their materialized read misses. `held` are the words
whose current value the cache has: after an event these are words it had before and perhaps the word
accessed, whose value the event shows. A word that is written is in `kept` if the policy keeps the
new value; if not, the old value is lost. -/
inductive Serves (capacity : Nat) : (Nat → Bool) → Finset Nat → List TraceEvent → Nat → Prop
  | done (written : Nat → Bool) (held : Finset Nat) : Serves capacity written held [] 0
  | event {written : Nat → Bool} {held kept : Finset Nat} {event : TraceEvent}
      {events : List TraceEvent} {n : Nat} :
      kept ⊆ insert event.word held → kept.card ≤ capacity →
        Serves capacity (mark written event) kept events n →
          Serves capacity written held (event :: events) (eventMiss written held event + n)

variable {capacity : Nat}

/-- The words written before are all that matters of a cache: a word is written before it is read,
and its write shows its value to every policy. -/
theorem Serves.run {n : Nat} {written : Nat → Bool} {held : Finset Nat} {events : List TraceEvent}
    (h : Serves capacity written held events n) :
    Run capacity (held.filter (written ·)) (accesses written events) n := by
  induction h with
  | done => exact .nil _
  | @event written held kept event events n hkept hcard _ ih =>
    have hcard' : (kept.filter (mark written event ·)).card ≤ capacity :=
      le_trans (Finset.card_filter_le _ _) hcard
    by_cases hwrite : event.isWrite
    · rw [accesses, if_pos hwrite]
      have hmiss : eventMiss written held event =
          miss (held.filter (written ·)) ⟨event.word, true⟩ := by
        simp [eventMiss, miss, hwrite]
      rw [hmiss]
      refine .access ?_ hcard' ih
      intro w hw
      rw [Finset.mem_filter, mark, if_pos hwrite] at hw
      by_cases hwe : w = event.word
      · simp [hwe]
      · rw [Function.update_of_ne hwe] at hw
        simpa [hwe, hw.2] using hkept hw.1
    · have hmark : mark written event = written := if_neg hwrite
      rw [hmark] at ih hcard'
      by_cases hw : written event.word
      · rw [accesses, if_neg hwrite, if_pos hw, hmark]
        have hmiss : eventMiss written held event =
            miss (held.filter (written ·)) ⟨event.word, false⟩ := by
          simp [eventMiss, miss, hwrite, hw]
        rw [hmiss]
        refine .access ?_ hcard' ih
        intro v hv
        have := hkept (Finset.mem_of_mem_filter v hv)
        simp_all
      · -- a read of a word that is not written yet: nothing is counted, and the word is not kept
        rw [accesses, if_neg hwrite, if_neg hw, hmark]
        have hmiss : eventMiss written held event = 0 := by simp [eventMiss, hw]
        rw [hmiss, Nat.zero_add]
        refine .drop ?_ ih
        intro v hv
        rw [Finset.mem_filter] at hv ⊢
        have hne : v ≠ event.word := fun hve => hw (hve ▸ hv.2)
        exact ⟨Finset.mem_of_mem_insert_of_ne (hkept hv.1) hne, hv.2⟩

/-! ## The offline simulation is a run of the farthest rule -/

theorem nextUses_fst (index : Nat) (as : List (Access Nat)) (w : Nat) :
    (nextUses index as).1 w = (use as w).map (index + ·) := by
  induction as generalizing index with
  | nil => rfl
  | cons a as ih =>
    simp only [nextUses, use]
    by_cases hw : a.word = w
    · subst hw
      rw [Function.update_self, if_pos rfl]
      cases a.isWrite <;> rfl
    · rw [Function.update_of_ne (Ne.symm hw), if_neg hw, ih]
      cases use as w with
      | none => rfl
      | some d => simp only [Option.map_some]; congr 1; omega

theorem zip_nextUses_cons (index : Nat) (a : Access Nat) (as : List (Access Nat)) :
    (a :: as).zip (nextUses index (a :: as)).2 =
      (a, (use as a.word).map (index + 1 + ·)) :: as.zip (nextUses (index + 1) as).2 := by
  rw [← nextUses_fst]
  rfl

namespace OfflineState

/-- The words cached. -/
def held (s : OfflineState) : Finset Nat := (s.byNextUse.map Prod.snd).toFinset

/-- What the forward loop keeps, before access `index`: one entry a word, with the index of its next
read, and no more entries than the cache has room for. -/
structure Tracks (capacity index : Nat) (as : List (Access Nat)) (s : OfflineState) : Prop where
  nodup : (s.byNextUse.map Prod.snd).Nodup
  next : ∀ entry ∈ s.byNextUse, ∃ d, use as entry.2 = some d ∧ entry.1 = index + d
  length_le : s.byNextUse.length ≤ capacity

variable {s : OfflineState} {word : Nat}

theorem mem_held : word ∈ s.held ↔ ∃ entry ∈ s.byNextUse, entry.2 = word := by
  simp [held]

theorem Tracks.card_held {capacity index : Nat} {as : List (Access Nat)}
    (h : s.Tracks capacity index as) : s.held.card = s.byNextUse.length := by
  rw [held, toFinset_card_of_nodup h.nodup, length_map]

section

variable {entries : List (Nat × Nat)} (hnodup : (entries.map Prod.snd).Nodup)
include hnodup

theorem mem_erase_entry {entry : Nat × Nat} (hentry : entry ∈ entries) {p : Nat × Nat} :
    p ∈ entries.erase entry ↔ p ∈ entries ∧ p.2 ≠ entry.2 := by
  rw [hnodup.of_map.mem_erase_iff]
  constructor
  · rintro ⟨hne, hp⟩
    exact ⟨hp, fun h => hne (inj_on_of_nodup_map hnodup hp hentry h)⟩
  · rintro ⟨hp, hne⟩
    exact ⟨fun h => hne (congrArg Prod.snd h), hp⟩

theorem nodup_map_erase (entry : Nat × Nat) : ((entries.erase entry).map Prod.snd).Nodup :=
  hnodup.sublist (Sublist.map _ erase_sublist)

end

theorem find_eq_none (h : s.find word = none) : word ∉ s.held := by
  rw [mem_held]
  rintro ⟨entry, hentry, rfl⟩
  simpa using find?_eq_none.1 h entry hentry

theorem find_eq_some {found : Nat × Nat} (h : s.find word = some found) :
    found ∈ s.byNextUse ∧ found.2 = word :=
  ⟨mem_of_find?_eq_some h, by simpa using find?_some h⟩

/-- Where the entry found is removed: the words left, and that their next reads come later. -/
theorem Tracks.take {capacity index : Nat} {a : Access Nat} {as : List (Access Nat)}
    (h : s.Tracks capacity index (a :: as)) :
    (s.take a).Tracks capacity (index + 1) as ∧ (s.take a).held = s.held.erase a.word ∧
      (s.take a).stats.materializedReadMisses =
        s.stats.materializedReadMisses + miss s.held a := by
  have hlater : ∀ entry ∈ s.byNextUse, entry.2 ≠ a.word →
      ∃ d, use as entry.2 = some d ∧ entry.1 = index + 1 + d := by
    intro entry hentry hne
    obtain ⟨d, huse, hd⟩ := h.next entry hentry
    rw [use, if_neg (Ne.symm hne), Option.map_eq_some_iff] at huse
    obtain ⟨e, he, rfl⟩ := huse
    exact ⟨e, he, by omega⟩
  cases hfind : s.find a.word with
  | none =>
    have hnot := find_eq_none hfind
    have hentries : (s.take a).byNextUse = s.byNextUse := by simp only [OfflineState.take, hfind]
    refine ⟨⟨hentries ▸ h.nodup, ?_, hentries ▸ h.length_le⟩, ?_, ?_⟩
    · intro entry hentry
      rw [hentries] at hentry
      exact hlater entry hentry fun hword => hnot (mem_held.2 ⟨entry, hentry, hword⟩)
    · rw [Finset.erase_eq_of_notMem hnot, held, hentries, held]
    · cases hwrite : a.isWrite <;> simp [OfflineState.take, hfind, miss, hwrite, hnot]
  | some found =>
    obtain ⟨hmem, hword⟩ := find_eq_some hfind
    have hentries : (s.take a).byNextUse = s.byNextUse.erase found := by
      simp only [OfflineState.take, hfind]
    refine ⟨⟨hentries ▸ nodup_map_erase h.nodup found, ?_, ?_⟩, ?_, ?_⟩
    · intro entry hentry
      rw [hentries, mem_erase_entry h.nodup hmem, hword] at hentry
      exact hlater entry hentry.1 hentry.2
    · rw [hentries]
      exact le_trans length_erase_le h.length_le
    · ext v
      simp only [mem_held, hentries, mem_erase_entry h.nodup hmem, hword, Finset.mem_erase]
      constructor
      · rintro ⟨entry, ⟨hentry, hne⟩, rfl⟩
        exact ⟨hne, entry, hentry, rfl⟩
      · rintro ⟨hne, entry, hentry, rfl⟩
        exact ⟨entry, ⟨hentry, hne⟩, rfl⟩
    · have hheld : a.word ∈ s.held := mem_held.2 ⟨found, hmem, hword⟩
      cases hwrite : a.isWrite <;> simp [OfflineState.take, hfind, miss, hwrite, hheld]

section Place

variable {capacity index word d : Nat} {as : List (Access Nat)} {s : OfflineState}

theorem Tracks.cons (h : s.Tracks capacity index as) (hword : word ∉ s.held)
    (huse : use as word = some d) {entries : List (Nat × Nat)} {stats : CacheTraceStats}
    (hsub : entries.Sublist s.byNextUse) (hlength : entries.length < capacity) :
    Tracks capacity index as ⟨(index + d, word) :: entries, stats⟩ := by
  refine ⟨?_, ?_, hlength⟩
  · refine nodup_cons.2 ⟨fun hmem => hword ?_, h.nodup.sublist (hsub.map _)⟩
    obtain ⟨entry, hentry, hw⟩ := mem_map.1 hmem
    exact mem_held.2 ⟨entry, hsub.subset hentry, hw⟩
  · intro entry hentry
    rcases mem_cons.1 hentry with rfl | hentry
    · exact ⟨d, huse, rfl⟩
    · exact h.next entry (hsub.subset hentry)

/-- Every word cached is read no later than the farthest one. -/
theorem Tracks.use_le_farthest (h : s.Tracks capacity index as) {farthest : Nat × Nat}
    (hmax : s.byNextUse.argmax toLex = some farthest) {v : Nat} (hv : v ∈ s.held) :
    ∃ e, use as v = some e ∧ index + e ≤ farthest.1 := by
  obtain ⟨entry, hentry, rfl⟩ := mem_held.1 hv
  obtain ⟨e, he, hnext⟩ := h.next entry hentry
  have hle : toLex entry ≤ toLex farthest := le_of_mem_argmax hentry hmax
  refine ⟨e, he, ?_⟩
  rw [← hnext]
  rcases Prod.Lex.le_iff.1 hle with hlt | heq
  · exact le_of_lt hlt
  · exact le_of_eq heq.1

theorem place_room (hroom : s.byNextUse.length ≠ capacity) (next : Nat) :
    s.place capacity word (some next) = { s with byNextUse := (next, word) :: s.byNextUse } := by
  simp only [place, if_neg hroom]

variable (h : s.Tracks capacity index as) (hcapacity : 0 < capacity)
include h hcapacity

theorem Tracks.place (hword : word ∉ s.held) :
    let s' := s.place capacity word ((use as word).map (index + ·))
    s'.Tracks capacity index as ∧ Keeps capacity as word s.held s'.held ∧
      s'.stats.materializedReadMisses = s.stats.materializedReadMisses := by
  cases huse : use as word with
  | none => exact ⟨h, .dead huse, rfl⟩
  | some d =>
    rw [Option.map_some]
    by_cases hfull : s.byNextUse.length = capacity
    · have hcard : s.held.card = capacity := h.card_held.trans hfull
      cases hmax : s.byNextUse.argmax toLex with
      | none =>
        rw [argmax_eq_none.1 hmax] at hfull
        simp only [length_nil] at hfull
        omega
      | some farthest =>
        have hmem : farthest ∈ s.byNextUse := argmax_mem hmax
        by_cases hle : farthest.1 ≤ index + d
        · -- the accessed word is the farthest: it is not taken
          have hplace : s.place capacity word (some (index + d)) = s := by
            simp only [OfflineState.place, if_pos hfull, hmax, if_pos hle]
          have hkeeps := Keeps.full hcard (Finset.mem_insert_self word s.held) huse (by
            intro v hv
            rcases Finset.mem_insert.1 hv with rfl | hv
            · exact ⟨d, le_rfl, huse⟩
            · obtain ⟨e, he, hfar⟩ := h.use_le_farthest hmax hv
              exact ⟨e, by omega, he⟩)
          rw [Finset.erase_insert hword] at hkeeps
          rw [hplace]
          exact ⟨h, hkeeps, rfl⟩
        · have hplace : s.place capacity word (some (index + d)) =
              { byNextUse := (index + d, word) :: s.byNextUse.erase farthest
                stats := { s.stats with evictions := s.stats.evictions + 1 } } := by
            simp only [OfflineState.place, if_pos hfull, hmax, if_neg hle]
          obtain ⟨e, he, hnext⟩ := h.next farthest hmem
          have hheld : farthest.2 ∈ s.held := mem_held.2 ⟨farthest, hmem, rfl⟩
          have hkeeps := Keeps.full hcard (Finset.mem_insert_of_mem hheld) he (by
            intro v hv
            rcases Finset.mem_insert.1 hv with rfl | hv
            · exact ⟨d, by omega, huse⟩
            · obtain ⟨e', he', hfar⟩ := h.use_le_farthest hmax hv
              exact ⟨e', by omega, he'⟩)
          rw [hplace]
          refine ⟨h.cons hword huse erase_sublist ?_, ?_, rfl⟩
          · rw [length_erase_of_mem hmem]
            omega
          · convert hkeeps using 1
            ext v
            simp only [held, map_cons, toFinset_cons, Finset.mem_insert, Finset.mem_erase,
              mem_toFinset, mem_map, mem_erase_entry h.nodup hmem]
            grind
    · have hroom : s.byNextUse.length < capacity := lt_of_le_of_ne h.length_le hfull
      rw [place_room hfull]
      refine ⟨h.cons hword huse (Sublist.refl _) hroom, ?_, rfl⟩
      have hheld : held { s with byNextUse := (index + d, word) :: s.byNextUse } =
          insert word s.held := by simp [held]
      rw [hheld]
      exact .room (h.card_held ▸ hroom)

theorem Tracks.run :
    ∃ n, Farthest capacity s.held as n ∧
      (OfflineState.run capacity s (as.zip (nextUses index as).2)).stats.materializedReadMisses =
        s.stats.materializedReadMisses + n := by
  induction as generalizing index s with
  | nil => exact ⟨0, .nil _, rfl⟩
  | cons a as ih =>
    obtain ⟨htake, hheld, hmiss⟩ := h.take
    have hword : a.word ∉ (s.take a).held := hheld ▸ Finset.notMem_erase _ _
    obtain ⟨hplace, hkeeps, hsame⟩ := htake.place hcapacity hword
    obtain ⟨n, hrun, hcount⟩ := ih hplace
    rw [hheld] at hkeeps
    refine ⟨miss s.held a + n, .access hkeeps hrun, ?_⟩
    rw [zip_nextUses_cons, OfflineState.run, hcount, hsame, hmiss, Nat.add_assoc]

end Place

end OfflineState

/-! ## The simulations against all policies -/

theorem serves_of_farthest {n : Nat} {written : Nat → Bool} {held : Finset Nat}
    {events : List TraceEvent} (h : Farthest capacity held (accesses written events) n)
    (hcard : held.card ≤ capacity) : Serves capacity written held events n := by
  induction events generalizing written held n with
  | nil =>
    cases h
    exact .done _ _
  | cons event events ih =>
    rw [accesses] at h
    split_ifs at h with hwrite hw
    · cases h with
      | access hkeeps hrun =>
        obtain ⟨hsub, hcard'⟩ := hkeeps.subset_and_card_le (Finset.notMem_erase _ _)
          (le_trans Finset.card_erase_le hcard)
        have hmiss : miss held ⟨event.word, true⟩ = eventMiss written held event := by
          simp [eventMiss, miss, hwrite]
        rw [hmiss]
        exact .event (hsub.trans (Finset.insert_subset_insert _ (Finset.erase_subset _ _)))
          hcard' (ih hrun hcard')
    · cases h with
      | access hkeeps hrun =>
        obtain ⟨hsub, hcard'⟩ := hkeeps.subset_and_card_le (Finset.notMem_erase _ _)
          (le_trans Finset.card_erase_le hcard)
        have hmiss : miss held ⟨event.word, false⟩ = eventMiss written held event := by
          simp [eventMiss, miss, hwrite, hw]
        rw [hmiss]
        exact .event (hsub.trans (Finset.insert_subset_insert _ (Finset.erase_subset _ _)))
          hcard' (ih hrun hcard')
    · have hmiss : eventMiss written held event = 0 := by simp [eventMiss, hw]
      have := Serves.event (Finset.subset_insert event.word held) hcard (ih h hcard)
      rwa [hmiss, Nat.zero_add] at this

namespace LruState

variable {capacity : Nat} {s : LruState}

variable (hcapacity : 0 < capacity) (hlength : s.recent.length ≤ capacity)
include hcapacity hlength

theorem touch_spec (word : Nat) :
    (s.touch capacity word).recent.toFinset ⊆ insert word s.recent.toFinset ∧
      (s.touch capacity word).recent.length ≤ capacity ∧
      (s.touch capacity word).stats.materializedReadMisses = s.stats.materializedReadMisses := by
  unfold touch
  split_ifs with hmem hfull
  · refine ⟨?_, ?_, rfl⟩
    · intro v hv
      simp only [toFinset_cons, Finset.mem_insert, mem_toFinset] at hv ⊢
      exact hv.imp_right mem_of_mem_erase
    · have := length_pos_of_mem hmem
      simp only [length_cons, length_erase_of_mem hmem]
      omega
  · refine ⟨?_, ?_, rfl⟩
    · intro v hv
      simp only [toFinset_cons, Finset.mem_insert, mem_toFinset] at hv ⊢
      exact hv.imp_right mem_of_mem_dropLast
    · simp only [length_cons, length_dropLast]
      omega
  · refine ⟨by simp, ?_, rfl⟩
    simp only [length_cons]
    omega

/-- One event of `SimulateCache` is one step of a policy. -/
theorem event_spec (written : Nat → Bool) (event : TraceEvent) :
    (s.event capacity written event).recent.toFinset ⊆ insert event.word s.recent.toFinset ∧
      (s.event capacity written event).recent.length ≤ capacity ∧
      (s.event capacity written event).stats.materializedReadMisses =
        s.stats.materializedReadMisses + eventMiss written s.recent.toFinset event := by
  unfold LruState.event
  by_cases hwrite : event.isWrite
  · rw [if_pos hwrite]
    simpa [eventMiss, hwrite] using touch_spec hcapacity hlength event.word
  · rw [if_neg hwrite]
    by_cases hw : written event.word
    · rw [if_pos hw]
      have hrecent : (s.countRead event.word).recent = s.recent := by
        unfold countRead
        split_ifs <;> rfl
      have hcount : (s.countRead event.word).stats.materializedReadMisses =
          s.stats.materializedReadMisses + eventMiss written s.recent.toFinset event := by
        by_cases hmem : event.word ∈ s.recent <;>
          simp [countRead, eventMiss, hwrite, hw, hmem]
      have := touch_spec hcapacity (hrecent.symm ▸ hlength) event.word
      rwa [hcount, hrecent] at this
    · rw [if_neg hw]
      simpa [eventMiss, hw] using hlength

theorem run_serves (written : Nat → Bool) (events : List TraceEvent) :
    ∃ n, Serves capacity written s.recent.toFinset events n ∧
      (LruState.run capacity written s events).stats.materializedReadMisses =
        s.stats.materializedReadMisses + n := by
  induction events generalizing written s with
  | nil => exact ⟨0, .done _ _, rfl⟩
  | cons event events ih =>
    obtain ⟨hsub, hlength', hmiss⟩ := event_spec hcapacity hlength written event
    obtain ⟨n, hserves, hcount⟩ := ih hlength' (mark written event)
    refine ⟨_, .event hsub (le_trans (toFinset_card_le _) hlength') hserves, ?_⟩
    rw [LruState.run, hcount, hmiss, Nat.add_assoc]

end LruState

theorem TraceRecorder.checkCapacity_of_le {t : TraceRecorder} (hcapacity : 0 < capacity)
    (hle : capacity ≤ t.wordCount) : t.checkCapacity capacity = .ok () :=
  require_of_pos (by omega) _

/-- The offline simulation reports the fewest materialized read misses any policy has on the trace,
and so no more than `SimulateCache` does. -/
theorem TraceRecorder.simulateOfflineOptimal_isLeast (t : TraceRecorder) (capacity : Nat)
    (hcapacity : 0 < capacity) (hle : capacity ≤ t.wordCount) :
    ∃ optimal lru, t.simulateOfflineOptimal capacity = .ok optimal ∧
      t.simulateCache capacity = .ok lru ∧
      IsLeast {n | Serves capacity (fun _ => false) ∅ t.events n} optimal.materializedReadMisses ∧
      optimal.materializedReadMisses ≤ lru.materializedReadMisses := by
  have hstart : OfflineState.Tracks capacity 0 (accesses (fun _ => false) t.events)
      ⟨[], ⟨capacity, 0, 0, 0⟩⟩ := ⟨nodup_nil, by simp, Nat.zero_le _⟩
  obtain ⟨n, hfarthest, hn⟩ := hstart.run hcapacity
  rw [Nat.zero_add] at hn
  have hleast : ∀ m, Serves capacity (fun _ => false) ∅ t.events m → n ≤ m := by
    intro m hm
    have hrun := hm.run
    exact hfarthest.misses_le hrun
  obtain ⟨m, hserves, hm⟩ := LruState.run_serves (s := ⟨[], ⟨capacity, 0, 0, 0⟩⟩) hcapacity
    (Nat.zero_le _) (fun _ => false) t.events
  rw [Nat.zero_add] at hm
  have hoptimal : t.simulateOfflineOptimal capacity = .ok (OfflineState.run capacity
      ⟨[], ⟨capacity, 0, 0, 0⟩⟩ ((accesses (fun _ => false) t.events).zip
        (nextUses 0 (accesses (fun _ => false) t.events)).2)).stats := by
    rw [simulateOfflineOptimal, checkCapacity_of_le hcapacity hle, ok_bind]
    rfl
  have hlru : t.simulateCache capacity = .ok
      (LruState.run capacity (fun _ => false) ⟨[], ⟨capacity, 0, 0, 0⟩⟩ t.events).stats := by
    rw [simulateCache, checkCapacity_of_le hcapacity hle, ok_bind]
    rfl
  refine ⟨_, _, hoptimal, hlru, ⟨?_, ?_⟩, ?_⟩
  · rw [hn]
    exact serves_of_farthest hfarthest (Nat.zero_le _)
  · intro k hk
    rw [hn]
    exact hleast k hk
  · rw [hn, hm]
    exact hleast m hserves

/-- Three words are written and two of them read: the least recently used words are the wrong ones
to drop. -/
def TraceRecorder.threeWords : TraceRecorder where
  wordCount := 3
  events := [⟨0, true⟩, ⟨1, true⟩, ⟨2, true⟩, ⟨0, false⟩, ⟨1, false⟩]
  word_lt := by decide

theorem TraceRecorder.simulateOfflineOptimal_isLeast_threeWords :
    threeWords.simulateOfflineOptimal 2 = .ok ⟨2, 2, 0, 0⟩ ∧
      threeWords.simulateCache 2 = .ok ⟨2, 0, 2, 3⟩ ∧
      IsLeast {n | Serves 2 (fun _ => false) ∅ threeWords.events n} 0 := by
  have hoptimal : threeWords.simulateOfflineOptimal 2 = .ok ⟨2, 2, 0, 0⟩ := by rfl
  have hlru : threeWords.simulateCache 2 = .ok ⟨2, 0, 2, 3⟩ := by rfl
  obtain ⟨optimal, lru, ho, -, hleast, -⟩ :=
    threeWords.simulateOfflineOptimal_isLeast 2 (by decide) (by decide)
  obtain rfl : ⟨2, 2, 0, 0⟩ = optimal := Except.ok.inj (hoptimal.symm.trans ho)
  exact ⟨hoptimal, hlru, hleast⟩

end Soveroot.Pow
