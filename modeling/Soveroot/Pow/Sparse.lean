import Mathlib.Data.Finmap
import Soveroot.Lib.Probing
import Soveroot.Pow.Machine

/-!
# The sparse replay table

`_SparseReplay` of `bounded_reconstruction.py`, and the same table in `BoundedReconstructionArena`:
the words an attacker replays are kept under their tags in a table of entries, with linear probing.
A reset writes the tags only, so the values are whatever the arena holds.

The table is a plain map from words to values with room for as many words as there are slots: a
write of a new word that finds every slot taken is refused, and the table goes on as it was.
-/

namespace Soveroot.Pow

open Probing Stateful

def emptyTag : Nat := mask64

/-- The entries and the counts. -/
structure SparseReplay where
  tags : Nat → Nat
  values : Nat → Nat
  distinct : Nat := 0
  peakEntries : Nat := 0
  hashProbes : Nat := 0

namespace SparseReplay

/-- The constructor, and `ResetReplay`. -/
def reset (values : Nat → Nat) : SparseReplay := { tags := fun _ => emptyTag, values := values }

def countEntry (r : SparseReplay) : SparseReplay :=
  { r with distinct := r.distinct + 1, peakEntries := max r.peakEntries (r.distinct + 1) }

def store (r : SparseReplay) (slot word value : Nat) : SparseReplay :=
  { r with tags := Function.update r.tags slot word, values := Function.update r.values slot value }

end SparseReplay

/-- A table: the parameters of the scratchpad and the number of slots, which the layout refuses to
be zero. -/
structure SparseShape where
  params : Params
  capacity : Nat
  valid : params.Valid
  capacity_pos : 0 < capacity

namespace SparseShape

variable (shape : SparseShape)

/-- The slot a search starts at. -/
def start (word : Nat) : Nat := u64 (word * 0x9E3779B97F4A7C15) % shape.capacity

/-- The loop of `_find` and `FindReplay` over the distances. -/
def probe (word : Nat) : (turns distance : Nat) → SparseReplay → Found × SparseReplay
  | 0, _, r => (.nowhere, r)
  | turns + 1, distance, r =>
    let r := { r with hashProbes := r.hashProbes + 1 }
    let slot := slotAt shape.capacity (shape.start word) distance
    if r.tags slot = word then (.key slot, r)
    else if r.tags slot = emptyTag then (.free slot, r)
    else probe word turns (distance + 1) r

def find (word : Nat) (forWrite : Bool) : Stateful SparseReplay String (Option Nat) := fun r =>
  match shape.probe word shape.capacity 0 r with
  | (.key slot, r) => (.ok (some slot), r)
  | (.free slot, r) => (.ok (if forWrite then some slot else none), r)
  | (.nowhere, r) => (if forWrite then .error "sparse replay workspace is full" else .ok none, r)

def read (selector : Nat) : Stateful SparseReplay String Nat := do
  let slot ← shape.find (shape.params.word selector) false
  let r ← Stateful.read
  pure (slot.elim 0 r.values)

def write (selector value : Nat) : Stateful SparseReplay String Unit := do
  match ← shape.find (shape.params.word selector) true with
  | none => Stateful.raise "sparse replay lookup failed"
  | some slot =>
    Stateful.update fun r =>
      (if r.tags slot = emptyTag then r.countEntry else r).store slot
        (shape.params.word selector) (u64 value)

/-- `FindReplay`. The exception has no text. -/
def findReplay (word : Nat) (forWrite : Bool) : Stateful SparseReplay Unit (Bool × Nat) := fun r =>
  match shape.probe word shape.capacity 0 r with
  | (.key slot, r) => (.ok (true, slot), r)
  | (.free slot, r) => (.ok (false, if forWrite then slot else 0), r)
  | (.nowhere, r) => (if forWrite then .error () else .ok (false, 0), r)

def replayRead (selector : UInt64) : Stateful SparseReplay Unit Nat := do
  let (found, slot) ← shape.findReplay (shape.params.word selector.toNat) false
  let r ← Stateful.read
  pure (if found then r.values slot else 0)

def replayWrite (selector value : UInt64) : Stateful SparseReplay Unit Unit := do
  let (found, slot) ← shape.findReplay (shape.params.word selector.toNat) true
  Stateful.update fun r => (if !found ∧ r.tags slot = emptyTag then r.countEntry else r).store slot
    (shape.params.word selector.toNat) value.toNat

/-! ## The map -/

/-- What a slot holds. -/
def tab (tags : Nat → Nat) (slot : Nat) : Option Nat :=
  if tags slot = emptyTag then none else some (tags slot)

structure Shows (r : SparseReplay) (m : Nat → Option Nat) : Prop where
  findable : Findable shape.capacity shape.start (tab r.tags)
  stored : ∀ s < shape.capacity, r.tags s ≠ emptyTag → m (r.tags s) = some (r.values s)
  present : ∀ word, m word ≠ none → ∃ s < shape.capacity, r.tags s = word ∧ word ≠ emptyTag

def Full (r : SparseReplay) : Prop := ∀ s < shape.capacity, r.tags s ≠ emptyTag

variable {shape} {r : SparseReplay} {m : Nat → Option Nat}

theorem word_ne (shape : SparseShape) (selector : Nat) : shape.params.word selector ≠ emptyTag := by
  have hlt := Params.word_lt shape.valid.words_pos selector
  have hwords : shape.params.words ≤ 8 * 1024 * 1024 / 8 :=
    Nat.div_le_div_right shape.valid.scratchpadBytes.2
  simp only [emptyTag, mask64]
  omega

theorem probe_eq (shape : SparseShape) {word : Nat} (hword : word ≠ emptyTag) (turns distance : Nat)
    (r : SparseReplay) :
    ∃ probes, shape.probe word turns distance r =
      (search shape.capacity (shape.start word) (tab r.tags) word turns distance,
        { r with hashProbes := probes }) := by
  induction turns generalizing distance r with
  | zero => exact ⟨_, rfl⟩
  | succ turns ih =>
    obtain ⟨probes, hrest⟩ := ih (distance + 1) { r with hashProbes := r.hashProbes + 1 }
    rw [probe, search, tab]
    by_cases hkey : r.tags (slotAt shape.capacity (shape.start word) distance) = word
    · exact ⟨r.hashProbes + 1, by simp [hkey, hword]⟩
    · by_cases hempty : r.tags (slotAt shape.capacity (shape.start word) distance) = emptyTag
      · exact ⟨r.hashProbes + 1, by simp [hempty, Ne.symm hword]⟩
      · exact ⟨probes, by simpa [hkey, hempty] using hrest⟩

namespace Shows

theorem congr {r' : SparseReplay} (h : shape.Shows r m) (htags : r'.tags = r.tags)
    (hvalues : r'.values = r.values) :
    shape.Shows r' m := by
  obtain ⟨hfind, hstored, hpresent⟩ := h
  exact ⟨htags ▸ hfind, by rwa [htags, hvalues], by rwa [htags]⟩

theorem reset (shape : SparseShape) (values : Nat → Nat) :
    shape.Shows (.reset values) fun _ => none :=
  ⟨fun s _ k hk => by simp [tab, SparseReplay.reset] at hk, fun s _ hs => absurd rfl hs, fun _ h =>
    absurd rfl h⟩

theorem nodup (h : shape.Shows r m) {s s' : Nat} (hs : s < shape.capacity)
    (hs' : s' < shape.capacity)
    (heq : r.tags s = r.tags s') (hne : r.tags s ≠ emptyTag) : s = s' :=
  h.findable.inj hs hs' (if_neg hne) (by rw [tab, if_neg (heq ▸ hne), heq])

variable {word slot : Nat} (h : shape.Shows r m)
include h

theorem replace (hword : word ≠ emptyTag) (hslot : slot < shape.capacity)
    (htag : r.tags slot = word) (value : Nat) :
    shape.Shows (r.store slot word value) (Function.update m word (some value)) := by
  subst htag
  have htags : (r.store slot (r.tags slot) value).tags = r.tags := Function.update_eq_self ..
  refine ⟨by rw [htags]; exact h.findable, fun s hs hs' => ?_, fun word hm => ?_⟩
  · rw [htags] at hs' ⊢
    by_cases heq : s = slot
    · simp [heq, SparseReplay.store]
    · have hother : r.tags s ≠ r.tags slot := fun h' => heq (h.nodup hs hslot h' hs')
      simpa [SparseReplay.store, heq, hother] using h.stored s hs hs'
  · rw [htags]
    by_cases heq : word = r.tags slot
    · exact ⟨slot, hslot, heq.symm, heq ▸ hword⟩
    · exact h.present word (by simpa [heq] using hm)

theorem insert {value : Nat} (hword : word ≠ emptyTag) (hnone : m word = none)
    (hfree : search shape.capacity (shape.start word) (tab r.tags) word shape.capacity 0 =
      .free slot) : shape.Shows (r.store slot word value)
        (Function.update m word (some value)) := by
  obtain ⟨hslot, hempty, -⟩ := search_free shape.capacity_pos hfree
  have htab :
      tab (r.store slot word value).tags = Function.update (tab r.tags) slot (some word) := by
    funext s
    by_cases hs : s = slot <;> simp [tab, SparseReplay.store, hs, hword]
  have hfreetag : r.tags slot = emptyTag := by
    by_contra hne
    simp [tab, hne] at hempty
  refine ⟨htab ▸ h.findable.insert shape.capacity_pos hfree, fun s hs hs' => ?_, fun w hw => ?_⟩
  · by_cases heq : s = slot
    · simp [SparseReplay.store, heq]
    · have htag : r.tags s ≠ emptyTag := by simpa [SparseReplay.store, heq] using hs'
      have hother : r.tags s ≠ word := fun h' => by simp [← h', h.stored s hs htag] at hnone
      simpa [SparseReplay.store, heq, hother] using h.stored s hs htag
  · by_cases heq : w = word
    · exact ⟨slot, hslot, by simp [SparseReplay.store, heq], heq ▸ hword⟩
    · obtain ⟨s, hs, htag, hne⟩ := h.present w (by simpa [heq] using hw)
      have hsne : s ≠ slot := by
        rintro rfl
        exact hne (htag.symm.trans hfreetag)
      exact ⟨s, hs, by simpa [SparseReplay.store, hsne] using htag, hne⟩

theorem probe (hword : word ≠ emptyTag) :
    ∃ probes, (∃ slot < shape.capacity, r.tags slot = word ∧ m word = some (r.values slot) ∧
        shape.probe word shape.capacity 0 r = (.key slot, { r with hashProbes := probes })) ∨
      (∃ slot, r.tags slot = emptyTag ∧ m word = none ∧ ¬ shape.Full r ∧
        search shape.capacity (shape.start word) (tab r.tags) word shape.capacity 0 = .free slot ∧
        shape.probe word shape.capacity 0 r = (.free slot, { r with hashProbes := probes })) ∨
      (m word = none ∧ shape.Full r ∧
        shape.probe word shape.capacity 0 r = (.nowhere, { r with hashProbes := probes })) := by
  obtain ⟨probes, heq⟩ := probe_eq shape hword shape.capacity 0 r
  refine ⟨probes, ?_⟩
  -- a word of the map is found
  have habsent :
    ∀ found, search shape.capacity (shape.start word) (tab r.tags) word shape.capacity 0 = found →
      (∀ slot, found ≠ .key slot) → m word = none := by
    intro found hsearch hnot
    by_contra hsome
    obtain ⟨s, hs, rfl, hne⟩ := h.present word hsome
    exact hnot s (hsearch.symm.trans (h.findable s hs _ (if_neg hne)))
  cases hsearch : search shape.capacity (shape.start word) (tab r.tags) word shape.capacity 0 with
  | key slot =>
    obtain ⟨hslot, htab⟩ := search_key shape.capacity_pos hsearch
    have htag : r.tags slot ≠ emptyTag := fun h' => by simp [tab, h'] at htab
    obtain rfl : r.tags slot = word := by simpa [tab, htag] using htab
    exact .inl ⟨slot, hslot, rfl, h.stored slot hslot htag, by rw [heq, hsearch]⟩
  | free slot =>
    obtain ⟨hslot, hnone, -⟩ := search_free shape.capacity_pos hsearch
    have htag : r.tags slot = emptyTag := by
      by_contra h'
      simp [tab, h'] at hnone
    exact .inr (.inl ⟨slot, htag, habsent _ hsearch (by simp), fun hfull =>
      hfull slot hslot htag, rfl,
      by rw [heq, hsearch]⟩)
  | nowhere =>
    refine .inr (.inr ⟨habsent _ hsearch (by simp), fun s hs htag => ?_, by rw [heq, hsearch]⟩)
    exact (search_nowhere hsearch hs).1 (if_pos htag)

omit h in
/-- Every slot is occupied just when the map has as many words as there are slots. -/
theorem full_iff {m : Finmap fun _ : Nat => Nat} (h : shape.Shows r fun word => m.lookup word) :
    shape.Full r ↔ m.keys.card = shape.capacity := by
  have himage : ((Finset.range shape.capacity).filter (r.tags · ≠ emptyTag)).image r.tags =
      m.keys := by
    ext word
    simp only [Finset.mem_image, Finset.mem_filter, Finset.mem_range, Finmap.mem_keys]
    constructor
    · rintro ⟨s, ⟨hs, hne⟩, rfl⟩
      exact Finmap.mem_of_lookup_eq_some (h.stored s hs hne)
    · intro hmem
      obtain ⟨s, hs, rfl, hne⟩ := h.present word fun hnone => Finmap.lookup_eq_none.1 hnone hmem
      exact ⟨s, ⟨hs, hne⟩, rfl⟩
  rw [← himage, Finset.card_image_of_injOn]
  · conv_rhs => rhs; rw [← Finset.card_range shape.capacity]
    rw [Finset.card_filter_eq_iff]
    simp only [Full, Finset.mem_range]
  · intro s hs s' hs' heq
    simp only [Finset.coe_filter, Finset.mem_range, Set.mem_ofPred_eq] at hs hs'
    exact h.nodup hs.1 hs'.1 heq hs.2

end Shows

/-! ## Reading and writing -/

/-- A table as a language has it: what a selector or a value is, and the two operations. -/
structure Table (ν ε : Type) where
  toNat : ν → Nat
  read : ν → Stateful SparseReplay ε Nat
  write : ν → ν → Stateful SparseReplay ε Unit

def python (shape : SparseShape) : Table Nat String := ⟨id, shape.read, shape.write⟩

def cpp (shape : SparseShape) : Table UInt64 Unit :=
  ⟨UInt64.toNat, shape.replayRead, shape.replayWrite⟩

/-- What the two operations do to a table that shows a map. -/
structure Table.Correct {ν ε : Type} (t : Table ν ε) (shape : SparseShape) : Prop where
  read : ∀ {r m}, shape.Shows r m → ∀ selector, ∃ r', shape.Shows r' m ∧
    t.read selector r = (.ok ((m (shape.params.word (t.toNat selector))).getD 0), r')
  write : ∀ {r m}, shape.Shows r m → ∀ selector value,
    ((m (shape.params.word (t.toNat selector)) = none ∧ shape.Full r) ∧
      ∃ e r', t.write selector value r = (.error e, r') ∧ shape.Shows r' m) ∨
    (¬ (m (shape.params.word (t.toNat selector)) = none ∧ shape.Full r) ∧
      ∃ r', t.write selector value r = (.ok (), r') ∧
        shape.Shows r' (Function.update m (shape.params.word (t.toNat selector))
          (some (u64 (t.toNat value)))))

theorem correct_python (shape : SparseShape) : shape.python.Correct shape where
  read {r m} h selector := by
    obtain ⟨probes, ⟨slot, -, htag, hm, heq⟩ | ⟨slot, -, hm, -, -, heq⟩ | ⟨hm, -, heq⟩⟩ :=
      h.probe (shape.word_ne selector)
    all_goals
      refine ⟨{ r with hashProbes := probes }, h.congr rfl rfl, ?_⟩
      simp only [python, SparseShape.read, find, bind_apply, heq, id, hm]
      rfl
  write {r m} h selector value := by
    obtain ⟨probes, ⟨slot, hslot, htag, hm, heq⟩ | ⟨slot, htag, hm, hfull, hsearch, heq⟩ |
      ⟨hm, hfull, heq⟩⟩ := h.probe (shape.word_ne selector)
    · refine .inr ⟨fun h' => by simp [python, hm] at h', _, by
        simp only [python, SparseShape.write, find, bind_apply, heq]; rfl, ?_⟩
      simp only [htag, if_neg (shape.word_ne selector)]
      exact (h.replace (shape.word_ne selector) hslot htag (u64 value)).congr rfl rfl
    · refine .inr ⟨fun h' => hfull h'.2, _, by
        simp only [python, SparseShape.write, find, bind_apply, heq]; rfl, ?_⟩
      simp only [htag, if_true]
      exact (h.insert (shape.word_ne selector) hm hsearch).congr rfl rfl
    · refine .inl ⟨⟨hm, hfull⟩, "sparse replay workspace is full",
        { r with hashProbes := probes }, ?_, h.congr rfl rfl⟩
      simp only [python, SparseShape.write, find, bind_apply, heq]
      rfl

theorem correct_cpp (shape : SparseShape) : shape.cpp.Correct shape where
  read {r m} h selector := by
    obtain ⟨probes, ⟨slot, -, htag, hm, heq⟩ | ⟨slot, -, hm, -, -, heq⟩ | ⟨hm, -, heq⟩⟩ :=
      h.probe (shape.word_ne selector.toNat)
    all_goals
      refine ⟨{ r with hashProbes := probes }, h.congr rfl rfl, ?_⟩
      simp only [cpp, replayRead, findReplay, bind_apply, heq, hm]
      rfl
  write {r m} h selector value := by
    have hvalue : u64 value.toNat = value.toNat := by
      rw [u64, mask64, Nat.and_two_pow_sub_one_eq_mod, Nat.mod_eq_of_lt value.toNat_lt]
    obtain ⟨probes, ⟨slot, hslot, htag, hm, heq⟩ | ⟨slot, htag, hm, hfull, hsearch, heq⟩ |
      ⟨hm, hfull, heq⟩⟩ := h.probe (shape.word_ne selector.toNat)
    · refine .inr ⟨fun h' => by simp [cpp, hm] at h', _, by
        simp only [cpp, replayWrite, findReplay, bind_apply, heq]; rfl, ?_⟩
      simp only [cpp, hvalue, Bool.not_true, Bool.false_eq_true, false_and, if_false]
      exact (h.replace (shape.word_ne selector.toNat) hslot htag value.toNat).congr rfl rfl
    · refine .inr ⟨fun h' => hfull h'.2, _, by
        simp only [cpp, replayWrite, findReplay, bind_apply, heq]; rfl, ?_⟩
      simp only [cpp, hvalue, htag, if_true, Bool.not_false, and_self]
      exact (h.insert (shape.word_ne selector.toNat) hm hsearch).congr rfl rfl
    · refine .inl ⟨⟨hm, hfull⟩, (), { r with hashProbes := probes }, ?_, h.congr rfl rfl⟩
      simp only [cpp, replayWrite, findReplay, bind_apply, heq]
      rfl

/-! ## Sequences of operations -/

inductive Op (ν : Type) where
  | read (selector : ν)
  | write (selector value : ν)

namespace Table

variable {ν ε : Type} (t : Table ν ε)

/-- What an operation leaves. -/
def perform (r : SparseReplay) : Op ν → SparseReplay
  | .read selector => (t.read selector r).2
  | .write selector value => (t.write selector value r).2

/-- The operations one after the other, whatever becomes of each. -/
def run (ops : List (Op ν)) (r : SparseReplay) : SparseReplay := ops.foldl t.perform r

/-- What a plain map with room for so many words does. -/
def apply (shape : SparseShape) (m : Finmap fun _ : Nat => Nat) : Op ν → Finmap fun _ : Nat => Nat
  | .read _ => m
  | .write selector value =>
    let word := shape.params.word (t.toNat selector)
    if word ∉ m ∧ m.keys.card = shape.capacity then m else m.insert word (u64 (t.toNat value))

def written (shape : SparseShape) (ops : List (Op ν)) : Finmap fun _ : Nat => Nat :=
  ops.foldl (t.apply shape) ∅

/-- After any operations the table reads back what was written last, or 0, and has every word once;
a write is refused just when the word is new and every slot is occupied. -/
def Refines (shape : SparseShape) : Prop :=
  ∀ values ops,
    (∀ selector, (t.read selector (t.run ops (.reset values))).1 =
      .ok (((t.written shape ops).lookup (shape.params.word (t.toNat selector))).getD 0)) ∧
    (∀ s < shape.capacity, ∀ s' < shape.capacity,
      (t.run ops (.reset values)).tags s = (t.run ops (.reset values)).tags s' →
        (t.run ops (.reset values)).tags s ≠ emptyTag → s = s') ∧
    ∀ selector value, (∃ e, (t.write selector value (t.run ops (.reset values))).1 = .error e) ↔
      shape.params.word (t.toNat selector) ∉ t.written shape ops ∧
        shape.Full (t.run ops (.reset values))

variable {t}

theorem Correct.perform (ht : t.Correct shape) {m : Finmap fun _ : Nat => Nat}
    (h : shape.Shows r fun word => m.lookup word) (op : Op ν) :
    shape.Shows (t.perform r op) fun word => (t.apply shape m op).lookup word := by
  cases op with
  | read selector =>
    obtain ⟨r', h', hread⟩ := ht.read h selector
    rw [Table.perform, hread]
    exact h'
  | write selector value =>
    have hcond : (shape.params.word (t.toNat selector) ∉ m ∧ m.keys.card = shape.capacity) ↔
        m.lookup (shape.params.word (t.toNat selector)) = none ∧ shape.Full r := by
      rw [Finmap.lookup_eq_none, h.full_iff]
    rcases ht.write h selector value with ⟨hrefused, e, r', hwrite, h'⟩ | ⟨hnot, r', hwrite, h'⟩
    · simpa only [Table.perform, hwrite, Table.apply, if_pos (hcond.2 hrefused)] using h'
    · simp only [Table.perform, hwrite, Table.apply, if_neg (mt hcond.1 hnot)]
      convert h' using 1
      funext word
      by_cases heq : word = shape.params.word (t.toNat selector)
      · rw [heq, Finmap.lookup_insert, Function.update_self]
      · rw [Finmap.lookup_insert_of_ne _ heq, Function.update_of_ne heq]

theorem Correct.run (ht : t.Correct shape) (values : Nat → Nat) (ops : List (Op ν)) :
    shape.Shows (t.run ops (.reset values)) fun word => (t.written shape ops).lookup word := by
  induction ops using List.reverseRecOn with
  | nil => exact Shows.reset shape values
  | append_singleton ops op ih =>
    rw [Table.run, written, List.foldl_append, List.foldl_append]
    exact ht.perform ih op

theorem Correct.refines (ht : t.Correct shape) : t.Refines shape := by
  intro values ops
  have h := ht.run values ops
  refine ⟨fun selector => ?_, fun s hs s' hs' => h.nodup hs hs', fun selector value => ?_⟩
  · obtain ⟨r', -, hread⟩ := ht.read h selector
    rw [hread]
  · rw [← Finmap.lookup_eq_none]
    rcases ht.write h selector value with ⟨hrefused, e, r', hwrite, -⟩ | ⟨hnot, r', hwrite, -⟩
    · exact ⟨fun _ => hrefused, fun _ => ⟨e, by rw [hwrite]⟩⟩
    · exact ⟨by simp [hwrite], fun h' => absurd h' hnot⟩

end Table

/-- The replay table of both programs is a plain map. -/
theorem sparse_table_refines_map (shape : SparseShape) : shape.python.Refines shape ∧
    shape.cpp.Refines shape :=
  ⟨shape.correct_python.refines, shape.correct_cpp.refines⟩

end SparseShape

end Soveroot.Pow
