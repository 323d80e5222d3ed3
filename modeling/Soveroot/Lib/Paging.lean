import Mathlib.Data.Finset.Card

/-!
# Paging with writes and bypass

A cache of bounded size serves a list of accesses. A read of a word that is not held is a miss. At
an access a policy may take the accessed word or leave it, and it may drop words at any time; a word
is held after its write only if the policy takes it then.

`Run` are the runs of all policies, `Farthest` those that drop the word whose next read is farthest
and never hold a word that is overwritten before it is read again. `Farthest.misses_le` is Belady's
theorem. The proof compares the caches by a threshold: misses plus the words held that are read
before `x` only ever separate in favour of the farthest rule.
-/

namespace Paging

open Finset

variable {α : Type} [DecidableEq α]

structure Access (α : Type) where
  word : α
  isWrite : Bool
deriving DecidableEq, Repr

/-- How many accesses come before the next read of `w`, if no write of `w` comes first. -/
def use : List (Access α) → α → Option Nat
  | [], _ => none
  | a :: as, w =>
    if a.word = w then if a.isWrite then none else some 0 else (use as w).map (· + 1)

def miss (held : Finset α) (a : Access α) : Nat :=
  if !a.isWrite ∧ a.word ∉ held then 1 else 0

/-- The runs of all policies, from the words held to the misses of the accesses to come. -/
inductive Run (capacity : Nat) : Finset α → List (Access α) → Nat → Prop
  | nil (held : Finset α) : Run capacity held [] 0
  | drop {held kept : Finset α} {as : List (Access α)} {n : Nat} :
      kept ⊆ held → Run capacity kept as n → Run capacity held as n
  | access {held kept : Finset α} {a : Access α} {as : List (Access α)} {n : Nat} :
      kept ⊆ insert a.word held → kept.card ≤ capacity → Run capacity kept as n →
        Run capacity held (a :: as) (miss held a + n)

/-- What the farthest rule holds after an access of `w`, before which it held `held` and `w`
perhaps. `as` are the accesses to come. -/
inductive Keeps (capacity : Nat) (as : List (Access α)) (w : α) (held : Finset α) : Finset α → Prop
  | dead : use as w = none → Keeps capacity as w held held
  | room : held.card < capacity → Keeps capacity as w held (insert w held)
  | full {far : α} {d : Nat} : held.card = capacity → far ∈ insert w held → use as far = some d →
      (∀ v ∈ insert w held, ∃ e ≤ d, use as v = some e) →
        Keeps capacity as w held ((insert w held).erase far)

/-- The runs of the farthest rule. -/
inductive Farthest (capacity : Nat) : Finset α → List (Access α) → Nat → Prop
  | nil (held : Finset α) : Farthest capacity held [] 0
  | access {held kept : Finset α} {a : Access α} {as : List (Access α)} {n : Nat} :
      Keeps capacity as a.word (held.erase a.word) kept → Farthest capacity kept as n →
        Farthest capacity held (a :: as) (miss held a + n)

variable {capacity : Nat} {as : List (Access α)} {w : α} {held : Finset α} {kept : Finset α}

theorem Keeps.subset_and_card_le (h : Keeps capacity as w held kept) (hw : w ∉ held)
    (hcard : held.card ≤ capacity) : kept ⊆ insert w held ∧ kept.card ≤ capacity := by
  cases h with
  | dead => exact ⟨subset_insert _ _, hcard⟩
  | room hroom => exact ⟨subset_rfl, by rw [card_insert_of_notMem hw]; omega⟩
  | full hfull hfar =>
    refine ⟨erase_subset _ _, ?_⟩
    rw [card_erase_of_mem hfar, card_insert_of_notMem hw, hfull]
    omega

/-! ## Words read before a threshold -/

/-- The words of `held` that are read among the next `x` accesses, before a write. -/
def due (as : List (Access α)) (held : Finset α) (x : Nat) : Nat :=
  (held.filter fun w => (use as w).any (· < x)).card

theorem due_mono {s t : Finset α} (h : s ⊆ t) (x : Nat) : due as s x ≤ due as t x :=
  card_le_card (filter_subset_filter _ h)

theorem due_le_card (as : List (Access α)) (held : Finset α) (x : Nat) :
    due as held x ≤ held.card :=
  card_filter_le _ _

@[simp] theorem due_zero (as : List (Access α)) (held : Finset α) : due as held 0 = 0 := by
  simp [due]

theorem due_insert (hw : w ∉ held) (x : Nat) :
    due as (insert w held) x = due as held x + if (use as w).any (· < x) then 1 else 0 := by
  unfold due
  rw [filter_insert]
  split_ifs with h
  · rw [card_insert_of_notMem]
    exact fun hmem => hw (mem_of_mem_filter w hmem)
  · rfl

variable {x : Nat}

theorem due_erase_of_le {d : Nat} (hw : use as w = some d) (hx : x ≤ d) :
    due as (held.erase w) x = due as held x := by
  unfold due
  congr 1
  ext v
  simp only [mem_filter, mem_erase]
  constructor
  · rintro ⟨⟨-, hv⟩, huse⟩
    exact ⟨hv, huse⟩
  · rintro ⟨hv, huse⟩
    refine ⟨⟨?_, hv⟩, huse⟩
    rintro rfl
    simp only [hw, Option.any_some, decide_eq_true_eq] at huse
    omega

theorem due_eq_card (h : ∀ w ∈ held, ∃ e < x, use as w = some e) : due as held x = held.card := by
  unfold due
  rw [filter_true_of_mem]
  intro w hw
  obtain ⟨e, he, huse⟩ := h w hw
  simpa [huse] using he

/-- Passing an access turns a word held that is read there into a hit, and nothing else changes. -/
theorem due_cons (a : Access α) (as : List (Access α)) (held : Finset α) (x : Nat) :
    due (a :: as) held (x + 1) =
      due as (held.erase a.word) x + if !a.isWrite ∧ a.word ∈ held then 1 else 0 := by
  have hother : due (a :: as) (held.erase a.word) (x + 1) = due as (held.erase a.word) x := by
    unfold due
    congr 1
    refine filter_congr fun v hv => ?_
    have hne : a.word ≠ v := fun h => notMem_erase a.word held (h ▸ hv)
    rw [use, if_neg hne]
    cases use as v <;> simp
  by_cases hw : a.word ∈ held
  · rw [← insert_erase hw, due_insert (notMem_erase _ _), insert_erase hw,
      hother, use, if_pos rfl]
    cases a.isWrite <;> simp [hw]
  · rw [erase_eq_of_notMem hw] at hother ⊢
    simp [hw, hother]

/-! ## Belady's theorem -/

/-- A run with `m` misses so far that holds `mine` is not behind one with `n` misses that holds
`theirs`, at any threshold. -/
def Ahead (as : List (Access α)) (m n : Nat) (mine theirs : Finset α) : Prop :=
  ∀ x, m + due as theirs x ≤ n + due as mine x

variable {m n : Nat} {mine theirs : Finset α}

theorem Ahead.misses_le (h : Ahead as m n mine theirs) : m ≤ n := by
  simpa using h 0

theorem Ahead.mono (h : Ahead as m n mine theirs) (hk : kept ⊆ theirs) : Ahead as m n mine kept :=
  fun x => le_trans (Nat.add_le_add_left (due_mono hk x) m) (h x)

variable {a : Access α}

/-- The access itself: the misses are counted and the word is taken out of both caches. -/
theorem Ahead.pass (h : Ahead (a :: as) m n mine theirs) :
    Ahead as (m + miss mine a) (n + miss theirs a) (mine.erase a.word) (theirs.erase a.word) := by
  intro x
  have hx := h (x + 1)
  rw [due_cons, due_cons] at hx
  unfold miss
  by_cases hwrite : a.isWrite <;> by_cases hm : a.word ∈ mine <;> by_cases ht : a.word ∈ theirs <;>
    simp [hwrite, hm, ht] at hx ⊢ <;> omega

variable {mine' theirs' : Finset α}

theorem Ahead.keeps (h : Ahead as m n mine theirs) (hw : w ∉ mine)
    (hmine : Keeps capacity as w mine mine') (htheirs : theirs' ⊆ insert w theirs)
    (hcard : theirs'.card ≤ capacity) (hw' : w ∉ theirs) : Ahead as m n mine' theirs' := by
  have htake : Ahead as m n (insert w mine) (insert w theirs) := by
    intro x
    rw [due_insert hw, due_insert hw']
    have := h x
    omega
  cases hmine with
  | dead hdead =>
    intro x
    have hx := htake x
    rw [due_insert hw, hdead] at hx
    have : due as theirs' x ≤ due as (insert w theirs) x := due_mono htheirs x
    simp only [Option.any_none, Bool.false_eq_true, if_false, Nat.add_zero] at hx
    omega
  | room => exact htake.mono htheirs
  | @full far d hfull hfar huse hall =>
    intro x
    by_cases hx : x ≤ d
    · -- what is dropped is not read before the threshold
      rw [due_erase_of_le huse hx]
      exact htake.mono htheirs x
    · -- all that is held is read before the threshold, and the cache is full
      have hdue : due as ((insert w mine).erase far) x = capacity := by
        rw [due_eq_card, card_erase_of_mem hfar, card_insert_of_notMem hw, hfull]
        · rfl
        · intro v hv
          obtain ⟨e, he, hv⟩ := hall v (mem_of_mem_erase hv)
          exact ⟨e, by omega, hv⟩
      have := due_le_card as theirs' x
      have := h.misses_le
      omega

theorem Ahead.access (h : Ahead (a :: as) m n mine theirs)
    (hmine : Keeps capacity as a.word (mine.erase a.word) mine')
    (htheirs : theirs' ⊆ insert a.word theirs) (hcard : theirs'.card ≤ capacity) :
    Ahead as (m + miss mine a) (n + miss theirs a) mine' theirs' := by
  refine h.pass.keeps (notMem_erase _ _) hmine ?_ hcard (notMem_erase _ _)
  intro v hv
  by_cases hva : v = a.word
  · simp [hva]
  · have := htheirs hv
    simp_all

variable {k l : Nat}

/-- A run of the farthest rule that is not behind another run ends with no more misses. -/
theorem Farthest.misses_le_of_ahead (hf : Farthest capacity mine as k)
    (hr : Run capacity theirs as l) (h : Ahead as m n mine theirs) : m + k ≤ n + l := by
  induction hr generalizing m n k mine with
  | nil held =>
    cases hf
    simpa using h.misses_le
  | drop hkept _ ih => exact ih hf (h.mono hkept)
  | access hkept hcard _ ih =>
    cases hf with
    | access hkeeps hf =>
      have := ih hf (h.access hkeeps hkept hcard)
      omega

/-- The farthest rule has the fewest misses of all policies. -/
theorem Farthest.misses_le (hf : Farthest capacity ∅ as k) (hr : Run capacity ∅ as l) : k ≤ l := by
  simpa using hf.misses_le_of_ahead (m := 0) (n := 0) hr fun x => le_rfl

/-! ## Recency -/

theorem take_erase (l : List α) (w : α) (n : Nat) :
    (l.erase w).take n = if w ∈ l.take (n + 1) then (l.take (n + 1)).erase w else l.take n := by
  induction l generalizing n with
  | nil => simp
  | cons a l ih =>
    by_cases ha : a = w
    · simp [ha]
    · have hbeq : (a == w) = false := by simpa using ha
      cases n with
      | zero => simp [Ne.symm ha]
      | succ n => by_cases h : w ∈ l.take (n + 1) <;> simp [h, Ne.symm ha, hbeq, ih n]

end Paging
