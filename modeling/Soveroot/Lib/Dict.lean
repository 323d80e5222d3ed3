import Mathlib.Algebra.BigOperators.Group.List.Basic
import Mathlib.Algebra.Order.Ring.Int
import Mathlib.Data.List.Induction
import Mathlib.Data.List.Nodup
import Mathlib.Data.List.Perm.Subperm

/-!
# Insertion-ordered dictionaries

Python's `dict`: entries in the order their keys were first written, no key twice. The
invariant is a field, so a dictionary with a repeated key cannot be built. Reads are determined
by `get?_set` and `get?_erase`; the order shows only through `entries`.
-/

namespace Py

open List

/-- A dictionary with keys `κ` and values `α`. -/
structure Dict (κ α : Type) where
  /-- The entries, oldest key first. -/
  entries : List (κ × α)
  /-- No key occurs twice. -/
  nodup : (entries.map Prod.fst).Nodup
  deriving DecidableEq

namespace Dict

variable {κ α : Type} {d : Dict κ α}

@[ext] theorem ext {e : Dict κ α} (h : d.entries = e.entries) : d = e := by
  cases d; cases e; cases h; rfl

/-- `{}`. -/
def empty : Dict κ α := ⟨[], nodup_nil⟩

/-- `list(d)`. -/
def keys (d : Dict κ α) : List κ := d.entries.map Prod.fst

/-- `len(d)`. -/
def size (d : Dict κ α) : Nat := d.entries.length

@[simp] theorem size_empty : (empty : Dict κ α).size = 0 := rfl

@[simp] theorem keys_empty : (empty : Dict κ α).keys = [] := rfl

variable {l : List (κ × α)} {k : κ}

theorem nodup_append_key (h : (l.map Prod.fst).Nodup) (hk : k ∉ l.map Prod.fst) (v : α) :
    ((l ++ [(k, v)]).map Prod.fst).Nodup := by
  rw [map_append, map_singleton]
  refine nodup_append.2 ⟨h, nodup_singleton k, fun a ha b hb => ?_⟩
  rintro rfl
  have hak : a = k := mem_singleton.1 hb
  exact hk (hak ▸ ha)

/-- `{k: v for k, v in d.items() if p(k, v)}`. -/
def filter (d : Dict κ α) (p : κ → α → Bool) : Dict κ α :=
  ⟨d.entries.filter fun e => p e.1 e.2, (filter_sublist.map Prod.fst).nodup d.nodup⟩

theorem nodup_entries (d : Dict κ α) : d.entries.Nodup := d.nodup.of_map

theorem size_filter_le (d : Dict κ α) (p : κ → α → Bool) : (d.filter p).size ≤ d.size :=
  length_filter_le _ _

theorem size_le_of_subset {β : Type} {e : Dict κ β} (h : ∀ k ∈ d.keys, k ∈ e.keys) :
    d.size ≤ e.size := by
  have hle := (subperm_of_subset d.nodup h).length_le
  rwa [keys, length_map, length_map] at hle

/-- `d == e`: the same entries, in any order. -/
def Same (d e : Dict κ α) : Prop := d.entries.Perm e.entries

namespace Same

variable {d e : Dict κ α}

theorem size (h : d.Same e) : d.size = e.size := h.length_eq

theorem filter (h : d.Same e) (p : κ → α → Bool) : (d.filter p).Same (e.filter p) :=
  Perm.filter _ h

end Same

variable [DecidableEq κ]

/-- `d.get(k)`. -/
def get? (d : Dict κ α) (k : κ) : Option α := (d.entries.find? fun e => e.1 = k).map Prod.snd

/-- `k in d`. -/
def contains (d : Dict κ α) (k : κ) : Bool := (d.get? k).isSome

theorem keys_replace (l : List (κ × α)) (k : κ) (v : α) :
    (l.map fun e => if e.1 = k then (k, v) else e).map Prod.fst = l.map Prod.fst := by
  rw [map_map]
  refine map_congr_left fun e _ => ?_
  by_cases he : e.1 = k <;> simp [he]

/-- `d[k] = v`: an existing key keeps its place, a new one goes last. -/
def set (d : Dict κ α) (k : κ) (v : α) : Dict κ α :=
  if h : k ∈ d.entries.map Prod.fst then
    ⟨d.entries.map fun e => if e.1 = k then (k, v) else e, by rw [keys_replace]; exact d.nodup⟩
  else ⟨d.entries ++ [(k, v)], nodup_append_key d.nodup h v⟩

/-- `del d[k]`. -/
def erase (d : Dict κ α) (k : κ) : Dict κ α :=
  ⟨d.entries.filter fun e => e.1 ≠ k, (filter_sublist.map Prod.fst).nodup d.nodup⟩

/-- The dictionary built by writing the entries of a list one after another. -/
def ofList (l : List (κ × α)) : Dict κ α := l.foldl (fun d e => d.set e.1 e.2) empty

/-! ## Reading -/

variable {v : α}

theorem get?_eq_some_iff : d.get? k = some v ↔ (k, v) ∈ d.entries := by
  constructor
  · intro h
    obtain ⟨e, he, rfl⟩ := Option.map_eq_some_iff.1 h
    have hk : e.1 = k := by simpa using find?_some he
    exact hk ▸ mem_of_find?_eq_some he
  · intro h
    cases hf : d.entries.find? fun e => e.1 = k with
    | none => exact absurd (find?_eq_none.1 hf (k, v) h) (by simp)
    | some e =>
      have hk : e.1 = k := by simpa using find?_some hf
      have he : e = (k, v) :=
        inj_on_of_nodup_map d.nodup (mem_of_find?_eq_some hf) h hk
      rw [get?, hf, he]
      rfl

theorem get?_eq_none_iff : d.get? k = none ↔ k ∉ d.keys := by
  rw [get?, Option.map_eq_none_iff, find?_eq_none, keys, mem_map]
  constructor
  · rintro h ⟨e, he, rfl⟩
    exact absurd (h e he) (by simp)
  · intro h e he hk
    exact h ⟨e, he, by simpa using hk⟩

theorem contains_eq_false_iff : d.contains k = false ↔ k ∉ d.keys := by
  rw [contains, ← get?_eq_none_iff, ← Option.not_isSome_iff_eq_none, Bool.not_eq_true]

theorem contains_iff : d.contains k = true ↔ k ∈ d.keys := by
  rw [← Bool.not_eq_false, contains_eq_false_iff, not_not]

theorem mem_keys_iff : k ∈ d.keys ↔ ∃ v, d.get? k = some v := by
  rw [← not_iff_not, ← get?_eq_none_iff, Option.eq_none_iff_forall_not_mem]
  simp

@[simp] theorem get?_empty (k : κ) : (empty : Dict κ α).get? k = none := rfl

/-! ## Writing -/

theorem entries_set_of_not_mem (h : k ∉ d.keys) (v : α) :
    (d.set k v).entries = d.entries ++ [(k, v)] := by
  rw [set, dif_neg (show k ∉ d.entries.map Prod.fst from h)]

variable {e : κ × α}

theorem mem_entries_set : e ∈ (d.set k v).entries ↔ e = (k, v) ∨ (e ∈ d.entries ∧ e.1 ≠ k) := by
  by_cases hk : k ∈ d.entries.map Prod.fst
  · rw [set, dif_pos hk]
    simp only [mem_map]
    constructor
    · rintro ⟨f, hf, rfl⟩
      by_cases hfk : f.1 = k
      · exact .inl (by rw [if_pos hfk])
      · rw [if_neg hfk]
        exact .inr ⟨hf, hfk⟩
    · rintro (rfl | ⟨he, hek⟩)
      · obtain ⟨f, hf, hfk⟩ := mem_map.1 hk
        exact ⟨f, hf, if_pos hfk⟩
      · exact ⟨e, he, if_neg hek⟩
  · rw [set, dif_neg hk]
    simp only [mem_append, mem_singleton]
    constructor
    · rintro (he | rfl)
      · exact .inr ⟨he, fun hek => hk (hek ▸ mem_map_of_mem he)⟩
      · exact .inl rfl
    · rintro (rfl | ⟨he, -⟩)
      · exact .inr rfl
      · exact .inl he

theorem get?_set (d : Dict κ α) (k : κ) (v : α) (j : κ) :
    (d.set k v).get? j = if j = k then some v else d.get? j := by
  by_cases hj : j = k
  · rw [if_pos hj, get?_eq_some_iff, mem_entries_set, hj]
    exact .inl rfl
  · rw [if_neg hj]
    ext w
    rw [get?_eq_some_iff, get?_eq_some_iff, mem_entries_set]
    simp [hj]

@[simp] theorem get?_set_self (d : Dict κ α) (k : κ) (v : α) : (d.set k v).get? k = some v := by
  rw [get?_set, if_pos rfl]

variable {j : κ}

theorem get?_set_of_ne (d : Dict κ α) (h : j ≠ k) (v : α) : (d.set k v).get? j = d.get? j := by
  rw [get?_set, if_neg h]

theorem mem_keys_set : j ∈ (d.set k v).keys ↔ j = k ∨ j ∈ d.keys := by
  rw [mem_keys_iff, mem_keys_iff]
  by_cases hj : j = k
  · subst hj; simp
  · simp [get?_set, hj]

theorem size_set (d : Dict κ α) (k : κ) (v : α) :
    (d.set k v).size = if k ∈ d.keys then d.size else d.size + 1 := by
  unfold size set keys
  split_ifs with h <;> simp

theorem get?_erase (d : Dict κ α) (k j : κ) :
    (d.erase k).get? j = if j = k then none else d.get? j := by
  by_cases hj : j = k
  · rw [if_pos hj, get?_eq_none_iff, keys, erase, mem_map]
    rintro ⟨e, he, rfl⟩
    exact absurd hj (by simpa using (mem_filter.1 he).2)
  · rw [if_neg hj]
    ext w
    rw [get?_eq_some_iff, get?_eq_some_iff, erase, mem_filter]
    simp [hj]

theorem mem_entries_erase : e ∈ (d.erase k).entries ↔ e ∈ d.entries ∧ e.1 ≠ k := by
  simp [erase]

theorem nodup_cons_erase (d : Dict κ α) (k : κ) (v : α) : ((k, v) :: (d.erase k).entries).Nodup :=
  nodup_cons.2 ⟨fun h => (mem_entries_erase.1 h).2 rfl, nodup_entries _⟩

theorem set_perm (d : Dict κ α) (k : κ) (v : α) :
    (d.set k v).entries.Perm ((k, v) :: (d.erase k).entries) := by
  refine (perm_ext_iff_of_nodup (nodup_entries _) (nodup_cons_erase d k v)).2 fun e => ?_
  rw [mem_entries_set, mem_cons, mem_entries_erase]

theorem perm_of_get? (h : d.get? k = some v) : d.entries.Perm ((k, v) :: (d.erase k).entries) := by
  refine (perm_ext_iff_of_nodup (nodup_entries _) (nodup_cons_erase d k v)).2 fun e => ?_
  rw [mem_cons, mem_entries_erase]
  constructor
  · intro he
    by_cases hk : e.1 = k
    · refine .inl (inj_on_of_nodup_map d.nodup he (get?_eq_some_iff.1 h) hk)
    · exact .inr ⟨he, hk⟩
  · rintro (rfl | he)
    · exact get?_eq_some_iff.1 h
    · exact he.1

theorem erase_of_not_mem (h : k ∉ d.keys) : d.erase k = d := by
  refine ext (filter_eq_self.2 fun e he => ?_)
  have hne : e.1 ≠ k := fun hk => h (hk ▸ mem_map_of_mem he)
  simpa using hne

/-- `sum(d.values())`. -/
def sum (d : Dict κ Int) : Int := (d.entries.map Prod.snd).sum

theorem sum_erase (d : Dict κ Int) (k : κ) : (d.erase k).sum = d.sum - (d.get? k).getD 0 := by
  cases h : d.get? k with
  | none => rw [erase_of_not_mem (get?_eq_none_iff.1 h), Option.getD_none, Int.sub_zero]
  | some v =>
    have hsum : d.sum = v + (d.erase k).sum := ((perm_of_get? h).map Prod.snd).sum_eq
    rw [hsum, Option.getD_some]
    omega

theorem sum_set (d : Dict κ Int) (k : κ) (v : Int) :
    (d.set k v).sum = d.sum - (d.get? k).getD 0 + v := by
  have hsum : (d.set k v).sum = v + (d.erase k).sum := ((set_perm d k v).map Prod.snd).sum_eq
  rw [hsum, sum_erase]
  omega

theorem size_erase_lt (h : k ∈ d.keys) : (d.erase k).size < d.size := by
  obtain ⟨e, he, hek⟩ := mem_map.1 h
  refine Nat.lt_of_le_of_ne (length_filter_le _ _) fun heq => ?_
  have hall := length_filter_eq_length_iff.1 heq e he
  exact absurd hek (by simpa using hall)

theorem get?_filter (d : Dict κ α) (p : κ → α → Bool) (k : κ) :
    (d.filter p).get? k = (d.get? k).filter (p k) := by
  ext v
  rw [get?_eq_some_iff, filter, mem_filter, Option.filter_eq_some_iff, get?_eq_some_iff]

theorem foldl_set_entries (l : List (κ × α)) (d : Dict κ α)
    (h : ((d.entries ++ l).map Prod.fst).Nodup) :
    (l.foldl (fun d e => d.set e.1 e.2) d).entries = d.entries ++ l := by
  induction l generalizing d with
  | nil => simp
  | cons e l ih =>
    have hk : e.1 ∉ d.keys := fun hmem => by
      rw [map_append, nodup_append] at h
      exact h.2.2 e.1 hmem e.1 (by simp) rfl
    rw [foldl_cons, ih, entries_set_of_not_mem hk, append_assoc]
    · rfl
    · rw [entries_set_of_not_mem hk, append_assoc]
      exact h

theorem entries_ofList (h : (l.map Prod.fst).Nodup) : (ofList l).entries = l := by
  rw [ofList, foldl_set_entries _ _ (by simpa [empty] using h)]
  rfl

theorem ofList_append_singleton (l : List (κ × α)) (k : κ) (v : α) :
    ofList (l ++ [(k, v)]) = (ofList l).set k v := by
  rw [ofList, foldl_append]
  rfl

theorem mem_keys_ofList : k ∈ (ofList l).keys ↔ k ∈ l.map Prod.fst := by
  induction l using reverseRecOn with
  | nil => simp [ofList]
  | append_singleton l e ih =>
    rw [ofList_append_singleton, mem_keys_set, ih]
    simp [or_comm]

theorem mem_of_mem_ofList (h : e ∈ (ofList l).entries) : e ∈ l := by
  induction l using reverseRecOn with
  | nil => exact h
  | append_singleton l a ih =>
    rw [ofList_append_singleton, mem_entries_set] at h
    rcases h with rfl | h
    · simp
    · simp [ih h.1]

theorem size_ofList_le (l : List (κ × α)) : (ofList l).size ≤ l.length := by
  induction l using reverseRecOn with
  | nil => exact Nat.le_refl 0
  | append_singleton l a ih =>
    rw [ofList_append_singleton, size_set, length_append, length_singleton]
    split_ifs <;> omega

theorem get?_ofList (h : (l.map Prod.fst).Nodup) : (ofList l).get? k = some v ↔ (k, v) ∈ l := by
  rw [get?_eq_some_iff, entries_ofList h]

@[simp] theorem ofList_entries (d : Dict κ α) : ofList d.entries = d :=
  ext (entries_ofList d.nodup)

/-! ## Dictionaries that differ in their order only -/

namespace Same

variable {d e : Dict κ α}

section

variable (h : d.Same e) (k : κ)
include h

theorem get? : d.get? k = e.get? k := by
  ext v
  rw [get?_eq_some_iff, get?_eq_some_iff, h.mem_iff]

theorem contains : d.contains k = e.contains k := by
  rw [Dict.contains, Dict.contains, h.get?]

theorem erase : (d.erase k).Same (e.erase k) := Perm.filter _ h

theorem set (v : α) : (d.set k v).Same (e.set k v) := by
  unfold Same Dict.set
  by_cases hk : k ∈ d.entries.map Prod.fst
  · rw [dif_pos hk, dif_pos ((h.map Prod.fst).mem_iff.1 hk)]
    exact Perm.map _ h
  · rw [dif_neg hk, dif_neg (mt (h.map Prod.fst).mem_iff.2 hk)]
    exact Perm.append_right _ h

end

omit [DecidableEq κ] in
theorem sum {d e : Dict κ Int} (h : d.Same e) : d.sum = e.sum := (h.map Prod.snd).sum_eq

end Same

end Dict

theorem perm_flatMap_filter {α κ : Type} [DecidableEq κ] {key : α → κ} {keys : List κ}
    (hkeys : keys.Nodup) :
    ∀ {l : List α}, (∀ a ∈ l, key a ∈ keys) →
      (keys.flatMap fun k => l.filter fun a => key a = k).Perm l := by
  induction keys with
  | nil =>
    intro l hl
    have hnil : l = [] := eq_nil_iff_forall_not_mem.2 fun a ha => by simpa using hl a ha
    simp [hnil]
  | cons k keys ih =>
    intro l hl
    rw [nodup_cons] at hkeys
    have hrest := ih hkeys.2 (l := l.filter fun a => key a ≠ k) fun a ha => by
      have hak := mem_filter.1 ha
      simp only [decide_eq_true_eq] at hak
      exact (mem_cons.1 (hl a hak.1)).resolve_left hak.2
    have hsame : (keys.flatMap fun j => l.filter fun a => key a = j) =
        keys.flatMap fun j => (l.filter fun a => key a ≠ k).filter fun a => key a = j := by
      refine flatMap_congr fun j hj => ?_
      rw [filter_filter]
      refine filter_congr fun a _ => ?_
      have hjk : j ≠ k := fun heq => hkeys.1 (heq ▸ hj)
      by_cases haj : key a = j
      · simp [haj, hjk]
      · simp [haj]
    rw [flatMap_cons, hsame]
    refine (hrest.append_left _).trans ?_
    simpa using filter_append_perm (fun a => decide (key a = k)) l

end Py
