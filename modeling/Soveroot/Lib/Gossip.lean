import Mathlib

/-!
# Gossip

Replicas that take in items and each other's states, over a join semilattice: taking in is joining.
Whatever the order, a replica ends with the join of the items that reached it
(`mem_run_iff` for sets); the items are told apart by running the same schedule on their names
(`heard`).
-/

namespace Gossip

/-- What happens to one of the replicas. -/
inductive Event (ι κ : Type) where
  /-- Replica `i` takes in item `k`. -/
  | submit (i : ι) (k : κ)
  /-- Replica `i` takes in what replica `j` holds. -/
  | reconcile (i j : ι)

namespace Event

variable {ι κ α : Type}

/-- The replica that changes. -/
def target : Event ι κ → ι
  | submit i _ => i
  | reconcile i _ => i

/-- What it takes in. -/
def source (item : κ → α) (state : ι → α) : Event ι κ → α
  | submit _ k => item k
  | reconcile _ j => state j

end Event

variable {ι κ α β : Type} [DecidableEq ι]

section Joins

variable [SemilatticeSup α] [OrderBot α] [SemilatticeSup β] [OrderBot β]

def step (item : κ → α) (state : ι → α) (e : Event ι κ) : ι → α :=
  Function.update state e.target (state e.target ⊔ e.source item state)

def run (item : κ → α) (events : List (Event ι κ)) : ι → α :=
  events.foldl (step item) fun _ => ⊥

theorem run_concat (item : κ → α) (events : List (Event ι κ)) (e : Event ι κ) :
    run item (events ++ [e]) = step item (run item events) e := by
  rw [run, List.foldl_append]
  rfl

theorem map_run (f : SupBotHom α β) (item : κ → α) (events : List (Event ι κ)) (i : ι) :
    f (run item events i) = run (fun k => f (item k)) events i := by
  induction events using List.reverseRecOn generalizing i with
  | nil => exact map_bot f
  | append_singleton events e ih =>
    rw [run_concat, run_concat, step, step]
    by_cases hi : i = e.target
    · subst hi
      have hsource : f (e.source item (run item events)) =
          e.source (fun k => f (item k)) (run (fun k => f (item k)) events) := by
        cases e with
        | submit i k => rfl
        | reconcile i j => exact ih j
      rw [Function.update_self, Function.update_self, map_sup, ih, hsource]
    · rw [Function.update_of_ne hi, Function.update_of_ne hi, ih]

end Joins

/-! ## Sets of items -/

def heard (events : List (Event ι κ)) : ι → Set κ := run (fun k => {k}) events

/-- The union of the sets that are named, as a map that keeps joins. -/
def unionHom (item : κ → Set α) : SupBotHom (Set κ) (Set α) where
  toFun names := ⋃ k ∈ names, item k
  map_sup' a b := Set.biUnion_union a b item
  map_bot' := Set.biUnion_empty item

/-- **Convergence.** A replica holds what is in the items that have reached it. -/
theorem mem_run_iff {item : κ → Set α} {events : List (Event ι κ)} {i : ι} {a : α} :
    a ∈ run item events i ↔ ∃ k ∈ heard events i, a ∈ item k := by
  have hunion : run item events i = ⋃ k ∈ heard events i, item k := by
    have hmap := map_run (unionHom item) (fun k => {k}) events i
    have hitem : (fun k => unionHom item {k}) = item := by
      funext k
      exact Set.biUnion_singleton k item
    rw [hitem] at hmap
    exact hmap.symm
  rw [hunion]
  simp only [Set.mem_iUnion, exists_prop]

end Gossip
