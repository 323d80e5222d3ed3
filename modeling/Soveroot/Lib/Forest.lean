import Mathlib.Data.List.Chain
import Mathlib.Data.List.MinMax
import Mathlib.Data.List.Nodup
import Mathlib.Data.List.Perm.Subperm
import Mathlib.Order.Lattice

/-!
# Ranked forests

A set of nodes with a relation `link p v`, read "`p` is the parent of `v`", and a predicate
`root`. Roots have rank zero and a child's rank is one more than its parent's.

`Branch v l` says that `l` is the chain of nodes from a root down to `v`; every node of a forest has
one (`Ranked.exists_branch`). `Best` is the node of greatest rank, ties broken by the least key. It
exists in every nonempty list, and does not depend on the order of the list.
-/

namespace Forest

open List Option

variable {V K : Type}

section Branches

variable (root : V → Prop) (link : V → V → Prop)

/-- `Branch root link v l`: the nodes from a root down to `v`, root first. -/
inductive Branch : V → List V → Prop where
  | root {v : V} (h : root v) : Branch v [v]
  | snoc {p v : V} {l : List V} (h : link p v) (hp : Branch p l) : Branch v (l ++ [v])

/-- The nodes `G` form a ranked forest: each of them is a root or hangs below another. -/
structure Ranked (rank : V → Nat) (G : List V) : Prop where
  rank_root : ∀ v ∈ G, root v → rank v = 0
  rank_link : ∀ p ∈ G, ∀ v ∈ G, link p v → rank v = rank p + 1
  covered : ∀ v ∈ G, root v ∨ ∃ p ∈ G, link p v

variable {root link}

namespace Branch

variable {v : V} {l : List V} (h : Branch root link v l)
include h

theorem getLast? : l.getLast? = some v := by
  cases h <;> simp

theorem exists_head? : ∃ r, l.head? = some r ∧ root r := by
  induction h with
  | root h => exact ⟨_, rfl, h⟩
  | snoc _ hp ih =>
    obtain ⟨r, hr, hroot⟩ := ih
    exact ⟨r, by simp [hr], hroot⟩

theorem isChain : l.IsChain link := by
  induction h with
  | root => exact List.IsChain.singleton _
  | snoc hlink hp ih =>
    refine ih.append (List.IsChain.singleton _) fun x hx y hy => ?_
    rw [hp.getLast?, mem_some_iff] at hx
    rw [head?_cons, mem_some_iff] at hy
    exact hx ▸ hy ▸ hlink

end Branch

namespace Ranked

variable {rank : V → Nat} {G : List V}

theorem rank_getElem?_add (hG : Ranked root link rank G) :
    ∀ {l : List V} {r : V}, (∀ v ∈ l, v ∈ G) → l.IsChain link → l.head? = some r →
      ∀ {i : Nat} {v : V}, l[i]? = some v → rank v = rank r + i
  | [], _, _, _, h, _, _, _ => by simp at h
  | [a], r, _, _, h, i, v, hi => by
    obtain rfl : a = r := by simpa using h
    obtain ⟨rfl, rfl⟩ : i = 0 ∧ a = v := by cases i <;> simp at hi ⊢; exact hi
    rfl
  | a :: b :: l, r, hsub, hchain, h, i, v, hi => by
    obtain rfl : a = r := by simpa using h
    obtain ⟨hab, hchain⟩ := isChain_cons_cons.1 hchain
    cases i with
    | zero =>
      obtain rfl : a = v := by simpa using hi
      rfl
    | succ i =>
      have hb := hG.rank_link a (hsub a (by simp)) b (hsub b (by simp)) hab
      have ih := rank_getElem?_add hG (fun v hv => hsub v (mem_cons_of_mem _ hv)) hchain
        rfl (i := i) (v := v) (by simpa using hi)
      omega

variable {l : List V} {v : V} (hG : Ranked root link rank G)
include hG

section

variable {r : V} (hsub : ∀ v ∈ l, v ∈ G) (hchain : l.IsChain link) (hhead : l.head? = some r)
    (hr : root r)
include hsub hchain hhead hr

theorem rank_getElem? {i : Nat}
    (hi : l[i]? = some v) : rank v = i := by
  have h0 := hG.rank_root r (hsub r (mem_of_mem_head? hhead)) hr
  have h := hG.rank_getElem?_add hsub hchain hhead hi
  omega

theorem length_eq (hlast : l.getLast? = some v) :
    l.length = rank v + 1 := by
  have hpos : 0 < l.length := by cases l <;> simp at hhead ⊢
  rw [getLast?_eq_getElem?] at hlast
  have h := hG.rank_getElem? hsub hchain hhead hr hlast
  omega

end

theorem exists_branch (hv : v ∈ G) :
    ∃ l, Branch root link v l ∧ ∀ u ∈ l, u ∈ G := by
  -- on the rank: a parent is one closer to the root
  induction hn : rank v using Nat.strong_induction_on generalizing v with
  | _ n ih =>
    obtain hr | ⟨p, hp, hlink⟩ := hG.covered v hv
    · exact ⟨[v], .root hr, by simpa using hv⟩
    · have hlt : rank p < n := by have := hG.rank_link p hp v hv hlink; omega
      obtain ⟨l, hl, hsub⟩ := ih _ hlt hp rfl
      refine ⟨l ++ [v], .snoc hlink hl, fun u hu => ?_⟩
      obtain hu | hu := mem_append.1 hu
      · exact hsub u hu
      · exact mem_singleton.1 hu ▸ hv

theorem length_branch (h : Branch root link v l)
    (hsub : ∀ u ∈ l, u ∈ G) : l.length = rank v + 1 := by
  obtain ⟨r, hhead, hr⟩ := h.exists_head?
  exact hG.length_eq hsub h.isChain hhead hr h.getLast?

/-- The nodes of a branch are distinct, so no node is deeper than the forest is large. -/
theorem rank_lt_length (hv : v ∈ G) : rank v < G.length := by
  obtain ⟨l, hl, hsub⟩ := hG.exists_branch hv
  obtain ⟨r, hhead, hr⟩ := hl.exists_head?
  have hnodup : l.Nodup := by
    refine nodup_iff_getElem?_ne_getElem?.2 fun i j hij hj heq => ?_
    obtain ⟨u, hu⟩ : ∃ u, l[j]? = some u := ⟨l[j], getElem?_eq_getElem hj⟩
    have hi := hG.rank_getElem? hsub hl.isChain hhead hr (heq.trans hu)
    have hj := hG.rank_getElem? hsub hl.isChain hhead hr hu
    omega
  have hlen := (hnodup.subperm hsub).length_le
  have hrank := hG.length_branch hl hsub
  omega

end Ranked

end Branches

/-! ## Fork choice -/

section Best

variable [LinearOrder K] (rank : V → Nat) (key : V → K)

/-- `t` has the greatest rank of `G` and, among the nodes of that rank, the least key. -/
structure Best (G : List V) (t : V) : Prop where
  mem : t ∈ G
  rank_le : ∀ v ∈ G, rank v ≤ rank t
  key_le : ∀ v ∈ G, rank v = rank t → key t ≤ key v

variable {G : List V}

theorem Best.exists (hG : G ≠ []) : ∃ t, Best rank key G t := by
  obtain ⟨m, hm, hmax⟩ : ∃ m ∈ G, ∀ v ∈ G, rank v ≤ rank m := by
    have hne : argmax rank G ≠ none := fun h => hG (argmax_eq_none.1 h)
    obtain ⟨m, hm⟩ := ne_none_iff_exists'.1 hne
    exact ⟨m, argmax_mem hm, fun v hv => le_of_mem_argmax hv hm⟩
  have hne : G.filter (fun v => rank v = rank m) ≠ [] :=
    ne_nil_of_mem (mem_filter.2 ⟨hm, by simp⟩)
  obtain ⟨t, ht⟩ := ne_none_iff_exists'.1
    fun h => hne ((argmin_eq_none (f := key)).1 h)
  obtain ⟨htG, htm⟩ := mem_filter.1 (argmin_mem ht)
  have hrank : rank t = rank m := by simpa using htm
  refine ⟨t, htG, fun v hv => hrank ▸ hmax v hv, fun v hv hvt => ?_⟩
  exact le_of_mem_argmin (mem_filter.2 ⟨hv, by simp [hvt, hrank]⟩) ht

variable {rank key}

theorem Best.unique {t t' : V} (h : Best rank key G t) (h' : Best rank key G t')
    (hkey : (G.map key).Nodup) : t = t' := by
  have hrank : rank t = rank t' := Nat.le_antisymm (h'.rank_le t h.mem) (h.rank_le t' h'.mem)
  have hk : key t = key t' :=
    le_antisymm (h.key_le t' h'.mem hrank.symm) (h'.key_le t h.mem hrank)
  exact inj_on_of_nodup_map hkey h.mem h'.mem hk

theorem Best.congr {G' : List V} {t : V} (hG : ∀ v, v ∈ G ↔ v ∈ G') (h : Best rank key G t) :
    Best rank key G' t :=
  ⟨(hG t).1 h.mem, fun v hv => h.rank_le v ((hG v).2 hv), fun v hv => h.key_le v ((hG v).2 hv)⟩

end Best

end Forest
