import Mathlib.Data.List.Perm.Basic
import Soveroot.Sharechain.Work

/-!
# Fork choice

Acceptance is a statement about the set of shares and the best share is determined by that set, so
`evaluateGraph` does not see the order its input arrives in.

`ForkChoice l st` says that the path of `st` is the chain of parents from the unique root to the
tip, that it is the heaviest chain of the graph and that the tip is the lowest of those that weigh
as much. It rests on one assumption: no share of the graph hashes to the all-zero identifier, which
the walk back to the root takes for the end of the chain.
-/

namespace Soveroot

open Py Check List Sample

/-! ## Order -/

section Order

variable {sha256 : HashFn} {rounds : RoundTable} {values : List Json} {l : List Share}

variable {values' : List Json}

section

variable (h : Validates sha256 rounds values l)
include h

theorem Validates.exists_perm (hp : values.Perm values') :
    ∃ l', Validates sha256 rounds values' l' ∧ l.Perm l' := by
  obtain ⟨l', hv, hl⟩ := perm_comp_forall₂ hp.symm h
  exact ⟨l', hv, hl.symm⟩

theorem Validates.exists_document {s : Share} (hs : s ∈ l) :
    ∃ v ∈ values, validateShare sha256 v rounds = .ok s := by
  obtain ⟨i, hi, rfl⟩ := getElem_of_mem hs
  have hi' : i < values.length := h.length_eq ▸ hi
  exact ⟨values[i], getElem_mem hi', h.get hi' hi⟩

theorem Validates.exists_share {v : Json} (hv : v ∈ values) :
    ∃ s ∈ l, validateShare sha256 v rounds = .ok s := by
  obtain ⟨i, hi, rfl⟩ := getElem_of_mem hv
  have hi' : i < l.length := h.length_eq ▸ hi
  exact ⟨l[i], getElem_mem hi', h.get hi hi'⟩

end

theorem Distinct.get?_byId_perm {l' : List Share} (hd : Distinct l) (hp : l.Perm l') (k : Text) :
    (Index.ofShares l).byId.get? k = (Index.ofShares l').byId.get? k := by
  ext s
  rw [hd.get?_byId, (hd.perm hp).get?_byId, hp.mem_iff]

theorem evaluateGraph_of_perm (hp : values.Perm values') {roundsDocument : Json} {st : GraphState}
    (h : evaluateGraph sha256 (.arr values) roundsDocument = .ok st) :
    evaluateGraph sha256 (.arr values') roundsDocument = .ok st := by
  obtain ⟨rounds, _, l, hrounds, heq, hmax, hv, hd, hl, t, ht, hst⟩ := evaluateGraph_eq_ok.1 h
  obtain rfl := Json.arr.inj heq
  obtain ⟨l', hv', hp'⟩ := hv.exists_perm hp
  refine evaluateGraph_eq_ok.2 ⟨rounds, values', l', hrounds, rfl, hp.length_eq ▸ hmax, hv',
    hd.perm hp', hl.perm hp', t, ht.congr fun _ => hp'.mem_iff, ?_⟩
  have hsize : (Index.ofShares l).byId.size = (Index.ofShares l').byId.size := by
    rw [hd.size_byId, (hd.perm hp').size_byId, hp'.length_eq]
  rwa [← settle_congr (hd.get?_byId_perm hp') hsize]

end Order

/-- **Order independence.** A permuted list is accepted exactly when the original is, with the
same state. -/
theorem evaluateGraph_perm (sha256 : HashFn) {values values' : List Json}
    (hp : values.Perm values') (roundsDocument : Json) (st : GraphState) :
    evaluateGraph sha256 (.arr values) roundsDocument = .ok st ↔
      evaluateGraph sha256 (.arr values') roundsDocument = .ok st :=
  ⟨evaluateGraph_of_perm hp, evaluateGraph_of_perm hp.symm⟩

/-- When every document of an accepted list is in another accepted list, the other one selects more
work, or as much of it and a tip that is not above. -/
theorem evaluateGraph_mono {sha256 : HashFn} {values values' : List Json} {roundsDocument : Json}
    {st st' : GraphState} (hsub : values ⊆ values')
    (h : evaluateGraph sha256 (.arr values) roundsDocument = .ok st)
    (h' : evaluateGraph sha256 (.arr values') roundsDocument = .ok st') :
    st.selectedCumulativeWork < st'.selectedCumulativeWork ∨
      st.selectedCumulativeWork = st'.selectedCumulativeWork ∧
        st'.selectedTipShareId ≤ st.selectedTipShareId := by
  obtain ⟨rounds, _, l, hrounds, heq, -, hv, -, -, t, ht, hst⟩ := evaluateGraph_eq_ok.1 h
  obtain ⟨rounds', _, l', hrounds', heq', -, hv', -, -, t', ht', hst'⟩ := evaluateGraph_eq_ok.1 h'
  obtain rfl := Json.arr.inj heq
  obtain rfl := Json.arr.inj heq'
  obtain rfl := Except.ok.inj (hrounds.symm.trans hrounds')
  obtain ⟨v, hmem, hok⟩ := hv.exists_document ht.mem
  obtain ⟨s, hs, hok'⟩ := hv'.exists_share (hsub hmem)
  obtain rfl := Except.ok.inj (hok.symm.trans hok')
  obtain ⟨htip, hwork, -⟩ := settle_eq_ok hst
  obtain ⟨htip', hwork', -⟩ := settle_eq_ok hst'
  have hunits : 0 < shareWorkUnits := by rw [shareWorkUnits_eq]; decide
  rw [htip, hwork, htip', hwork']
  rcases (ht'.rank_le t hs).lt_or_eq with hlt | heq
  · exact .inl (Nat.mul_lt_mul_of_pos_left (Nat.succ_lt_succ hlt) hunits)
  · exact .inr ⟨by rw [heq], ht'.key_le t hs heq⟩

theorem evaluateGraph_child_root :
    evaluateGraph Sha256.sha256 (.arr [child.toJson, root.toJson]) rounds =
      .ok (state child) :=
  (evaluateGraph_perm Sha256.sha256 (Perm.swap _ _ []) rounds _).1
    evaluateGraph_root_child

/-! ## Errors -/

section Errors

theorem requireHex_raises (value : Json) (size : Nat) {reason : Reason} (label : String)
    (h : reason ≠ .parentSequence) : Raises Refusal (requireHex value size reason label) := by
  refine (Raises.orRaise (.mk h)).bind fun t _ => ?_
  exact (Raises.orRaise (.mk h)).bind fun _ _ => Raises.ok t

theorem validateRounds_raises (roundsDocument : Json) :
    Raises Refusal (validateRounds roundsDocument) := by
  refine (Raises.orRaise (.mk (by decide))).bind fun items _ => ?_
  refine Raises.foldlM (fun table value => ?_) items _
  refine (Raises.orRaise (.mk (by decide))).bind fun item _ => ?_
  refine (Raises.orRaise (.mk (by decide))).bind fun height _ => ?_
  refine (requireHex_raises _ _ _ (by decide)).bind fun previous _ => ?_
  refine (requireHex_raises _ _ _ (by decide)).bind fun template _ => ?_
  refine (Raises.require (.mk (by decide))).bind fun _ _ => ?_
  exact (Raises.require (.mk (by decide))).bind fun _ _ => Raises.ok _

theorem validateScript_raises (value : Json) : Raises Refusal (validateScript value) := by
  refine (Raises.orRaise (.mk (by decide))).bind fun script _ => ?_
  refine (Raises.orRaise (.mk (by decide))).bind fun _ _ => ?_
  exact (Raises.require (.mk (by decide))).bind fun _ _ => Raises.ok script

variable (sha256 : HashFn)

theorem validateShare_raises (value : Json) (rounds : RoundTable) :
    Raises Refusal (validateShare sha256 value rounds) := by
  refine (Raises.orRaise (.mk (by decide))).bind fun share _ => ?_
  refine (Raises.require (.mk (by decide))).bind fun _ _ => ?_
  refine (Raises.orRaise (.mk (by decide))).bind fun sequence _ => ?_
  refine (Raises.orRaise (.mk (by decide))).bind fun roundHeight _ => ?_
  iterate 6 refine (requireHex_raises _ _ _ (by decide)).bind fun _ _ => ?_
  refine (Raises.require (.mk (by decide))).bind fun _ _ => ?_
  refine (Raises.require (.mk (by decide))).bind fun _ _ => ?_
  refine (Raises.orRaise (.mk (by decide))).bind fun _ _ => ?_
  refine (validateScript_raises _).bind fun script _ => ?_
  iterate 3 refine (Raises.orRaise (.mk (by decide))).bind fun _ _ => ?_
  iterate 8 refine (Raises.require (.mk (by decide))).bind fun _ _ => ?_
  exact Raises.ok _

theorem indexShare_raises (rounds : RoundTable) (ix : Index) (value : Json) :
    Raises Refusal (indexShare sha256 rounds ix value) := by
  refine (validateShare_raises sha256 value rounds).bind fun share _ => ?_
  refine (Raises.require (.mk (by decide))).bind fun _ _ => ?_
  cases ix.byWork.get? share.workId with
  | none => exact Raises.ok _
  | some prior =>
    refine (Raises.require (.mk (by decide))).bind fun _ _ => ?_
    exact Raises.error (.mk (by decide))

theorem evaluateGraph_raises (shares roundsDocument : Json) :
    Raises Refusal (evaluateGraph sha256 shares roundsDocument) := by
  refine (validateRounds_raises roundsDocument).bind fun rounds _ => ?_
  refine (Raises.orRaise (.mk (by decide))).bind fun values _ => ?_
  refine (Raises.foldlM (indexShare_raises sha256 rounds) values _).bind fun ix hix => ?_
  obtain ⟨l, -, hd, rfl⟩ := (foldlM_indexShare_eq_ok distinct_nil).1 hix
  obtain ⟨-, -, st, -, -, hok⟩ | ⟨-, e, herr, he⟩ := selectGraph_cases hd
  · rw [hok]
    exact Raises.ok st
  · rw [herr]
    exact Raises.error he

end Errors

/-! ## Correctness -/

structure RootChain (l chain : List Share) : Prop where
  mem : ∀ s ∈ chain, s ∈ l
  linked : chain.IsChain Share.IsParent
  root : ∃ r, chain.head? = some r ∧ r.IsRoot

def chainWork (chain : List Share) : Nat := shareWorkUnits * chain.length

/-- The state selected from the shares `l` is that of the heaviest chain, with ties broken by
the lowest tip. -/
structure ForkChoice (l : List Share) (st : GraphState) : Prop where
  path : ∃ chain, RootChain l chain ∧ chain.map Share.shareId = st.selectedPathShareIds ∧
    (∀ r ∈ l, r.IsRoot → chain.head? = some r) ∧
    (∀ (i : Nat) (s : Share), chain[i]? = some s → s.sequence = i) ∧
    chainWork chain = st.selectedCumulativeWork ∧
    ∃ t, chain.getLast? = some t ∧ t.shareId = st.selectedTipShareId
  heaviest : ∀ chain, RootChain l chain → chainWork chain ≤ st.selectedCumulativeWork
  lowest : ∀ chain s, RootChain l chain → chain.getLast? = some s →
    chainWork chain = st.selectedCumulativeWork → st.selectedTipShareId ≤ s.shareId

variable {l : List Share}

theorem RootChain.length_eq {chain : List Share} (h : RootChain l chain) (hl : Linked l)
    (hd : Distinct l) {s : Share} (hs : chain.getLast? = some s) :
    chain.length = s.sequence + 1 := by
  obtain ⟨r, hhead, hr⟩ := h.root
  exact (hl.ranked hd).length_eq h.mem h.linked hhead hr hs

theorem ForkChoice.of_best {t : Share} {st : GraphState} (hd : Distinct l) (hl : Linked l)
    (hzero : ∀ s ∈ l, s.shareId ≠ zeroId) (ht : Forest.Best Share.sequence Share.shareId l t)
    (hst : settle shareWorkUnits finalityDepth payoutWindow (Index.ofShares l).byId t.shareId
      (shareWorkUnits * (t.sequence + 1)) = .ok st) : ForkChoice l st := by
  obtain ⟨htip, hwork, hwalk⟩ := settle_eq_ok hst
  obtain ⟨chain, hbranch, hsub⟩ := (hl.ranked hd).exists_branch ht.mem
  obtain ⟨r, hhead, hr⟩ := hbranch.exists_head?
  have hchain : RootChain l chain := ⟨hsub, hbranch.isChain, r, hhead, hr⟩
  have hlen := hchain.length_eq hl hd hbranch.getLast?
  have hunits : 0 < shareWorkUnits := by rw [shareWorkUnits_eq]; decide
  refine ⟨⟨chain, hchain, ?_, ?_, ?_, ?_, t, hbranch.getLast?, htip.symm⟩, ?_, ?_⟩
  · have hfuel : chain.length < (Index.ofShares l).byId.size + 1 := by
      have := (hl.ranked hd).rank_lt_length ht.mem
      rw [hd.size_byId]
      omega
    rw [walkBack_branch hd hbranch hsub (fun u hu => hzero u (hsub u hu)) hfuel] at hwalk
    exact reverse_injective (Except.ok.inj hwalk)
  · intro r' hr' hroot
    obtain ⟨r₀, -, -, -, huniq⟩ := hl.exists_root
    rw [hhead, huniq r (hsub r (mem_of_mem_head? hhead)) hr, huniq r' hr' hroot]
  · exact fun i s hi => (hl.ranked hd).rank_getElem? hsub hbranch.isChain hhead hr hi
  · rw [chainWork, hlen, hwork]
  · intro c hc
    obtain ⟨u, hu⟩ : ∃ u, c.getLast? = some u := by
      obtain ⟨r', hr', -⟩ := hc.root
      exact Option.isSome_iff_exists.1 (by cases c <;> simp_all)
    rw [chainWork, hc.length_eq hl hd hu, hwork]
    exact Nat.mul_le_mul_left _ (Nat.succ_le_succ
      (ht.rank_le u (hc.mem u (mem_of_getLast? hu))))
  · intro c s hc hs hw
    rw [chainWork, hc.length_eq hl hd hs, hwork] at hw
    have hseq := Nat.eq_of_mul_eq_mul_left hunits hw
    rw [htip]
    exact ht.key_le s (hc.mem s (mem_of_getLast? hs)) (by omega)

theorem Validates.unique {sha256 : HashFn} {rounds : RoundTable} {values : List Json}
    {l' : List Share} (h : Validates sha256 rounds values l)
    (h' : Validates sha256 rounds values l') : l = l' :=
  right_unique_forall₂' (fun _ _ _ hs ht => Except.ok.inj (hs.symm.trans ht)) h h'

/-- **Fork choice.** The walk back from the tip always ends and a parent is always visited before
its children; and on an accepted list, provided no share of it hashes to the all-zero
identifier, the selected state is the fork choice of its shares. -/
theorem forkChoice_correct (sha256 : HashFn) :
    (∀ shares roundsDocument, evaluateGraph sha256 shares roundsDocument ≠ .error .diverges ∧
      evaluateGraph sha256 shares roundsDocument ≠ .error
        (.profileError .parentSequence "parent must precede its child by sequence")) ∧
    ∀ {values : List Json} {roundsDocument : Json} {rounds : RoundTable} {l : List Share}
      {st : GraphState}, validateRounds roundsDocument = .ok rounds →
      Validates sha256 rounds values l →
      evaluateGraph sha256 (.arr values) roundsDocument = .ok st →
      (∀ s ∈ l, canonicalHash sha256 (shareBody s.raw) ≠ zeroId) → ForkChoice l st := by
  refine ⟨fun shares roundsDocument => ⟨fun h => ?_, fun h => ?_⟩, ?_⟩
  · obtain ⟨_, _, heq, -⟩ := evaluateGraph_raises sha256 shares roundsDocument _ h
    cases heq
  · obtain ⟨_, _, heq, hne⟩ := evaluateGraph_raises sha256 shares roundsDocument _ h
    cases heq
    exact hne rfl rfl
  · intro values roundsDocument rounds l st hrounds hv h hzero
    obtain ⟨rounds', _, l', hrounds', heq, -, hv', hd, hl, t, ht, hst⟩ := evaluateGraph_eq_ok.1 h
    obtain rfl := Json.arr.inj heq
    obtain rfl := Except.ok.inj (hrounds.symm.trans hrounds')
    obtain rfl := hv.unique hv'
    refine ForkChoice.of_best hd hl (fun s hs => ?_) ht hst
    rw [← (hv.valid s hs).shareId_eq]
    exact hzero s hs

theorem forkChoice_root_child :
    ForkChoice [root, child] (state child) := by
  refine (forkChoice_correct Sha256.sha256).2 validateRounds_rounds
    (.cons validateShare_root (.cons validateShare_child .nil))
    evaluateGraph_root_child fun s hs => ?_
  obtain rfl | rfl : s = root ∨ s = child := by simpa using hs
  · rw [((validateShare_eq_ok.1 validateShare_root).2).shareId_eq]
    decide +kernel
  · rw [((validateShare_eq_ok.1 validateShare_child).2).shareId_eq]
    decide +kernel

end Soveroot
