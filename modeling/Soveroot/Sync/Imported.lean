import Soveroot.Sharechain.ForkChoice
import Soveroot.Sync.Changes

/-!
# What an import does

`Imported` lists the ways `importOne` can end, each with the conditions under which it ends that
way. A batch is then a sequence of changes that always ends (`importBatch_spec`). `Held` is what
every change keeps: the accepted shares form a graph, everything known is valid and known once, and
the limits are met.
-/

namespace Soveroot.Sync

open Py Check List

variable {sha256 : HashFn} {cfg : Config}

/-! ## Looking a share up -/

variable {st : NodeState} {s : Share}

theorem mem_allRecords : s ∈ st.allRecords ↔ s ∈ st.known :=
  (perm_insertionSort recordLe st.known).mem_iff

theorem length_allRecords (st : NodeState) : st.allRecords.length = st.known.length :=
  (perm_insertionSort recordLe st.known).length_eq

theorem workIds_get?_eq_none {work : Text} :
    st.workIds.get? work = none ↔ work ∉ st.known.map Share.workId := by
  rw [Dict.get?_eq_none_iff, NodeState.workIds, Dict.mem_keys_ofList]
  simp [mem_allRecords]

/-! ## One share -/

/-- The ways an import of `value` can end. -/
inductive Imported (sha256 : HashFn) (cfg : Config) (st : NodeState) (value : Json) :
    Except Exn (ImportResult × NodeState) → Prop where
  | invalid {reason : Reason} {detail : String}
      (hv : validateShare sha256 value cfg.roundIndex = .error (.profileError reason detail)) :
      Imported sha256 cfg st value (.error (.profileError reason detail))
  | collision {s t : Share} {detail : String}
      (hv : validateShare sha256 value cfg.roundIndex = .ok s) (ht : t ∈ st.known)
      (hid : t.shareId = s.shareId) (hne : t ≠ s) :
      Imported sha256 cfg st value (.error (.syncError .shareCollision detail))
  | duplicate {s : Share} (hv : validateShare sha256 value cfg.roundIndex = .ok s)
      (hs : s ∈ st.known) : Imported sha256 cfg st value (.ok (.duplicate, st))
  | duplicateWork {s t : Share} {detail : String}
      (hv : validateShare sha256 value cfg.roundIndex = .ok s)
      (hid : s.shareId ∉ st.known.map Share.shareId) (ht : t ∈ st.known)
      (hw : t.workId = s.workId) :
      Imported sha256 cfg st value (.error (.syncError .duplicateWorkIdentity detail))
  | full {s : Share} {detail : String} (hv : validateShare sha256 value cfg.roundIndex = .ok s)
      (hlen : maxKnownShares ≤ st.known.length) :
      Imported sha256 cfg st value (.error (.syncError .knownShareLimit detail))
  | unlinked {s : Share} {reason : Reason} {detail : String}
      (hv : validateShare sha256 value cfg.roundIndex = .ok s) (hf : Fresh st s)
      (hp : parentKnown st.acceptedIds s = true)
      (hg : ¬ GraphOk sha256 cfg (st.acceptedShares ++ [s])) :
      Imported sha256 cfg st value (.error (.profileError reason detail))
  | accepted {s : Share} {st' : NodeState}
      (hv : validateShare sha256 value cfg.roundIndex = .ok s) (hf : Fresh st s)
      (hp : parentKnown st.acceptedIds s = true)
      (hg : GraphOk sha256 cfg (st.acceptedShares ++ [s]))
      (hsteps : OrphanSteps sha256 cfg (st.accept s) st') (hsettled : Settled st') :
      Imported sha256 cfg st value (.ok (.accepted, st'))
  | orphansFull {s : Share} {detail : String}
      (hv : validateShare sha256 value cfg.roundIndex = .ok s) (hf : Fresh st s)
      (hp : parentKnown st.acceptedIds s = false) (hlen : maxOrphans ≤ st.orphans.length) :
      Imported sha256 cfg st value (.error (.syncError .orphanLimit detail))
  | orphan {s : Share} (hv : validateShare sha256 value cfg.roundIndex = .ok s) (hf : Fresh st s)
      (hp : parentKnown st.acceptedIds s = false) (hlt : st.orphans.length < maxOrphans) :
      Imported sha256 cfg st value (.ok (.orphan, st.keep s))

/-- The end of `importOne`, for a share that is not known. -/
theorem importOne_fresh {value : Json} (hv : validateShare sha256 value cfg.roundIndex = .ok s)
    (hf : Fresh st s) : Imported sha256 cfg st value
      (if parentKnown st.acceptedIds s then do
        let _ ← validateGraphPair sha256 cfg (documents (st.acceptedShares ++ [s]))
        let (_, st) ← promoteOrphans sha256 cfg (st.accept s)
        pure (.accepted, st)
      else do
        require (st.orphans.length < maxOrphans)
          (Exn.syncError .orphanLimit "pending-orphan limit is full")
        pure (.orphan, st.keep s)) := by
  by_cases hp : parentKnown st.acceptedIds s = true
  · rw [if_pos hp]
    rcases validateGraphPair_cases sha256 cfg
      (l := st.acceptedShares ++ [s]) (by simp) with ⟨hg, _, hok, -⟩ | ⟨hg, reason, detail, herror⟩
    · obtain ⟨n, st', hloop, hsteps, hsettled⟩ := promoteOrphans_spec sha256 cfg (st.accept s)
      simp only [hok, hloop, ok_bind, pure_eq_ok]
      exact .accepted hv hf hp hg hsteps hsettled
    · rw [herror, error_bind]
      exact .unlinked hv hf hp hg
  · rw [if_neg hp]
    by_cases hlen : st.orphans.length < maxOrphans
    · rw [require_of_pos hlen, ok_bind]
      exact .orphan hv hf (Bool.eq_false_iff.2 hp) hlen
    · rw [require_of_neg hlen, error_bind]
      exact .orphansFull hv hf (Bool.eq_false_iff.2 hp) (Nat.le_of_not_lt hlen)

variable (sha256 cfg) in
theorem importOne_imported (st : NodeState) (value : Json) :
    Imported sha256 cfg st value (importOne sha256 cfg st value) := by
  rw [importOne]
  cases hv : validateShare sha256 value cfg.roundIndex with
  | error e =>
    obtain ⟨reason, detail, rfl, -⟩ := validateShare_raises sha256 value cfg.roundIndex e hv
    exact .invalid hv
  | ok s =>
    rw [ok_bind]
    cases hfind : st.allRecords.find? fun t => t.shareId = s.shareId with
    | some t =>
      have ht := mem_allRecords.1 (mem_of_find?_eq_some hfind)
      have hid : t.shareId = s.shareId := by simpa using find?_some hfind
      by_cases hts : t = s
      · simp only [require_of_pos hts, ok_bind, pure_eq_ok]
        exact .duplicate hv (hts ▸ ht)
      · simp only [require_of_neg hts, error_bind]
        exact .collision hv ht hid hts
    | none =>
      have hid : s.shareId ∉ st.known.map Share.shareId := by
        simpa [find?_eq_none, mem_allRecords] using hfind
      by_cases hw : (st.workIds.get? s.workId).isNone
      · rw [require_of_pos hw, ok_bind, length_allRecords]
        rw [Option.isNone_iff_eq_none, workIds_get?_eq_none] at hw
        by_cases hlen : st.known.length < maxKnownShares
        · rw [require_of_pos hlen, ok_bind]
          exact importOne_fresh hv ⟨hid, hw, hlen⟩
        · rw [require_of_neg hlen, error_bind]
          exact .full hv (Nat.le_of_not_lt hlen)
      · rw [require_of_neg hw, error_bind]
        rw [Option.isNone_iff_eq_none, workIds_get?_eq_none, not_not] at hw
        obtain ⟨t, ht, htw⟩ := mem_map.1 hw
        exact .duplicateWork hv hid ht htw

/-! ## A batch -/

/-- The shares a summary accounts for. -/
def Summary.total (summary : Summary) : Nat :=
  summary.accepted + summary.orphaned + summary.duplicates + summary.rejected

variable (sha256 cfg) in
theorem importNext_spec (st : NodeState) (summary : Summary) (value : Json) :
    ∃ st' summary', importNext sha256 cfg (st, summary) value = .ok (st', summary') ∧
      Changes sha256 cfg st st' ∧ summary'.total = summary.total + 1 := by
  have himported := importOne_imported sha256 cfg st value
  rw [importNext]
  simp only [Summary.total]
  -- a refusal of any kind is counted and leaves the shares alone
  have hrefuse : ∀ reason, IsRejection reason →
      Changes sha256 cfg st (recordRejection st reason) := fun _ h => .single (.refuse h)
  generalize importOne sha256 cfg st value = result at himported
  cases himported with
  | invalid hv => exact ⟨_, _, rfl, hrefuse _ (.profile _), by simp; omega⟩
  | collision hv ht hid hne => exact ⟨_, _, rfl, hrefuse _ .shareCollision, by simp; omega⟩
  | duplicate hv hs => exact ⟨_, _, rfl, .refl, by simp; omega⟩
  | duplicateWork hv hid ht hw =>
    exact ⟨_, _, rfl, hrefuse _ .duplicateWorkIdentity, by simp; omega⟩
  | full hv hlen => exact ⟨_, _, rfl, hrefuse _ .knownShareLimit, by simp; omega⟩
  | unlinked hv hf hp hg => exact ⟨_, _, rfl, hrefuse _ (.profile _), by simp; omega⟩
  | accepted hv hf hp hg hsteps hsettled =>
    exact ⟨_, _, rfl, .head (.accept hf hp hg) hsteps.changes, by simp; omega⟩
  | orphansFull hv hf hp hlen => exact ⟨_, _, rfl, hrefuse _ .orphanLimit, by simp; omega⟩
  | orphan hv hf hp hlt =>
    have hvalid := (validateShare_eq_ok.1 hv).2
    exact ⟨_, _, rfl, .single (.keep hvalid hf hp hlt), by simp; omega⟩

theorem pass_counts (st : NodeState) (n : Nat) :
    ∀ reason ∈ st.rejectionCounts.keys, reason ∈ (st.pass n).2.rejectionCounts.keys := by
  intro reason h
  simp only [NodeState.pass, pruneOrphans]
  split_ifs
  · exact h
  · exact Dict.mem_keys_set.2 (.inr h)

variable (sha256 cfg) in
/-- A batch always ends, with every share of it counted once and every orphan waiting. -/
theorem importBatch_spec (st : NodeState) (shares : List Json) :
    ∃ summary st', importBatch sha256 cfg st shares = .ok (summary, st') ∧
      Changes sha256 cfg (st.pass 1).2 st' ∧ Settled st' ∧ summary.total = shares.length := by
  obtain ⟨⟨st₁, summary⟩, hfold, hchanges, htotal⟩ := foldlM_total (l := shares)
    (P := fun rest (acc : NodeState × Summary) =>
      Changes sha256 cfg (st.pass 1).2 acc.1 ∧ acc.2.total + rest.length = shares.length)
    (f := importNext sha256 cfg)
    (b := ((st.pass 1).2, Summary.mk 0 0 0 0 (st.pass 1).1
      Dict.empty))
    (by
      intro value rest acc hacc
      obtain ⟨st', summary', hok, hchanges, htotal⟩ :=
        importNext_spec sha256 cfg acc.1 acc.2 value
      refine ⟨(st', summary'), hok, hacc.1.trans hchanges, ?_⟩
      have hlen := hacc.2
      simp only [length_cons] at hlen
      simp only [htotal]
      omega)
    ⟨.refl, by simp [Summary.total]⟩
  obtain ⟨n, st₂, hloop, hsteps, hsettled⟩ :=
    promoteOrphans_spec sha256 cfg st₁
  refine ⟨summary, st₂, ?_, hchanges.trans hsteps.changes, hsettled, by simpa using htotal⟩
  rw [importBatch]
  simp only [hfold, hloop, ok_bind, pure_eq_ok]

/-! ## A batch of one share -/

section Single

variable {st : NodeState} {value : Json} {s : Share}

theorem Settled.orphanSteps_eq {st' : NodeState} (h : Settled st)
    (hsteps : OrphanSteps sha256 cfg st st') : st' = st := by
  cases Relation.ReflTransGen.cases_head hsteps with
  | inl heq => exact heq.symm
  | inr hstep =>
    obtain ⟨_, hstep, -⟩ := hstep
    cases hstep with
    | promote ho hp => rw [h _ ho] at hp; cases hp
    | drop ho hp => rw [h _ ho] at hp; cases hp

/-- What comes of a valid share that is imported into `st` after a prune. -/
inductive Single (sha256 : HashFn) (cfg : Config) (st : NodeState) (s : Share) :
    NodeState → Prop where
  | accept {st' : NodeState} (hf : Fresh st s) (hp : parentKnown st.acceptedIds s = true)
      (hg : GraphOk sha256 cfg (st.acceptedShares ++ [s]))
      (hsteps : OrphanSteps sha256 cfg (st.accept s) st') : Single sha256 cfg st s st'
  | keep (hf : Fresh st s) (hp : parentKnown st.acceptedIds s = false)
      (hlt : st.orphans.length < maxOrphans) : Single sha256 cfg st s (st.keep s)
  | refuse {st' : NodeState} (haccepted : st'.acceptedShares = st.acceptedShares)
      (hrefused : Fresh st s →
        (parentKnown st.acceptedIds s = true ∧ ¬ GraphOk sha256 cfg (st.acceptedShares ++ [s])) ∨
        (parentKnown st.acceptedIds s = false ∧ maxOrphans ≤ st.orphans.length)) :
      Single sha256 cfg st s st'

theorem Settled.keep (h : Settled st) (hp : parentKnown st.acceptedIds s = false) :
    Settled (st.keep s) := by
  intro o ho
  rcases mem_append.1 ho with ho | ho
  · exact h o ho
  · rw [mem_singleton.1 ho]
    exact hp

variable (hv : validateShare sha256 value cfg.roundIndex = .ok s) (hsettled : Settled st)
include hv hsettled

theorem importNext_single (summary : Summary) :
    ∃ st' summary', importNext sha256 cfg (st, summary) value = .ok (st', summary') ∧
      Single sha256 cfg st s st' ∧ Settled st' := by
  have himported := importOne_imported sha256 cfg st value
  rw [importNext]
  generalize importOne sha256 cfg st value = result at himported
  cases himported with
  | invalid hv' =>
    rw [hv] at hv'
    cases hv'
  | collision hv' ht hid hne =>
    obtain rfl := Except.ok.inj (hv.symm.trans hv')
    refine ⟨_, _, rfl, .refuse rfl fun hf => absurd ?_ hf.shareId, hsettled⟩
    exact hid ▸ mem_map_of_mem ht
  | duplicate hv' hs =>
    obtain rfl := Except.ok.inj (hv.symm.trans hv')
    exact ⟨_, _, rfl, .refuse rfl fun hf => absurd (mem_map_of_mem hs) hf.shareId, hsettled⟩
  | duplicateWork hv' hid ht hw =>
    obtain rfl := Except.ok.inj (hv.symm.trans hv')
    refine ⟨_, _, rfl, .refuse rfl fun hf => absurd ?_ hf.workId, hsettled⟩
    exact hw ▸ mem_map_of_mem ht
  | full hv' hlen =>
    exact ⟨_, _, rfl, .refuse rfl fun hf => absurd hf.length_lt (Nat.not_lt.2 hlen), hsettled⟩
  | unlinked hv' hf hp hg =>
    obtain rfl := Except.ok.inj (hv.symm.trans hv')
    exact ⟨_, _, rfl, .refuse rfl fun _ => .inl ⟨hp, hg⟩, hsettled⟩
  | accepted hv' hf hp hg hsteps hsettled' =>
    obtain rfl := Except.ok.inj (hv.symm.trans hv')
    exact ⟨_, _, rfl, .accept hf hp hg hsteps, hsettled'⟩
  | orphansFull hv' hf hp hlen =>
    obtain rfl := Except.ok.inj (hv.symm.trans hv')
    exact ⟨_, _, rfl, .refuse rfl fun _ => .inr ⟨hp, hlen⟩, hsettled⟩
  | orphan hv' hf hp hlt =>
    obtain rfl := Except.ok.inj (hv.symm.trans hv')
    exact ⟨_, _, rfl, .keep hf hp hlt, hsettled.keep hp⟩

theorem importShares_single :
    ∃ summary st', importShares sha256 cfg st (.arr [value]) = .ok (summary, st') ∧
      Single sha256 cfg (st.pass 1).2 s st' := by
  have hpass : Settled (st.pass 1).2 := fun o ho => hsettled o (mem_of_mem_filter ho)
  obtain ⟨st', summary, hnext, hsingle, hsettled'⟩ :=
    importNext_single hv hpass ⟨0, 0, 0, 0, (st.pass 1).1, Dict.empty⟩
  obtain ⟨n, st'', hloop, hsteps, -⟩ := promoteOrphans_spec sha256 cfg st'
  obtain rfl := hsettled'.orphanSteps_eq hsteps
  refine ⟨summary, st'', ?_, hsingle⟩
  rw [importShares_arr sha256 cfg st (by simp [maxSharesPerMessage]), importBatch]
  simp only [foldlM_cons, foldlM_nil, hnext, hloop, ok_bind, pure_eq_ok]

end Single

/-! ## What every change keeps -/

/-- The accepted shares form a graph, everything known is valid and known once, and the limits
are met. -/
structure Held (sha256 : HashFn) (cfg : Config) (st : NodeState) : Prop where
  graph : st.acceptedShares = [] ∨ GraphOk sha256 cfg st.acceptedShares
  valid : ∀ s ∈ st.known, ValidShare sha256 cfg.roundIndex s
  distinct : Distinct st.known
  known_le : st.known.length ≤ maxKnownShares
  orphans_le : st.orphans.length ≤ maxOrphans
  arrival_le : ∀ o ∈ st.orphans, o.arrivalTick ≤ st.tick

theorem held_emptyState : Held sha256 cfg emptyState where
  graph := .inl rfl
  valid _ hs := absurd hs not_mem_nil
  distinct := distinct_nil
  known_le := Nat.zero_le _
  orphans_le := Nat.zero_le _
  arrival_le _ ho := absurd ho not_mem_nil

theorem known_keep (st : NodeState) (s : Share) : (st.keep s).known = st.known ++ [s] := by
  simp [NodeState.known, NodeState.keep]

theorem known_accept_perm (st : NodeState) (s : Share) :
    (st.accept s).known.Perm (st.known ++ [s]) := by
  simp only [NodeState.known, NodeState.accept, append_assoc]
  exact perm_append_comm.append_left _

variable {o : Orphan}

theorem known_release_perm (ho : o ∈ st.orphans) :
    st.known.Perm ((st.release o).known ++ [o.share]) := by
  have hperm := ((perm_cons_erase ho).map Orphan.share).trans
    (perm_append_singleton o.share _).symm
  simp only [NodeState.known, NodeState.release, append_assoc]
  exact hperm.append_left _

theorem known_promote_perm (ho : o ∈ st.orphans) :
    ((st.accept o.share).release o).known.Perm st.known :=
  (known_accept_perm (st.release o) o.share).trans (known_release_perm ho).symm

namespace Held

variable {st : NodeState} {st' : NodeState}

section

variable (h : Held sha256 cfg st)
include h

theorem of_sublist (haccepted : st'.acceptedShares = st.acceptedShares)
    (horphans : st'.orphans.Sublist st.orphans) (htick : st.tick ≤ st'.tick) :
    Held sha256 cfg st' := by
  have hknown : st'.known.Sublist st.known := by
    rw [NodeState.known, NodeState.known, haccepted]
    exact (horphans.map _).append_left _
  exact {
    graph := haccepted ▸ h.graph
    valid := fun s hs => h.valid s (hknown.subset hs)
    distinct := h.distinct.sublist hknown
    known_le := hknown.length_le.trans h.known_le
    orphans_le := horphans.length_le.trans h.orphans_le
    arrival_le := fun o ho => (h.arrival_le o (horphans.subset ho)).trans htick }

theorem release (o : Orphan) : Held sha256 cfg (st.release o) :=
  h.of_sublist rfl erase_sublist (Nat.le_refl _)

variable {s : Share}

theorem keep (hv : ValidShare sha256 cfg.roundIndex s) (hf : Fresh st s)
    (hlt : st.orphans.length < maxOrphans) : Held sha256 cfg (st.keep s) where
  graph := h.graph
  valid := by
    rw [known_keep, forall_mem_append, forall_mem_singleton]
    exact ⟨h.valid, hv⟩
  distinct := by
    rw [known_keep]
    exact distinct_append_singleton.2 ⟨h.distinct, hf.shareId, hf.workId⟩
  known_le := by
    rw [known_keep, length_append, length_singleton]
    exact hf.length_lt
  orphans_le := by
    rw [NodeState.keep, length_append, length_singleton]
    exact hlt
  arrival_le := by
    simp only [NodeState.keep, forall_mem_append, forall_mem_singleton]
    exact ⟨h.arrival_le, Nat.le_refl _⟩

theorem accept (hf : Fresh st s)
    (hg : GraphOk sha256 cfg (st.acceptedShares ++ [s])) : Held sha256 cfg (st.accept s) where
  graph := .inr hg
  valid := by
    intro t ht
    rw [(known_accept_perm st s).mem_iff, mem_append, mem_singleton] at ht
    rcases ht with ht | rfl
    · exact h.valid t ht
    · exact hg.valid t (by simp)
  distinct :=
    (distinct_append_singleton.2 ⟨h.distinct, hf.shareId, hf.workId⟩).perm
      (known_accept_perm st s).symm
  known_le := by
    rw [(known_accept_perm st s).length_eq, length_append, length_singleton]
    exact hf.length_lt
  orphans_le := h.orphans_le
  arrival_le := h.arrival_le

end

theorem promote {o : Orphan} (h : Held sha256 cfg st) (ho : o ∈ st.orphans)
    (hg : GraphOk sha256 cfg (st.acceptedShares ++ [o.share])) :
    Held sha256 cfg ((st.accept o.share).release o) where
  graph := .inr hg
  valid s hs := h.valid s ((known_promote_perm ho).mem_iff.1 hs)
  distinct := h.distinct.perm (known_promote_perm ho).symm
  known_le := (known_promote_perm ho).length_eq ▸ h.known_le
  orphans_le := (h.release o).orphans_le
  arrival_le := (h.release o).arrival_le

variable (h : Held sha256 cfg st)
include h

theorem change (hc : Change sha256 cfg st st') : Held sha256 cfg st' := by
  cases hc with
  | refuse _ => exact h.of_sublist rfl (Sublist.refl _) (Nat.le_refl _)
  | keep hv hf hp hlt => exact h.keep hv hf hlt
  | accept hf hp hg => exact h.accept hf hg
  | orphan hstep =>
    cases hstep with
    | promote ho hp hg => exact h.promote ho hg
    | drop ho hp hg reason => exact h.of_sublist rfl erase_sublist (Nat.le_refl _)

theorem changes (hc : Changes sha256 cfg st st') :
    Held sha256 cfg st' := by
  induction hc with
  | refl => exact h
  | tail _ hstep ih => exact ih.change hstep

theorem pass (n : Nat) : Held sha256 cfg (st.pass n).2 :=
  h.of_sublist rfl filter_sublist (Nat.le_add_right _ _)

end Held

end Soveroot.Sync
