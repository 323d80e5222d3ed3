import Soveroot.Sync.Imported

/-!
# Delivery order does not matter

Let the shares of an accepted graph be delivered to an empty node in any order, in batches of any
size, any number of times each. Unless a limit is hit on the way, the node ends with exactly the
shares of the graph, no orphans and nothing refused (`importAll_delivers`).

The shares of the graph that have arrived are accepted or waiting; the others are still to come
(`Pending`). A share of the graph whose parent has been accepted always extends the accepted part of
the graph (`GraphOk.extend`).
-/

namespace Soveroot.Sync

open Py Check List

variable {sha256 : HashFn} {cfg : Config}

/-! ## Parts of a graph -/

variable {l part : List Share} {s : Share}

/-- A part of a graph that contains its root, and a share of the graph outside it: that share is
not a root. -/
theorem not_isRoot_of_part (h : Linked l) (hpart : Linked part) (hsub : ∀ t ∈ part, t ∈ l)
    (hs : s ∈ l) (hnew : s ∉ part) : ¬ s.IsRoot := by
  intro hsr
  obtain ⟨r, -, -, -, huniq⟩ := h.exists_root
  obtain ⟨r', hr', hroot', -⟩ := hpart.exists_root
  apply hnew
  rwa [huniq s hs hsr, ← huniq r' (hsub r' hr') hroot']

/-- A share of a graph whose parent lies in a part of the graph extends that part. -/
theorem linked_extend (h : Linked l) (hl : Distinct l) (hpart : part = [] ∨ Linked part)
    (hsub : ∀ t ∈ part, t ∈ l) (hs : s ∈ l) (hnew : s ∉ part)
    (hp : s.IsRoot ∨ s.previousShareId ∈ part.map Share.shareId) : Linked (part ++ [s]) := by
  constructor
  · rw [filter_append, map_append]
    rcases hpart with rfl | hpart
    · -- the first share is the root
      have hsr : s.IsRoot := by simpa using hp
      obtain ⟨r, -, -, hseq, huniq⟩ := h.exists_root
      have hs0 : s.sequence = 0 := by rw [huniq s hs hsr, hseq]
      simp [hsr, hs0]
    · simp [not_isRoot_of_part h hpart hsub hs hnew, hpart.root]
  · intro t ht
    rcases mem_append.1 ht with ht | ht
    · rcases hpart with rfl | hpart
      · simp at ht
      · rcases hpart.placed t ht with hr | ⟨p, hpmem, hext⟩
        · exact .inl hr
        · exact .inr ⟨p, mem_append_left _ hpmem, hext⟩
    · obtain rfl := mem_singleton.1 ht
      rcases hp with hr | hid
      · exact .inl hr
      · rcases h.placed t hs with hr | ⟨p, hpmem, hext⟩
        · exact .inl hr
        · obtain ⟨q, hq, hqid⟩ := mem_map.1 hid
          have hqp : q = p := hl.eq_of_shareId (hsub q hq) hpmem (hqid.trans hext.parent)
          exact .inr ⟨p, mem_append_left _ (hqp ▸ hq), hext⟩

theorem GraphOk.extend (h : GraphOk sha256 cfg l) (hpart : part = [] ∨ GraphOk sha256 cfg part)
    (hsub : ∀ t ∈ part, t ∈ l) (hs : s ∈ l) (hd : Distinct (part ++ [s]))
    (hp : parentKnown (part.map Share.shareId) s = true) : GraphOk sha256 cfg (part ++ [s]) := by
  have hsub' : ∀ t ∈ part ++ [s], t ∈ l := by
    intro t ht
    rcases mem_append.1 ht with ht | ht
    · exact hsub t ht
    · rwa [mem_singleton.1 ht]
  have hnew : s ∉ part := fun hmem =>
    (distinct_append_singleton.1 hd).2.1 (mem_map_of_mem hmem)
  have hnodup : (part ++ [s]).Nodup := Nodup.of_map _ hd.shareIds
  exact {
    valid := fun t ht => h.valid t (hsub' t ht)
    distinct := hd
    linked := linked_extend h.linked h.distinct (hpart.imp_right GraphOk.linked) hsub hs hnew
      (parentKnown_iff.1 hp)
    length_le := (hnodup.subperm hsub').length_le.trans h.length_le }

/-! ## Shares of one graph -/

/-- The refusals that depend on what else a node is holding. -/
def limitReasons : List Text :=
  [SyncReason.orphanLimit.text, SyncReason.knownShareLimit.text, ascii "orphan_expired"]

/-- A limit has been hit. With at most sixteen shares that takes more than sixty-four ticks. -/
structure LimitHit (l : List Share) (st : NodeState) : Prop where
  counted : ∃ reason ∈ limitReasons, reason ∈ st.rejectionCounts.keys
  large : maxOrphans < l.length ∨ maxOrphanAgeTicks < st.tick

variable {st : NodeState} {st' : NodeState}

theorem LimitHit.mono (h : LimitHit l st)
    (hcounts : ∀ reason ∈ st.rejectionCounts.keys, reason ∈ st'.rejectionCounts.keys)
    (htick : st.tick ≤ st'.tick) : LimitHit l st' := by
  obtain ⟨reason, hlimit, hcount⟩ := h.counted
  exact ⟨⟨reason, hlimit, hcounts reason hcount⟩, h.large.imp_right fun hlt => hlt.trans_le htick⟩

theorem LimitHit.frame (h : LimitHit l st) (hf : Frame st st') : LimitHit l st' :=
  h.mono hf.rejectionCounts (Nat.le_of_eq hf.tick.symm)

theorem limitHit_recordRejection (st : NodeState) {reason : Text} (h : reason ∈ limitReasons)
    (hl : maxOrphans < l.length) : LimitHit l (recordRejection st reason) :=
  ⟨⟨reason, h, Dict.mem_keys_set.2 (.inl rfl)⟩, .inl hl⟩

/-- Only shares of the graph `l` have arrived, and none of them has been refused. -/
structure Receiving (sha256 : HashFn) (cfg : Config) (l : List Share) (st : NodeState) :
    Prop where
  held : Held sha256 cfg st
  known_subset : ∀ s ∈ st.known, s ∈ l
  clean : st.rejectionCounts = Dict.empty

namespace Receiving

variable {l : List Share} {st : NodeState}

theorem accepted_subset (h : Receiving sha256 cfg l st) : ∀ s ∈ st.acceptedShares, s ∈ l :=
  fun s hs => h.known_subset s (mem_append_left _ hs)

theorem length_known_le (h : Receiving sha256 cfg l st) : st.known.length ≤ l.length :=
  ((Nodup.of_map _ h.held.distinct.shareIds).subperm h.known_subset).length_le

/-- A share that has not arrived leaves room among the known ones. -/
theorem length_known_lt {s : Share} (h : Receiving sha256 cfg l st) (hs : s ∈ l)
    (hf : Fresh st s) : st.known.length < l.length := by
  have hnew : s ∉ st.known := fun hmem => hf.shareId (mem_map_of_mem hmem)
  have hnodup : (s :: st.known).Nodup :=
    nodup_cons.2 ⟨hnew, Nodup.of_map _ h.held.distinct.shareIds⟩
  exact (hnodup.subperm (forall_mem_cons.2 ⟨hs, h.known_subset⟩)).length_le

variable {st' : NodeState}

section

variable (hl : GraphOk sha256 cfg l) (h : Receiving sha256 cfg l st)
include hl h

theorem orphanStep (hstep : OrphanStep sha256 cfg st st') :
    Receiving sha256 cfg l st' ∧ st'.known.Perm st.known := by
  cases hstep with
  | @promote o ho hp hg =>
    have hperm := known_promote_perm ho
    exact ⟨⟨h.held.promote ho hg, fun s hs => h.known_subset s (hperm.mem_iff.1 hs), h.clean⟩,
      hperm⟩
  | @drop o ho hp hg reason =>
    have hmem : o.share ∈ st.known := mem_append_right _ (mem_map_of_mem ho)
    have hd : Distinct (st.acceptedShares ++ [o.share]) :=
      h.held.distinct.sublist
        ((singleton_sublist.2 (mem_map_of_mem ho)).append_left _)
    exact absurd (hl.extend h.held.graph h.accepted_subset (h.known_subset _ hmem) hd hp) hg

theorem orphanSteps (hsteps : OrphanSteps sha256 cfg st st') :
    Receiving sha256 cfg l st' ∧ st'.known.Perm st.known := by
  induction hsteps with
  | refl => exact ⟨h, Perm.refl _⟩
  | tail _ hstep ih =>
    obtain ⟨hreceiving, hperm⟩ := ih
    obtain ⟨hreceiving', hperm'⟩ := hreceiving.orphanStep hl hstep
    exact ⟨hreceiving', hperm'.trans hperm⟩

end

/-- A share of the graph is known after its import, unless a limit was hit. -/
theorem importNext {value : Json} {s : Share} (hl : GraphOk sha256 cfg l)
    (h : Receiving sha256 cfg l st) (hv : validateShare sha256 value cfg.roundIndex = .ok s)
    (hs : s ∈ l) (summary : Summary) :
    ∃ st' summary', importNext sha256 cfg (st, summary) value = .ok (st', summary') ∧
      (LimitHit l st' ∨
        (Receiving sha256 cfg l st' ∧ ∀ t, t ∈ st.known ∨ t = s → t ∈ st'.known)) := by
  have himported := importOne_imported sha256 cfg st value
  rw [Sync.importNext]
  generalize importOne sha256 cfg st value = result at himported
  cases himported with
  | invalid hv' => cases hv.symm.trans hv'
  | collision hv' ht hid hne =>
    obtain rfl := Except.ok.inj (hv.symm.trans hv')
    exact absurd (hl.distinct.eq_of_shareId (h.known_subset _ ht) hs hid) hne
  | duplicate hv' hknown =>
    obtain rfl := Except.ok.inj (hv.symm.trans hv')
    exact ⟨_, _, rfl, .inr ⟨h, fun t ht => ht.elim id fun heq => heq ▸ hknown⟩⟩
  | duplicateWork hv' hid ht hw =>
    obtain rfl := Except.ok.inj (hv.symm.trans hv')
    have hts := hl.distinct.eq_of_workId (h.known_subset _ ht) hs hw
    exact absurd (mem_map_of_mem (hts ▸ ht)) hid
  | full hv' hlen =>
    have hlt : maxOrphans < l.length :=
      Nat.lt_of_lt_of_le (by decide) (hlen.trans h.length_known_le)
    exact ⟨_, _, rfl,
      .inl (limitHit_recordRejection st (by simp [reasonOf, limitReasons]) hlt)⟩
  | unlinked hv' hf hp hg =>
    obtain rfl := Except.ok.inj (hv.symm.trans hv')
    have hd : Distinct (st.acceptedShares ++ [s]) :=
      (distinct_append_singleton.2 ⟨h.held.distinct, hf.shareId, hf.workId⟩).sublist
        ((sublist_append_left _ _).append_right _)
    exact absurd (hl.extend h.held.graph h.accepted_subset hs hd hp) hg
  | accepted hv' hf hp hg hsteps hsettled =>
    obtain rfl := Except.ok.inj (hv.symm.trans hv')
    have hmem : ∀ t, t ∈ (st.accept s).known ↔ t ∈ st.known ∨ t = s := by
      simp [(known_accept_perm st s).mem_iff]
    have haccept : Receiving sha256 cfg l (st.accept s) :=
      ⟨h.held.accept hf hg, fun t ht => ((hmem t).1 ht).elim (h.known_subset t) (· ▸ hs),
        h.clean⟩
    obtain ⟨hreceiving, hperm⟩ := haccept.orphanSteps hl hsteps
    exact ⟨_, _, rfl, .inr ⟨hreceiving, fun t ht => hperm.mem_iff.2 ((hmem t).2 ht)⟩⟩
  | orphansFull hv' hf hp hlen =>
    obtain rfl := Except.ok.inj (hv.symm.trans hv')
    have horphans : st.orphans.length ≤ st.known.length := by simp [NodeState.known]
    have hlt : maxOrphans < l.length :=
      (hlen.trans horphans).trans_lt (h.length_known_lt hs hf)
    exact ⟨_, _, rfl,
      .inl (limitHit_recordRejection st (by simp [reasonOf, limitReasons]) hlt)⟩
  | orphan hv' hf hp hlt =>
    obtain rfl := Except.ok.inj (hv.symm.trans hv')
    have hmem : ∀ t, t ∈ (st.keep s).known ↔ t ∈ st.known ∨ t = s := by
      simp [known_keep]
    exact ⟨_, _, rfl, .inr ⟨⟨h.held.keep (hl.valid s hs) hf hlt,
      fun t ht => ((hmem t).1 ht).elim (h.known_subset t) (· ▸ hs), h.clean⟩,
      fun t ht => (hmem t).2 ht⟩⟩

theorem pass (h : Receiving sha256 cfg l st) :
    LimitHit l (st.pass 1).2 ∨
    (Receiving sha256 cfg l (st.pass 1).2 ∧ (st.pass 1).2.known = st.known) := by
  have hheld : Held sha256 cfg (st.pass 1).2 := h.held.pass 1
  by_cases hall : ∀ o ∈ st.orphans, st.tick + 1 ≤ o.arrivalTick + maxOrphanAgeTicks
  · right
    have hfilter : st.orphans.filter
        (fun o => st.tick + 1 ≤ o.arrivalTick + maxOrphanAgeTicks) = st.orphans :=
      filter_eq_self.2 fun o ho => decide_eq_true (hall o ho)
    have hknown : (st.pass 1).2.known = st.known := by
      simp only [NodeState.pass, pruneOrphans, NodeState.known, hfilter]
    refine ⟨⟨hheld, hknown ▸ h.known_subset, ?_⟩, hknown⟩
    simp only [NodeState.pass, pruneOrphans, hfilter, Nat.sub_self, if_true]
    exact h.clean
  · left
    have hlt : (st.orphans.filter
        fun o => st.tick + 1 ≤ o.arrivalTick + maxOrphanAgeTicks).length < st.orphans.length := by
      simpa using hall
    refine ⟨⟨ascii "orphan_expired", by simp [limitReasons], ?_⟩, .inr ?_⟩
    · simp only [NodeState.pass, pruneOrphans]
      rw [if_neg (by omega)]
      exact Dict.mem_keys_set.2 (.inl rfl)
    · simp only [not_forall] at hall
      simp only [NodeState.pass, pruneOrphans]
      omega

end Receiving

/-! ## Shares still to come -/

/-- The documents `coming` are shares of the graph, and every share of the graph is known or among
them. -/
structure Pending (sha256 : HashFn) (cfg : Config) (l : List Share) (coming : List Json)
    (st : NodeState) : Prop where
  coming_valid : ∀ v ∈ coming, ∃ s ∈ l, validateShare sha256 v cfg.roundIndex = .ok s
  cases : LimitHit l st ∨ (Receiving sha256 cfg l st ∧
    ∀ s ∈ l, s ∈ st.known ∨ ∃ v ∈ coming, validateShare sha256 v cfg.roundIndex = .ok s)

namespace Pending

variable {l : List Share} {coming : List Json} {st : NodeState}

theorem pass (h : Pending sha256 cfg l coming st) : Pending sha256 cfg l coming (st.pass 1).2 := by
  refine ⟨h.coming_valid, ?_⟩
  rcases h.cases with hlimit | ⟨hreceiving, hdue⟩
  · exact .inl (hlimit.mono (pass_counts st 1)
      (Nat.le_succ _))
  · rcases hreceiving.pass with hlimit | ⟨hreceiving', hknown⟩
    · exact .inl hlimit
    · exact .inr ⟨hreceiving', hknown ▸ hdue⟩

theorem importNext {value : Json} (hl : GraphOk sha256 cfg l)
    (h : Pending sha256 cfg l (value :: coming) st) (summary : Summary) :
    ∃ st' summary', importNext sha256 cfg (st, summary) value = .ok (st', summary') ∧
      st'.tick = st.tick ∧ Pending sha256 cfg l coming st' := by
  have hcoming : ∀ v ∈ coming, ∃ s ∈ l, validateShare sha256 v cfg.roundIndex = .ok s :=
    fun v hv => h.coming_valid v (mem_cons_of_mem _ hv)
  obtain ⟨st', summary', hok, hchanges, -⟩ :=
    importNext_spec sha256 cfg st summary value
  refine ⟨st', summary', hok, hchanges.frame.tick, hcoming, ?_⟩
  rcases h.cases with hlimit | ⟨hreceiving, hdue⟩
  · exact .inl (hlimit.frame hchanges.frame)
  · obtain ⟨s, hs, hv⟩ := h.coming_valid value (by simp)
    obtain ⟨_, _, hok', hcase⟩ := hreceiving.importNext hl hv hs summary
    obtain ⟨rfl, rfl⟩ := Prod.mk.inj (Except.ok.inj (hok.symm.trans hok'))
    refine hcase.imp_right fun hc => ⟨hc.1, fun t ht => ?_⟩
    rcases hdue t ht with hknown | ⟨v, hv', htv⟩
    · exact .inl (hc.2 t (.inl hknown))
    · rcases mem_cons.1 hv' with rfl | hv'
      · exact .inl (hc.2 t (.inr (Except.ok.inj (htv.symm.trans hv))))
      · exact .inr ⟨v, hv', htv⟩

theorem orphanSteps {st' : NodeState} (hl : GraphOk sha256 cfg l)
    (h : Pending sha256 cfg l coming st) (hsteps : OrphanSteps sha256 cfg st st') :
    Pending sha256 cfg l coming st' := by
  refine ⟨h.coming_valid, ?_⟩
  rcases h.cases with hlimit | ⟨hreceiving, hdue⟩
  · exact .inl (hlimit.frame hsteps.changes.frame)
  · obtain ⟨hreceiving', hperm⟩ := hreceiving.orphanSteps hl hsteps
    exact .inr ⟨hreceiving', fun s hs => (hdue s hs).imp_left hperm.mem_iff.2⟩

theorem importBatch {batch : List Json} (hl : GraphOk sha256 cfg l)
    (h : Pending sha256 cfg l (batch ++ coming) st) :
    ∃ summary st', importBatch sha256 cfg st batch = .ok (summary, st') ∧
      Pending sha256 cfg l coming st' ∧ Settled st' ∧ st'.tick = st.tick + 1 := by
  obtain ⟨⟨st₁, summary⟩, hfold, hpending, htick⟩ := foldlM_total (l := batch)
    (P := fun rest (acc : NodeState × Summary) =>
      Pending sha256 cfg l (rest ++ coming) acc.1 ∧ acc.1.tick = st.tick + 1)
    (f := Sync.importNext sha256 cfg)
    (b := ((st.pass 1).2, Summary.mk 0 0 0 0 (st.pass 1).1
      Dict.empty))
    (by
      intro value rest acc hacc
      obtain ⟨st', summary', hok, htick, hpending⟩ := hacc.1.importNext hl acc.2
      exact ⟨(st', summary'), hok, hpending, htick.trans hacc.2⟩)
    ⟨h.pass, rfl⟩
  obtain ⟨n, st₂, hloop, hsteps, hsettled⟩ :=
    promoteOrphans_spec sha256 cfg st₁
  refine ⟨summary, st₂, ?_, hpending.orphanSteps hl hsteps, hsettled,
    hsteps.changes.frame.tick.trans htick⟩
  simp only [Sync.importBatch, hfold, hloop, ok_bind, pure_eq_ok]

end Pending

/-! ## Nothing left to come -/

section

variable (hl : GraphOk sha256 cfg l) (h : Receiving sha256 cfg l st) (hall : ∀ s ∈ l, s ∈ st.known)
include hl h hall

/-- A node that knows a whole graph and nothing else has no orphans. -/
theorem Receiving.orphans_eq_nil (hsettled : Settled st) : st.orphans = [] := by
  -- no orphan of any sequence: the parent of one would be an orphan of smaller sequence
  have hnone : ∀ n, ∀ o ∈ st.orphans, o.share.sequence = n → False := by
    intro n
    induction n using Nat.strong_induction_on with
    | _ n ih =>
      intro o ho hn
      have hwait := hsettled o ho
      have hmem : o.share ∈ l :=
        h.known_subset _ (mem_append_right _ (mem_map_of_mem ho))
      rcases hl.linked.placed o.share hmem with hroot | ⟨p, hp, hext⟩
      · rw [parentKnown_iff.2 (.inl hroot)] at hwait
        cases hwait
      · rcases mem_append.1 (hall p hp) with hacc | horphan
        · have hid : o.share.previousShareId ∈ st.acceptedIds :=
            hext.parent ▸ mem_map_of_mem hacc
          rw [parentKnown_iff.2 (.inr hid)] at hwait
          cases hwait
        · obtain ⟨o', ho', rfl⟩ := mem_map.1 horphan
          have hlt : o'.share.sequence < n := by
            have hseq := hext.sequence
            omega
          exact ih _ hlt o' ho' rfl
  exact eq_nil_iff_forall_not_mem.2 fun o ho => hnone _ o ho rfl

theorem Receiving.accepted_perm (horphans : st.orphans = []) : st.acceptedShares.Perm l := by
  have hknown : st.known = st.acceptedShares := by simp [NodeState.known, horphans]
  rw [← hknown]
  refine (perm_ext_iff_of_nodup ?_ ?_).2 fun s => ⟨h.known_subset s, hall s⟩
  · exact Nodup.of_map _ h.held.distinct.shareIds
  · exact Nodup.of_map _ hl.distinct.shareIds

end

variable {graph : GraphState}

/-- A graph is evaluated to the same state from any documents of its shares, in any order. -/
theorem evaluateGraph_documents_of_perm {values : List Json} {l' : List Share}
    (h : evaluateGraph sha256 (.arr values) cfg.rounds = .ok graph)
    (hv : Validates sha256 cfg.roundIndex values l) (hp : l.Perm l') :
    evaluateGraph sha256 (.arr (documents l')) cfg.rounds = .ok graph := by
  obtain ⟨rounds, _, l₀, hrounds, heq, hmax, hv₀, hd, hl, t, ht, hst⟩ := evaluateGraph_eq_ok.1 h
  obtain rfl := Json.arr.inj heq
  obtain rfl := Except.ok.inj (hrounds.symm.trans cfg.validateRounds_rounds)
  obtain rfl := hv.unique hv₀
  have hdocs : evaluateGraph sha256 (.arr (documents l)) cfg.rounds = .ok graph :=
    evaluateGraph_eq_ok.2 ⟨cfg.roundIndex, _, l, hrounds, rfl,
      by simpa [documents, hv.length_eq] using hmax, validates_documents.2 ⟨rfl, hv.valid⟩, hd, hl,
      t, ht, hst⟩
  exact evaluateGraph_of_perm (hp.map _) hdocs

theorem stateView_of_evaluateGraph
    (h : evaluateGraph sha256 (.arr (documents st.acceptedShares)) cfg.rounds = .ok graph) :
    ∃ view, stateView sha256 cfg st = .ok view ∧ view.selectedState = some graph ∧
      view.stateCommitment = canonicalHash sha256 graph.toJson := by
  have hg := evaluateGraph_documents.1 ⟨graph, h⟩
  rcases validateGraphPair_cases sha256 cfg hg.linked.ne_nil with ⟨-, graph', hok, heval⟩ | ⟨hng, -⟩
  · obtain rfl := Except.ok.inj (h.symm.trans heval)
    rw [stateView, hok]
    exact ⟨_, rfl, rfl, rfl⟩
  · exact absurd hg hng

/-! ## Whole deliveries -/

/-- One call of `import_shares` after another. -/
def importAll (sha256 : HashFn) (cfg : Config) (st : NodeState) (batches : List Json) :
    Except Exn NodeState :=
  batches.foldlM (fun st shares => do
    let (_, st) ← importShares sha256 cfg st shares
    pure st) st

theorem Pending.importAll (hl : GraphOk sha256 cfg l) {batches : List (List Json)}
    (hsize : ∀ b ∈ batches, b.length ≤ maxSharesPerMessage)
    (h : Pending sha256 cfg l batches.flatten st) (hsettled : Settled st) :
    ∃ st', importAll sha256 cfg st (batches.map .arr) = .ok st' ∧
      Pending sha256 cfg l [] st' ∧ Settled st' ∧ st'.tick = st.tick + batches.length := by
  induction batches generalizing st with
  | nil => exact ⟨st, rfl, h, hsettled, rfl⟩
  | cons b batches ih =>
    rw [forall_mem_cons] at hsize
    rw [flatten_cons] at h
    obtain ⟨summary, st₁, hok, hpending, hsettled₁, htick₁⟩ := h.importBatch hl
    have hshares : importShares sha256 cfg st (.arr b) = .ok (summary, st₁) := by
      rw [importShares_arr sha256 cfg st hsize.1, hok]
    obtain ⟨st', hall, hpending', hsettled', htick'⟩ := ih hsize.2 hpending hsettled₁
    refine ⟨st', ?_, hpending', hsettled', ?_⟩
    · rw [Sync.importAll, map_cons, foldlM_cons]
      simp only [hshares, ok_bind, pure_eq_ok]
      exact hall
    · rw [htick', htick₁, length_cons]
      omega

/-- What the node is left with after a delivery of the graph. -/
structure Delivered (sha256 : HashFn) (cfg : Config) (values : List Json) (graph : GraphState)
    (st : NodeState) : Prop where
  accepted : ∃ l, Validates sha256 cfg.roundIndex values l ∧ st.acceptedShares.Perm l
  orphans : st.orphans = []
  rejectionCounts : st.rejectionCounts = Dict.empty
  view : ∃ view, stateView sha256 cfg st = .ok view ∧ view.selectedState = some graph ∧
    view.stateCommitment = canonicalHash sha256 graph.toJson

/-- **Delivery order does not matter.** Deliver documents of the shares of an accepted graph to an
empty node, in any order and any batches. Unless a limit is hit on the way, the node ends with the
shares of the graph, no orphans, nothing refused, and the commitment of the graph; and a limit is
hit only by more than sixteen shares or more than sixty-four batches. -/
theorem importAll_delivers {values : List Json} {graph : GraphState}
    (h : evaluateGraph sha256 (.arr values) cfg.rounds = .ok graph) {batches : List (List Json)}
    (hsize : ∀ b ∈ batches, b.length ≤ maxSharesPerMessage)
    (hsame : ∀ r, r ∈ batches.flatten.map (validateShare sha256 · cfg.roundIndex) ↔
      r ∈ values.map (validateShare sha256 · cfg.roundIndex)) :
    ∃ st, importAll sha256 cfg emptyState (batches.map .arr) = .ok st ∧
      ((∀ reason ∈ limitReasons, reason ∉ st.rejectionCounts.keys) ∨
        (values.length ≤ maxOrphans ∧ batches.length ≤ maxOrphanAgeTicks) →
        Delivered sha256 cfg values graph st) := by
  obtain ⟨rounds, _, l, hrounds, heq, hmax, hv, hd, hlinked, -⟩ := evaluateGraph_eq_ok.1 h
  obtain rfl := Json.arr.inj heq
  obtain rfl := Except.ok.inj (hrounds.symm.trans cfg.validateRounds_rounds)
  have hlen := hv.length_eq
  have hl : GraphOk sha256 cfg l := ⟨hv.valid, hd, hlinked, hlen ▸ hmax⟩
  have hpending : Pending sha256 cfg l batches.flatten emptyState := by
    refine ⟨fun v hmem => ?_, .inr ⟨⟨held_emptyState, by simp [NodeState.known, emptyState],
      rfl⟩, fun s hs => .inr ?_⟩⟩
    · obtain ⟨w, hw, heq⟩ := mem_map.1 ((hsame _).1 (mem_map_of_mem hmem))
      obtain ⟨s, hs, hws⟩ := hv.exists_share hw
      exact ⟨s, hs, heq ▸ hws⟩
    · obtain ⟨w, hw, hws⟩ := hv.exists_document hs
      obtain ⟨v, hmem, heq⟩ := mem_map.1 ((hsame _).2 (mem_map_of_mem hw))
      exact ⟨v, hmem, heq.trans hws⟩
  obtain ⟨st, hok, hdone, hsettled, htick⟩ :=
    hpending.importAll hl hsize (by simp [Settled, emptyState])
  refine ⟨st, hok, fun hlimits => ?_⟩
  rcases hdone.cases with ⟨⟨reason, hreason, hcount⟩, hlarge⟩ | ⟨hreceiving, hdue⟩
  · rcases hlimits with hlimits | hsmall
    · exact absurd hcount (hlimits reason hreason)
    · simp only [emptyState] at htick
      omega
  · have hall : ∀ s ∈ l, s ∈ st.known := fun s hs => (hdue s hs).elim id fun hc => by simp at hc
    have horphans := hreceiving.orphans_eq_nil hl hall hsettled
    have hperm := hreceiving.accepted_perm hl hall horphans
    exact ⟨⟨l, hv, hperm⟩, horphans, hreceiving.clean,
      stateView_of_evaluateGraph (evaluateGraph_documents_of_perm h hv hperm.symm)⟩

/-! ## An example -/

namespace Sample

open Soveroot.Sample

def config : Config where
  nodeId := ascii "node-a"
  controlKeyHex := formatHex 64 1
  rounds := rounds
  roundIndex := table
  peers := Dict.empty.set (ascii "node-b") (formatHex 64 2)
  validateRounds_rounds := validateRounds_rounds
  isHex_controlKeyHex := by decide +kernel
  isHex_sharedKeyHex := by decide +kernel
  nodeId_not_mem := by decide +kernel

end Sample

open Sync.Sample Soveroot.Sample

/-- The child arrives before its parent, and again after it. -/
theorem importAll_child_root :
    ∃ st, importAll Sha256.sha256 config emptyState
        [.arr [child.toJson],
          .arr [root.toJson, child.toJson]] = .ok st ∧
      Delivered Sha256.sha256 config
        [root.toJson, child.toJson]
        (state child) st := by
  obtain ⟨st, hok, h⟩ := @importAll_delivers Sha256.sha256 config _ _
    evaluateGraph_root_child
    [[child.toJson],
      [root.toJson, child.toJson]]
    (by decide) (by simp)
  exact ⟨st, hok, h (.inr ⟨by decide, by decide⟩)⟩

end Soveroot.Sync
