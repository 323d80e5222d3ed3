import Soveroot.Sync.Delivery
import Soveroot.Sync.Observe
import Soveroot.Sync.Reload

/-!
# The shares of a running node

`Sound` is what holds of the shares a node has, at every point of every run: what `Held` says, no
orphan is too old, and no orphan has an accepted parent. In memory accepted shares are never
removed; a process that dies loses those it could not write. When every write succeeds there are
none of these between actions (`Step.accepted_prefix`).
-/

namespace Soveroot.Sync

open Py Check Journal List

variable {sha256 : HashFn} {cfg : Config} {D : Dialect}

/-- What holds of the shares of a node at all times. -/
structure Sound (sha256 : HashFn) (cfg : Config) (st : NodeState) : Prop where
  held : Held sha256 cfg st
  settled : Settled st
  age_le : ∀ o ∈ st.orphans, st.tick ≤ o.arrivalTick + maxOrphanAgeTicks

theorem settled_emptyState : Settled emptyState := fun _ ho => absurd ho not_mem_nil

theorem sound_emptyState : Sound sha256 cfg emptyState where
  held := held_emptyState
  settled := settled_emptyState
  age_le _ ho := absurd ho not_mem_nil

variable {st st' : NodeState}

theorem Sound.congr (h : Sound sha256 cfg st) (haccepted : st'.acceptedShares = st.acceptedShares)
    (horphans : st'.orphans = st.orphans) (htick : st'.tick = st.tick) : Sound sha256 cfg st' where
  held := h.held.of_sublist haccepted (horphans ▸ Sublist.refl _) htick.ge
  settled := by
    rw [Settled, NodeState.acceptedIds, horphans, haccepted]
    exact h.settled
  age_le := by
    rw [horphans, htick]
    exact h.age_le

/-! ## Ages -/

theorem pruneOrphans_age_le (st : NodeState) :
    ∀ o ∈ (pruneOrphans st).2.orphans,
      (pruneOrphans st).2.tick ≤ o.arrivalTick + maxOrphanAgeTicks := by
  intro o ho
  exact of_decide_eq_true (mem_filter.1 ho).2

theorem Change.orphans (h : Change sha256 cfg st st') :
    ∀ o ∈ st'.orphans, o ∈ st.orphans ∨ o.arrivalTick = st.tick := by
  intro o ho
  cases h with
  | refuse h => exact .inl ho
  | keep hv hf hp hlt =>
    rcases mem_append.1 ho with ho | ho
    · exact .inl ho
    · rw [mem_singleton.1 ho]
      exact .inr rfl
  | accept hf hp hg => exact .inl ho
  | orphan h =>
    cases h with
    | promote => exact .inl (mem_of_mem_erase ho)
    | drop => exact .inl (mem_of_mem_erase ho)

theorem Changes.age_le (h : Changes sha256 cfg st st')
    (hage : ∀ o ∈ st.orphans, st.tick ≤ o.arrivalTick + maxOrphanAgeTicks) :
    ∀ o ∈ st'.orphans, st'.tick ≤ o.arrivalTick + maxOrphanAgeTicks := by
  induction h with
  | refl => exact hage
  | tail _ hstep ih =>
    intro o ho
    rw [hstep.frame.tick]
    rcases hstep.orphans o ho with ho | harrival
    · exact ih o ho
    · omega

/-! ## What a move keeps -/

theorem Sound.pass (h : Sound sha256 cfg st) (n : Nat) : Sound sha256 cfg (st.pass n).2 where
  held := h.held.pass n
  settled o ho := h.settled o (mem_of_mem_filter ho)
  age_le := pruneOrphans_age_le _

variable {shares : Json} {summary : Summary}

theorem importShares_eq_ok (h : importShares sha256 cfg st shares = .ok (summary, st')) :
    ∃ l, shares = .arr l ∧ l.length ≤ maxSharesPerMessage ∧ summary.total = l.length ∧
      Changes sha256 cfg (st.pass 1).2 st' ∧ Settled st' := by
  simp only [importShares, bind_eq_ok, orRaise_eq_ok, Option.filter_eq_some_iff,
    Json.asArr_eq_some, decide_eq_true_eq] at h
  obtain ⟨l, ⟨rfl, hlen⟩, h⟩ := h
  obtain ⟨summary', st₁, hok, hchanges, hsettled, htotal⟩ := importBatch_spec sha256 cfg st l
  obtain ⟨rfl, rfl⟩ := Prod.mk.inj (Except.ok.inj (h.symm.trans hok))
  exact ⟨l, rfl, hlen, htotal, hchanges, hsettled⟩

theorem Sound.imported (h : Sound sha256 cfg st)
    (himport : importShares sha256 cfg st shares = .ok (summary, st')) : Sound sha256 cfg st' := by
  obtain ⟨l, -, -, -, hchanges, hsettled⟩ := importShares_eq_ok himport
  exact ⟨(h.held.pass 1).changes hchanges, hsettled, hchanges.age_le (h.pass 1).age_le⟩

variable {T : Json → Prop} {n m : Process} {l : Label}

theorem Sound.move (h : Sound sha256 cfg n.mem) (hm : Move sha256 cfg D T n l m) :
    Sound sha256 cfg m.mem := by
  cases hm with
  | hear => exact h.congr rfl rfl rfl
  | process => exact h.congr rfl rfl rfl
  | pass ticks => exact h.pass ticks
  | observe he hobserve =>
    have hframe := D.observe_frame _ _ _ hobserve
    exact h.congr hframe.acceptedShares hframe.orphans hframe.tick
  | importUnsaved himport => exact h.imported himport
  | importSaved himport => exact h.imported himport
  | next => exact h.congr rfl rfl rfl
  | sign => exact h
  | save => exact h

theorem Reachable.sound {ok : StepCondition} (h : Reachable sha256 cfg D ok n) :
    Sound sha256 cfg n.mem ∧ ∀ st, .saved st ∈ n.log → Sound sha256 cfg st :=
  Reachable.states sound_emptyState (fun _ _ _ hm hn => hn.move hm) h

/-! ## Accepted shares stay -/

theorem Move.accepted_prefix (h : Move sha256 cfg D T n l m) :
    n.mem.acceptedShares <+: m.mem.acceptedShares := by
  have himport : ∀ {shares summary st}, importShares sha256 cfg n.mem shares = .ok (summary, st) →
      n.mem.acceptedShares <+: st.acceptedShares := by
    intro shares summary st h
    obtain ⟨l, -, -, -, hchanges, -⟩ := importShares_eq_ok h
    exact hchanges.frame.acceptedShares
  cases h with
  | observe he hobserve => rw [(D.observe_frame _ _ _ hobserve).acceptedShares]
  | importUnsaved h => exact himport h
  | importSaved h => exact himport h
  | hear | process | pass | next | sign | save => exact prefix_refl _

variable {ls : List Label}

/-- The moves of an action neither remove an accepted share nor write a state without it. -/
theorem accepted_prefix_of_moves (h : Moves (Move sha256 cfg D T) n ls m) :
    n.mem.acceptedShares <+: m.mem.acceptedShares ∧
      ∃ added, m.log = n.log ++ added ∧
        ∀ st, .saved st ∈ added → n.mem.acceptedShares <+: st.acceptedShares := by
  induction h with
  | refl =>
    exact ⟨prefix_refl _, [], (append_nil _).symm, fun _ h => absurd h not_mem_nil⟩
  | tail _ hm ih =>
    obtain ⟨hgrows, added, hlog, hadded⟩ := ih
    obtain ⟨added', hlog', hadded'⟩ := hm.exists_append
    have hgrows' := hgrows.trans hm.accepted_prefix
    refine ⟨hgrows', added ++ added', by rw [hlog', hlog, append_assoc], fun st hst => ?_⟩
    rcases mem_append.1 hst with hst | hst
    · exact hadded st hst
    · exact hadded' st hst ▸ hgrows'

def Written (n : Process) : Prop :=
  (durable emptyState n.log).acceptedShares = n.mem.acceptedShares

theorem Move.written (h : Move sha256 cfg D T n l m) (hl : l ≠ .unsaved) (hn : Written n) :
    Written m := by
  cases h with
  | observe he hobserve =>
    rw [Written, (D.observe_frame _ _ _ hobserve).acceptedShares]
    exact hn
  | importUnsaved => exact absurd rfl hl
  | sign => simpa [Written] using hn
  | process => simp [Written, durable, disk]
  | importSaved | save => simp [Written]
  | hear | pass | next => exact hn

theorem written_of_moves (h : Moves (Move sha256 cfg D T) n ls m) (hls : .unsaved ∉ ls)
    (hn : Written n) : Written m := by
  induction h with
  | refl => exact hn
  | tail _ hm ih =>
    rw [mem_append, not_or, mem_singleton] at hls
    exact hm.written (Ne.symm hls.2) (ih hls.1)

def EveryWriteSucceeds : StepCondition := fun _ _ saves _ => false ∉ saves

/-- When every write succeeds, a step removes no accepted share. -/
theorem Step.accepted_prefix (h : Step sha256 cfg D EveryWriteSucceeds n m) (hn : Written n) :
    n.mem.acceptedShares <+: m.mem.acceptedShares ∧ Written m := by
  cases h with
  | @act a saves replies hok =>
    obtain ⟨ls, hmoves, hunsaved⟩ := exec_moves_any sha256 cfg D a n saves replies
    exact ⟨(accepted_prefix_of_moves hmoves).1,
      written_of_moves hmoves (fun hmem => hok (hunsaved hmem)) hn⟩
  | @crash a saves replies log st hok hlog hlog' hload =>
    obtain ⟨ls, hmoves, -⟩ := exec_moves_any sha256 cfg D a n saves replies
    obtain ⟨-, added, hadded, hgrows⟩ := accepted_prefix_of_moves hmoves
    obtain ⟨kept, rfl⟩ := hlog
    rw [hadded, prefix_append_right_inj] at hlog'
    obtain rfl := reload_eq_ok hload
    refine ⟨?_, rfl⟩
    rcases durable_append emptyState n.log kept with hsame | hs
    · rw [hsame, hn]
    · exact hgrows _ (hlog'.subset hs)

/-- When every write succeeds, no run removes an accepted share. -/
theorem Run.accepted_prefix (hn : Reachable sha256 cfg D EveryWriteSucceeds n)
    (h : Run sha256 cfg D EveryWriteSucceeds n m) :
    n.mem.acceptedShares <+: m.mem.acceptedShares := by
  have hwritten : ∀ {n}, Reachable sha256 cfg D EveryWriteSucceeds n → Written n := by
    intro n hn
    induction hn with
    | refl => rfl
    | tail _ hstep ih => exact (hstep.accepted_prefix ih).2
  induction h with
  | refl => exact prefix_refl _
  | tail hrun hstep ih =>
    exact ih.trans (hstep.accepted_prefix (hwritten (hn.trans hrun))).1

/-! ## The invariant -/

/-- What is promised of the shares in a state. -/
structure ShareInvariant (sha256 : HashFn) (cfg : Config) (st : NodeState) : Prop where
  /-- Both validators accept the accepted shares, with the same state. -/
  validators : st.acceptedShares = [] ∨ ∃ graph,
    evaluateGraph sha256 (.arr (documents st.acceptedShares)) cfg.rounds = .ok graph ∧
      Independent.selectState sha256 (.arr (documents st.acceptedShares)) cfg.rounds = .ok graph
  shareIds : (st.known.map Share.shareId).Nodup
  workIds : (st.known.map Share.workId).Nodup
  known_le : st.known.length ≤ 4096
  orphans_le : st.orphans.length ≤ 16
  arrival_le : ∀ o ∈ st.orphans, o.arrivalTick ≤ st.tick
  age_le : ∀ o ∈ st.orphans, st.tick ≤ o.arrivalTick + maxOrphanAgeTicks

theorem Sound.invariant (h : Sound sha256 cfg st) : ShareInvariant sha256 cfg st where
  validators := by
    refine h.held.graph.imp_right fun hg => ?_
    obtain ⟨graph, heval⟩ := evaluateGraph_documents.2 hg
    rcases (selectState_same sha256 (.arr (documents st.acceptedShares)) cfg.rounds).cases with
      ⟨graph', _, hx, hy, rfl⟩ | ⟨_, _, hx, -, -⟩
    · exact ⟨graph', hx, hy⟩
    · rw [heval] at hx
      cases hx
  shareIds := h.held.distinct.1
  workIds := h.held.distinct.2
  known_le := h.held.known_le
  orphans_le := h.held.orphans_le
  arrival_le := h.held.arrival_le
  age_le := h.age_le

/-- **The invariant of share synchronisation.** It holds in memory and of all that was ever
written, on every run. No action removes an accepted share, and neither does a run whose writes
succeed, wherever the process dies. An import that returns leaves no orphan with an accepted parent,
and its summary counts every share of the batch once. -/
theorem shares_invariant {ok : StepCondition} {n : Process}
    (h : Reachable sha256 cfg D ok n) :
    ShareInvariant sha256 cfg n.mem ∧
    (∀ st, .saved st ∈ n.log → ShareInvariant sha256 cfg st) ∧
    (∀ a saves replies, n.mem.acceptedShares <+:
      (Action.exec sha256 cfg D a n saves replies).mem.acceptedShares) ∧
    (Reachable sha256 cfg D EveryWriteSucceeds n → ∀ m,
      Run sha256 cfg D EveryWriteSucceeds n m →
        n.mem.acceptedShares <+: m.mem.acceptedShares) ∧
    (∀ st, ∀ o ∈ (pruneOrphans st).2.orphans,
      (pruneOrphans st).2.tick ≤ o.arrivalTick + maxOrphanAgeTicks) ∧
    (∀ st, ∃ promoted st', promoteOrphans sha256 cfg st = .ok (promoted, st')) ∧
    (∀ st shares summary st', importShares sha256 cfg st shares = .ok (summary, st') →
      (∀ o ∈ st'.orphans, o.share.previousShareId ≠ zeroId ∧
        o.share.previousShareId ∉ st'.acceptedIds) ∧
      ∃ l, shares = .arr l ∧ summary.accepted + summary.orphaned + summary.duplicates +
        summary.rejected = l.length) := by
  have hsound := Reachable.sound h
  refine ⟨hsound.1.invariant, fun st hst => (hsound.2 st hst).invariant, ?_,
    fun hn m hm => Run.accepted_prefix hn hm, pruneOrphans_age_le, ?_, ?_⟩
  · intro a saves replies
    obtain ⟨ls, hmoves, -⟩ := exec_moves_any sha256 cfg D a n saves replies
    exact (accepted_prefix_of_moves hmoves).1
  · intro st
    obtain ⟨promoted, st', hok, -⟩ := promoteOrphans_spec sha256 cfg st
    exact ⟨promoted, st', hok⟩
  · intro st shares summary st' himport
    obtain ⟨l, rfl, -, htotal, -, hsettled⟩ := importShares_eq_ok himport
    refine ⟨fun o ho => ?_, l, rfl, htotal⟩
    have hwait := hsettled o ho
    rw [← Bool.not_eq_true, parentKnown_iff, not_or] at hwait
    exact hwait

/-! ## What nodes select -/

/-- A sound node reports, and what it reports as selected is what the validators select. -/
theorem Sound.stateView (h : Sound sha256 cfg st) : ∃ view, stateView sha256 cfg st = .ok view ∧
    view.stateCommitment = commitmentOf sha256 view.selectedState ∧
    (st.acceptedShares = [] ∧ view.selectedState = none ∨
      st.acceptedShares ≠ [] ∧ ∃ graph, view.selectedState = some graph ∧
        evaluateGraph sha256 (.arr (documents st.acceptedShares)) cfg.rounds = .ok graph) := by
  by_cases hnil : st.acceptedShares = []
  · simp [Sync.stateView, validateGraphPair, documents, hnil]
  · obtain ⟨graph, heval, hselect⟩ := h.invariant.validators.resolve_left hnil
    have hne : (documents st.acceptedShares).isEmpty = false := by simpa [documents] using hnil
    simp [Sync.stateView, validateGraphPair, hnil, hne, heval, hselect]

/-- **Selections improve.** On every run whose writes succeed, wherever the process dies, what a
node reports as selected is only ever replaced by more work, or by as much work and a tip that is
not above. -/
theorem selection_improves {n m : Process} (hn : Reachable sha256 cfg D EveryWriteSucceeds n)
    (hm : Run sha256 cfg D EveryWriteSucceeds n m) :
    ∃ view view', stateView sha256 cfg n.mem = .ok view ∧ stateView sha256 cfg m.mem = .ok view' ∧
      ∀ graph, view.selectedState = some graph → ∃ graph', view'.selectedState = some graph' ∧
        (graph.selectedCumulativeWork < graph'.selectedCumulativeWork ∨
          graph.selectedCumulativeWork = graph'.selectedCumulativeWork ∧
            graph'.selectedTipShareId ≤ graph.selectedTipShareId) := by
  obtain ⟨view, hview, -, hselected⟩ := (Reachable.sound hn).1.stateView
  obtain ⟨view', hview', -, hselected'⟩ := (Reachable.sound (hn.trans hm)).1.stateView
  have hprefix := Run.accepted_prefix hn hm
  refine ⟨view, view', hview, hview', fun graph hgraph => ?_⟩
  obtain ⟨-, hnone⟩ | ⟨hne, _, hsome, heval⟩ := hselected
  · rw [hgraph] at hnone
    cases hnone
  obtain rfl := Option.some.inj (hgraph.symm.trans hsome)
  obtain ⟨hnil, -⟩ | ⟨-, graph', hgraph', heval'⟩ := hselected'
  · rw [hnil, prefix_nil] at hprefix
    exact absurd hprefix hne
  · exact ⟨graph', hgraph', evaluateGraph_mono (map_subset _ hprefix.subset) heval heval'⟩

/-- **Agreement.** Nodes that have accepted the same shares, on whatever runs and in whatever order,
report the same selected state and commit to it alike. -/
theorem selections_agree {cfg' : Config} {D' : Dialect} {ok ok' : StepCondition} {n m : Process}
    (hn : Reachable sha256 cfg D ok n) (hm : Reachable sha256 cfg' D' ok' m)
    (hrounds : cfg.rounds = cfg'.rounds) (hperm : n.mem.acceptedShares.Perm m.mem.acceptedShares) :
    ∃ view view', stateView sha256 cfg n.mem = .ok view ∧ stateView sha256 cfg' m.mem = .ok view' ∧
      view.selectedState = view'.selectedState ∧ view.stateCommitment = view'.stateCommitment := by
  obtain ⟨view, hview, hcommitment, hselected⟩ := (Reachable.sound hn).1.stateView
  obtain ⟨view', hview', hcommitment', hselected'⟩ := (Reachable.sound hm).1.stateView
  suffices hsame : view.selectedState = view'.selectedState from
    ⟨view, view', hview, hview', hsame, by rw [hcommitment, hcommitment', hsame]⟩
  obtain ⟨hnil, hnone⟩ | ⟨hne, graph, hgraph, heval⟩ := hselected
  · obtain ⟨-, hnone'⟩ | ⟨hne', -⟩ := hselected'
    · rw [hnone, hnone']
    · exact absurd (nil_perm.1 (hnil ▸ hperm)) hne'
  · obtain ⟨hnil', -⟩ | ⟨-, graph', hgraph', heval'⟩ := hselected'
    · exact absurd (perm_nil.1 (hnil' ▸ hperm)) hne
    · have hsame := evaluateGraph_of_perm (hperm.map Share.toJson) heval
      rw [hgraph, hgraph', Except.ok.inj (hsame.symm.trans (hrounds ▸ heval'))]

/-! ## An example -/

namespace Sample

open Soveroot.Sample

/-- A node of the labnet. No float occurs in the examples, so any value will do for a sum. -/
def dialect : Dialect := labnet Sha256.sha256 fun a _ => pure a

theorem graphOk_branch {l : List Share}
    (hl : l ∈ [[], [child], [copy], [child, copy], [copy, child]]) :
    GraphOk Sha256.sha256 config (root :: l) := by
  have hmem : ∀ s ∈ root :: l, s = root ∨ s = child ∨ s = copy := by
    revert l
    decide +kernel
  have hroot : root.IsRoot := by decide +kernel
  refine ⟨fun s hs => ?_, ⟨?_, ?_⟩, ⟨?_, fun s hs => ?_⟩, ?_⟩
  · rcases hmem s hs with rfl | rfl | rfl
    · exact (validateShare_eq_ok.1 validateShare_root).2
    · exact (validateShare_eq_ok.1 validateShare_child).2
    · exact (validateShare_eq_ok.1 validateShare_copy).2
  · revert l
    decide +kernel
  · revert l
    decide +kernel
  · revert l
    decide +kernel
  · rcases hmem s hs with rfl | rfl | rfl
    · exact .inl hroot
    · exact .inr ⟨root, mem_cons_self, rfl, rfl, by unfold Transition; decide +kernel⟩
    · exact .inr ⟨root, mem_cons_self, rfl, rfl, by unfold Transition; decide +kernel⟩
  · revert l
    decide +kernel

def rooted : NodeState := (emptyState.pass 1).2.accept root

/-- The node after a share has been imported and accepted. -/
def imported (n : Process) (s : Share) : Process :=
  ⟨(n.mem.pass 1).2.accept s, n.log ++ [.saved ((n.mem.pass 1).2.accept s)]⟩

theorem run_imported {ok : StepCondition} {n : Process} {s : Share}
    (hv : validateShare Sha256.sha256 s.toJson config.roundIndex = .ok s)
    (ho : n.mem.orphans = []) (hf : Fresh (n.mem.pass 1).2 s)
    (hp : parentKnown n.mem.acceptedIds s = true)
    (hg : GraphOk Sha256.sha256 config (n.mem.acceptedShares ++ [s]))
    (hok : ok n (.importShares (.arr [s.toJson])) [] []) :
    Run Sha256.sha256 config dialect ok n (imported n s) := by
  have hsettled : Settled n.mem := fun _ hmem => absurd (ho ▸ hmem) not_mem_nil
  obtain ⟨summary, st, himport, hsingle⟩ := importShares_single hv hsettled
  cases hsingle with
  | accept _ _ _ hsteps =>
    have hsettled' : Settled ((n.mem.pass 1).2.accept s) := fun _ hmem =>
      absurd (ho ▸ mem_of_mem_filter hmem) not_mem_nil
    obtain rfl := hsettled'.orphanSteps_eq hsteps
    exact Run.tail_importShares .refl hok himport
  | keep _ hp' => exact absurd hp (Bool.eq_false_iff.1 hp')
  | refuse _ hrefused =>
    rcases hrefused hf with ⟨-, hg'⟩ | ⟨hp', -⟩
    · exact absurd hg hg'
    · exact absurd hp (Bool.eq_false_iff.1 hp')

def rootedNode : Process := ⟨rooted, [.saved rooted]⟩

theorem reachable_rootedNode {ok : StepCondition}
    (hok : ok start (.importShares (.arr [root.toJson])) [] []) :
    Reachable Sha256.sha256 config dialect ok rootedNode :=
  run_imported validateShare_root rfl ⟨not_mem_nil, not_mem_nil, by decide⟩ (by decide +kernel)
    (graphOk_branch mem_cons_self) hok

end Sample

open Sync.Sample Soveroot.Sample

/-- A node that has imported one share, and what it may come to. -/
theorem shares_invariant_rootedNode :
    rootedNode.mem.acceptedShares = [root] ∧
      ShareInvariant Sha256.sha256 config rootedNode.mem ∧
      ∀ m, Run Sha256.sha256 config dialect EveryWriteSucceeds rootedNode m →
        [root] <+: m.mem.acceptedShares := by
  have h : Reachable Sha256.sha256 config dialect EveryWriteSucceeds
      rootedNode := reachable_rootedNode not_mem_nil
  obtain ⟨hmem, -, -, hkept, -⟩ := shares_invariant h
  exact ⟨rfl, hmem, hkept h⟩

namespace Sample

theorem run_child : Run Sha256.sha256 config dialect EveryWriteSucceeds rootedNode
    (imported rootedNode child) :=
  run_imported validateShare_child rfl
    ⟨by decide +kernel, by decide +kernel, by decide⟩ (by decide +kernel)
    (graphOk_branch (by simp)) not_mem_nil

theorem run_copy : Run Sha256.sha256 config dialect EveryWriteSucceeds rootedNode
    (imported rootedNode copy) :=
  run_imported validateShare_copy rfl
    ⟨by decide +kernel, by decide +kernel, by decide⟩ (by decide +kernel)
    (graphOk_branch (by simp)) not_mem_nil

theorem run_child_copy : Run Sha256.sha256 config dialect EveryWriteSucceeds
    (imported rootedNode child) (imported (imported rootedNode child) copy) :=
  run_imported validateShare_copy rfl
    ⟨by decide +kernel, by decide +kernel, by decide⟩ (by decide +kernel)
    (graphOk_branch (by simp)) not_mem_nil

theorem run_copy_child : Run Sha256.sha256 config dialect EveryWriteSucceeds
    (imported rootedNode copy) (imported (imported rootedNode copy) child) :=
  run_imported validateShare_child rfl
    ⟨by decide +kernel, by decide +kernel, by decide⟩ (by decide +kernel)
    (graphOk_branch (by simp)) not_mem_nil

end Sample

theorem selection_improves_child :
    (imported rootedNode child).mem.acceptedShares = [root, child] ∧
    ∃ view view', stateView Sha256.sha256 config rootedNode.mem = .ok view ∧
      stateView Sha256.sha256 config (imported rootedNode child).mem = .ok view' ∧
      ∀ graph, view.selectedState = some graph → ∃ graph', view'.selectedState = some graph' ∧
        (graph.selectedCumulativeWork < graph'.selectedCumulativeWork ∨
          graph.selectedCumulativeWork = graph'.selectedCumulativeWork ∧
            graph'.selectedTipShareId ≤ graph.selectedTipShareId) :=
  ⟨rfl, selection_improves (reachable_rootedNode not_mem_nil) run_child⟩

theorem selections_agree_siblings :
    (imported (imported rootedNode child) copy).mem.acceptedShares = [root, child, copy] ∧
    (imported (imported rootedNode copy) child).mem.acceptedShares = [root, copy, child] ∧
    ∃ view view',
      stateView Sha256.sha256 config (imported (imported rootedNode child) copy).mem = .ok view ∧
      stateView Sha256.sha256 config (imported (imported rootedNode copy) child).mem = .ok view' ∧
      view.selectedState = view'.selectedState ∧
      view.stateCommitment = view'.stateCommitment := by
  have h : Reachable Sha256.sha256 config dialect EveryWriteSucceeds rootedNode :=
    reachable_rootedNode not_mem_nil
  exact ⟨rfl, rfl, selections_agree ((h.trans run_child).trans run_child_copy)
    ((h.trans run_copy).trans run_copy_child) rfl (.cons root (.swap copy child []))⟩

end Soveroot.Sync
