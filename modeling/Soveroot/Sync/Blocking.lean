import Soveroot.Sync.Invariant

/-!
# Shares that orphans keep out

`_import_one` compares the proof of a share with those of all known shares, orphans included, and an
orphan has been validated without its parent. So an orphan may carry the proof of a share that is
still to come, under another parent and another payout script, and until the orphan leaves, the
share is refused (`importShares_accepts_iff`). The loader asks the same of a state file: it refuses
one in which two known shares have one proof.
-/

namespace Soveroot.Sync

open Py Check Journal List

variable {sha256 : HashFn} {cfg : Config} {D : Dialect} {st : NodeState} {value : Json}
  {s : Share}

/-! ## Shares that extend the graph -/

/-- The orphans that are left after the next prune. -/
def NodeState.Waiting (st : NodeState) (o : Orphan) : Prop :=
  o ∈ st.orphans ∧ st.tick + 1 ≤ o.arrivalTick + maxOrphanAgeTicks

theorem mem_orphans_pass {o : Orphan} : o ∈ (st.pass 1).2.orphans ↔ st.Waiting o := by
  simp [NodeState.pass, pruneOrphans, NodeState.Waiting]

/-- A share that extends the graph is fresh when no waiting orphan has one of its identifiers. -/
theorem fresh_pass_iff (hg : GraphOk sha256 cfg (st.acceptedShares ++ [s]))
    (hroom : st.known.length < maxKnownShares) :
    Fresh (st.pass 1).2 s ↔ ∀ o, st.Waiting o →
      o.share.shareId ≠ s.shareId ∧ o.share.workId ≠ s.workId := by
  have hmem : ∀ t, t ∈ (st.pass 1).2.known ↔
      t ∈ st.acceptedShares ∨ ∃ o, st.Waiting o ∧ o.share = t := by
    intro t
    rw [NodeState.known, mem_append, mem_map]
    simp only [mem_orphans_pass]
    rfl
  obtain ⟨-, hid, hwork⟩ := distinct_append_singleton.1 hg.distinct
  constructor
  · intro hf o ho
    have hknown := (hmem o.share).2 (.inr ⟨o, ho, rfl⟩)
    exact ⟨fun heq => hf.shareId (heq ▸ mem_map_of_mem hknown),
      fun heq => hf.workId (heq ▸ mem_map_of_mem hknown)⟩
  · intro hfree
    refine ⟨fun hin => ?_, fun hin => ?_, ?_⟩
    · obtain ⟨t, ht, heq⟩ := mem_map.1 hin
      rcases (hmem t).1 ht with ht | ⟨o, ho, rfl⟩
      · exact hid (heq ▸ mem_map_of_mem ht)
      · exact (hfree o ho).1 heq
    · obtain ⟨t, ht, heq⟩ := mem_map.1 hin
      rcases (hmem t).1 ht with ht | ⟨o, ho, rfl⟩
      · exact hwork (heq ▸ mem_map_of_mem ht)
      · exact (hfree o ho).2 heq
    · refine lt_of_le_of_lt (Sublist.length_le ?_) hroom
      exact (filter_sublist.map _).append_left _

theorem Sound.accepts_iff (h : Sound sha256 cfg st)
    (hv : validateShare sha256 value cfg.roundIndex = .ok s)
    (hp : parentKnown st.acceptedIds s = true)
    (hg : GraphOk sha256 cfg (st.acceptedShares ++ [s]))
    (hroom : st.known.length < maxKnownShares) :
    ∃ summary st', importShares sha256 cfg st (.arr [value]) = .ok (summary, st') ∧
      (s ∈ st'.acceptedShares ↔ ∀ o, st.Waiting o →
        o.share.shareId ≠ s.shareId ∧ o.share.workId ≠ s.workId) := by
  obtain ⟨summary, st', himport, hsingle⟩ := importShares_single hv h.settled
  refine ⟨summary, st', himport, ?_⟩
  rw [← fresh_pass_iff hg hroom]
  cases hsingle with
  | accept hf hp' hg' hsteps =>
    refine iff_of_true (hsteps.changes.frame.acceptedShares.subset ?_) hf
    exact mem_append_right _ mem_cons_self
  | keep hf hp' hlt =>
    rw [show parentKnown (st.pass 1).2.acceptedIds s = true from hp] at hp'
    cases hp'
  | refuse haccepted hrefused =>
    refine iff_of_false ?_ fun hf => ?_
    · rw [haccepted]
      intro hmem
      exact (distinct_append_singleton.1 hg.distinct).2.1 (mem_map_of_mem hmem)
    · rcases hrefused hf with ⟨-, hng⟩ | ⟨hp', -⟩
      · exact hng hg
      · rw [show parentKnown (st.pass 1).2.acceptedIds s = true from hp] at hp'
        cases hp'

theorem graphOk_of_validateGraphPair {l : List Share} (hne : l ≠ []) {graph : Option GraphState}
    (h : validateGraphPair sha256 cfg (documents l) = .ok graph) : GraphOk sha256 cfg l := by
  rcases validateGraphPair_cases sha256 cfg hne with ⟨hg, -⟩ | ⟨-, _, _, herror⟩
  · exact hg
  · rw [h] at herror
    cases herror

/-- **Orphans keep out what has their proof.** In any reachable node, a valid share whose parent is
accepted, for which the accepted shares with it pass both validators, and for which there is room,
is accepted exactly when no waiting orphan has its share id or its proof. -/
theorem importShares_accepts_iff {ok : StepCondition} {n : Process}
    (h : Reachable sha256 cfg D ok n)
    (hv : validateShare sha256 value cfg.roundIndex = .ok s)
    (hparent : s.previousShareId = zeroId ∨ s.previousShareId ∈ n.mem.acceptedIds)
    (hgraph : ∃ graph, validateGraphPair sha256 cfg
      (documents (n.mem.acceptedShares ++ [s])) = .ok graph)
    (hroom : n.mem.known.length < maxKnownShares) :
    ∃ summary st', importShares sha256 cfg n.mem (.arr [value]) = .ok (summary, st') ∧
      (s ∈ st'.acceptedShares ↔ ∀ o ∈ n.mem.orphans,
        n.mem.tick + 1 ≤ o.arrivalTick + maxOrphanAgeTicks →
          o.share.shareId ≠ s.shareId ∧ o.share.workId ≠ s.workId) := by
  obtain ⟨graph, hgraph⟩ := hgraph
  have hg := graphOk_of_validateGraphPair (by simp) hgraph
  obtain ⟨summary, st', himport, hiff⟩ :=
    (Reachable.sound h).1.accepts_iff hv (parentKnown_iff.2 hparent) hg hroom
  exact ⟨summary, st', himport, hiff.trans ⟨fun hfree o ho hyoung => hfree o ⟨ho, hyoung⟩,
    fun hfree o ho => hfree o ho.1 ho.2⟩⟩

/-! ## An example -/

namespace Sample

open Soveroot.Sample

/-- The proof of `child` under a parent nobody has seen, with another payout script. -/
def blocker : Share :=
  { child with
    previousShareId := replicate 64 102
    payoutScriptHex := ascii "53"
    shareId := formatHex 64 0x9fa1c426aae1281489d9bd99669970aa051d9fd28f486bd284122e9afd25ba6d }

theorem validateShare_blocker :
    validateShare Sha256.sha256 blocker.toJson config.roundIndex = .ok blocker := by
  decide +kernel

theorem graphOk_root_child : GraphOk Sha256.sha256 config [root, child] :=
  evaluateGraph_documents.1 ⟨_, evaluateGraph_root_child⟩

def blocked : NodeState := (rooted.pass 1).2.keep blocker

def blockedNode : Process := ⟨blocked, [.saved rooted, .saved blocked]⟩

/-- The copied proof under a parent nobody has seen. -/
def stranger : Share :=
  { copy with
    previousShareId := replicate 64 102
    shareId := formatHex 64 0x29a0ced0a47eb6b88e9d5f9a0edfbd1bd42011fd42cbc2a2f91e98a369c553cf }

theorem validateShare_stranger :
    validateShare Sha256.sha256 stranger.toJson config.roundIndex = .ok stranger := by
  decide +kernel

/-- A node with the root and one orphan. -/
def waitingNode (o : Share) : Process :=
  ⟨(rooted.pass 1).2.keep o, [.saved rooted, .saved ((rooted.pass 1).2.keep o)]⟩

theorem reachable_waitingNode {o : Share}
    (hv : validateShare Sha256.sha256 o.toJson config.roundIndex = .ok o)
    (hf : Fresh (rooted.pass 1).2 o) (hp : parentKnown (rooted.pass 1).2.acceptedIds o = false) :
    Reachable Sha256.sha256 config dialect (fun _ _ _ _ => True) (waitingNode o) := by
  have hsettled : Settled rooted := fun _ ho => absurd ho not_mem_nil
  obtain ⟨summary, st, himport, hsingle⟩ := importShares_single hv hsettled
  cases hsingle with
  | accept _ hp' => exact absurd hp' (Bool.eq_false_iff.1 hp)
  | keep => exact Run.tail_importShares (reachable_rootedNode trivial) trivial himport
  | refuse _ hrefused =>
    rcases hrefused hf with ⟨hp', -⟩ | ⟨-, hfull⟩
    · exact absurd hp' (Bool.eq_false_iff.1 hp)
    · exact absurd hfull (by decide)

theorem reachable_blockedNode :
    Reachable Sha256.sha256 config dialect (fun _ _ _ _ => True) blockedNode :=
  reachable_waitingNode validateShare_blocker ⟨by decide +kernel, by decide +kernel, by decide⟩
    (by decide +kernel)

theorem reachable_waitingNode_stranger :
    Reachable Sha256.sha256 config dialect (fun _ _ _ _ => True) (waitingNode stranger) :=
  reachable_waitingNode validateShare_stranger ⟨by decide +kernel, by decide +kernel, by decide⟩
    (by decide +kernel)

end Sample

open Sync.Sample Soveroot.Sample

/-- The child extends the accepted graph of `blockedNode`, and the orphan keeps it out. -/
theorem importShares_child_refused :
    Reachable Sha256.sha256 config dialect (fun _ _ _ _ => True)
        blockedNode ∧
      validateShare Sha256.sha256 child.toJson config.roundIndex =
        .ok child ∧
      child.previousShareId ∈ blocked.acceptedIds ∧
      (∃ graph, validateGraphPair Sha256.sha256 config
        (documents (blocked.acceptedShares ++ [child])) = .ok graph) ∧
      blocked.known.length < maxKnownShares ∧
      ∃ summary st, importShares Sha256.sha256 config blocked
          (.arr [child.toJson]) = .ok (summary, st) ∧
        child ∉ st.acceptedShares := by
  have hparent : child.previousShareId ∈ blocked.acceptedIds :=
    mem_singleton.2 rfl
  have hroom : blocked.known.length < maxKnownShares := by decide
  refine ⟨reachable_blockedNode, validateShare_child, hparent,
    validateGraphPair_isOk (.inr graphOk_root_child), hroom, ?_⟩
  obtain ⟨summary, st, himport, hiff⟩ :=
    (Reachable.sound reachable_blockedNode).1.accepts_iff
      validateShare_child (parentKnown_iff.2 (.inr hparent))
      graphOk_root_child hroom
  refine ⟨summary, st, himport, fun hmem => ?_⟩
  exact (hiff.1 hmem ⟨blocker, 2⟩ ⟨mem_singleton.2 rfl, by decide⟩).2 rfl

/-- An orphan with another proof does not keep the child out. -/
theorem importShares_child_accepted :
    ∃ summary st, importShares Sha256.sha256 config (waitingNode stranger).mem
        (.arr [child.toJson]) = .ok (summary, st) ∧
      child ∈ st.acceptedShares := by
  obtain ⟨summary, st, himport, hiff⟩ := importShares_accepts_iff reachable_waitingNode_stranger
    validateShare_child (.inr (mem_singleton.2 rfl))
    (validateGraphPair_isOk (.inr graphOk_root_child)) (by decide)
  refine ⟨summary, st, himport, hiff.2 fun o ho _ => ?_⟩
  obtain rfl := mem_singleton.1 ho
  exact ⟨by decide +kernel, by decide +kernel⟩

end Soveroot.Sync
