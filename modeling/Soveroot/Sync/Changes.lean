import Mathlib.Logic.Relation
import Soveroot.Sync.Import

/-!
# The changes a node makes to its shares

`GraphOk` says which lists of shares the two validators accept. Everything the node does to its
accepted shares and orphans between two prunes is a sequence of `Change`s: a refusal is counted, a
new share is kept or accepted, and an orphan whose parent has been accepted is promoted or dropped.

A pass over the orphans that promotes or drops nothing ends the loop, every other pass makes the
list of orphans shorter, and at its end no orphan has an accepted parent (`promoteOrphans_spec`).
-/

namespace Soveroot.Sync

open Py Check List

section

variable (sha256 : HashFn) (cfg : Config)

/-! ## What the validators accept -/

/-- A share graph within the limits of the validators. -/
structure GraphOk (l : List Share) : Prop where
  valid : ∀ s ∈ l, ValidShare sha256 cfg.roundIndex s
  distinct : Distinct l
  linked : Linked l
  length_le : l.length ≤ maxShares

variable {sha256 cfg} {l : List Share}

theorem validates_documents {l' : List Share} : Validates sha256 cfg.roundIndex (documents l) l' ↔
      l' = l ∧ ∀ s ∈ l, ValidShare sha256 cfg.roundIndex s := by
  constructor
  · intro h
    induction l generalizing l' with
    | nil => cases h; simp
    | cons s l ih =>
      cases h with
      | cons hs h =>
        obtain ⟨rfl, hv⟩ := validateShare_toJson.1 hs
        obtain ⟨rfl, hl⟩ := ih h
        exact ⟨rfl, forall_mem_cons.2 ⟨hv, hl⟩⟩
  · intro h
    obtain ⟨rfl, hv⟩ := h
    induction l' with
    | nil => exact .nil
    | cons s l ih =>
      rw [forall_mem_cons] at hv
      exact .cons (validateShare_toJson.2 ⟨rfl, hv.1⟩) (ih hv.2)

theorem evaluateGraph_documents :
    (∃ st, evaluateGraph sha256 (.arr (documents l)) cfg.rounds = .ok st) ↔
      GraphOk sha256 cfg l := by
  constructor
  · intro h
    obtain ⟨st, h⟩ := h
    obtain ⟨rounds, _, l', hrounds, heq, hmax, hv, hd, hl, -⟩ := evaluateGraph_eq_ok.1 h
    obtain rfl := Json.arr.inj heq
    obtain rfl := Except.ok.inj (hrounds.symm.trans cfg.validateRounds_rounds)
    obtain ⟨rfl, hvalid⟩ := validates_documents.1 hv
    exact ⟨hvalid, hd, hl, by simpa [documents] using hmax⟩
  · intro h
    have hv := validates_documents.2 ⟨rfl, h.valid⟩
    rw [evaluateGraph_of_validates cfg.validateRounds_rounds hv h.distinct h.linked.ne_nil
      h.length_le]
    rcases selectGraph_cases h.distinct with ⟨-, -, st, -, -, hok⟩ | ⟨hnl, -⟩
    · exact ⟨st, hok⟩
    · exact absurd h.linked hnl

variable (sha256 cfg) in
/-- The two validators never disagree, so the pair accepts what the reference accepts. -/
theorem validateGraphPair_cases (hne : l ≠ []) :
    (GraphOk sha256 cfg l ∧ ∃ st, validateGraphPair sha256 cfg (documents l) = .ok (some st) ∧
        evaluateGraph sha256 (.arr (documents l)) cfg.rounds = .ok st) ∨
      (¬ GraphOk sha256 cfg l ∧ ∃ reason detail,
        validateGraphPair sha256 cfg (documents l) = .error (.profileError reason detail)) := by
  have hempty : (documents l).isEmpty = false := by
    cases l with
    | nil => exact absurd rfl hne
    | cons s l => rfl
  rw [validateGraphPair, hempty, if_neg Bool.false_ne_true, ← evaluateGraph_documents]
  rcases (selectState_same sha256 (.arr (documents l)) cfg.rounds).cases with
    ⟨st, _, hx, hy, rfl⟩ | ⟨_, _, hx, hy, reason, detail, rfl, rfl⟩
  · left
    refine ⟨⟨st, hx⟩, st, ?_, hx⟩
    rw [hx, hy, ok_bind, ok_bind, require_of_pos rfl, ok_bind, pure_eq_ok]
  · right
    refine ⟨?_, reason, detail, ?_⟩
    · intro h
      obtain ⟨st, h⟩ := h
      rw [hx] at h
      cases h
    · rw [hx, error_bind]

theorem validateGraphPair_isOk (h : l = [] ∨ GraphOk sha256 cfg l) :
    ∃ st, validateGraphPair sha256 cfg (documents l) = .ok st := by
  rcases h with rfl | h
  · exact ⟨none, rfl⟩
  · rcases validateGraphPair_cases sha256 cfg h.linked.ne_nil with
      ⟨-, st, hst, -⟩ | ⟨hn, -⟩
    · exact ⟨some st, hst⟩
    · exact absurd h hn

/-! ## Changes -/

/-- The reasons a node counts. -/
inductive IsRejection : Text → Prop where
  | profile (reason : Reason) : IsRejection reason.text
  | shareCollision : IsRejection SyncReason.shareCollision.text
  | duplicateWorkIdentity : IsRejection SyncReason.duplicateWorkIdentity.text
  | knownShareLimit : IsRejection SyncReason.knownShareLimit.text
  | orphanLimit : IsRejection SyncReason.orphanLimit.text
  | expired : IsRejection (ascii "orphan_expired")

/-- Neither identifier of the share is known. -/
structure Fresh (st : NodeState) (s : Share) : Prop where
  shareId : s.shareId ∉ st.known.map Share.shareId
  workId : s.workId ∉ st.known.map Share.workId
  length_lt : st.known.length < maxKnownShares

namespace NodeState

/-- The share joins the accepted ones. -/
def accept (st : NodeState) (s : Share) : NodeState :=
  { st with acceptedShares := st.acceptedShares ++ [s] }

/-- The share waits for its parent. -/
def keep (st : NodeState) (s : Share) : NodeState :=
  { st with orphans := st.orphans ++ [⟨s, st.tick⟩] }

/-- The orphan leaves. -/
def release (st : NodeState) (o : Orphan) : NodeState :=
  { st with orphans := st.orphans.erase o }

end NodeState

variable (sha256 cfg)

/-- An orphan whose parent has been accepted is promoted or dropped. -/
inductive OrphanStep (st : NodeState) : NodeState → Prop where
  | promote {o : Orphan} (ho : o ∈ st.orphans) (hp : parentKnown st.acceptedIds o.share = true)
      (hg : GraphOk sha256 cfg (st.acceptedShares ++ [o.share])) :
      OrphanStep st ((st.accept o.share).release o)
  | drop {o : Orphan} (ho : o ∈ st.orphans) (hp : parentKnown st.acceptedIds o.share = true)
      (hg : ¬ GraphOk sha256 cfg (st.acceptedShares ++ [o.share])) (reason : Reason) :
      OrphanStep st (recordRejection (st.release o) reason.text)

/-- One change to what a node knows. -/
inductive Change (st : NodeState) : NodeState → Prop where
  | refuse {reason : Text} (h : IsRejection reason) : Change st (recordRejection st reason)
  | keep {s : Share} (hv : ValidShare sha256 cfg.roundIndex s) (hf : Fresh st s)
      (hp : parentKnown st.acceptedIds s = false) (hlt : st.orphans.length < maxOrphans) :
      Change st (st.keep s)
  | accept {s : Share} (hf : Fresh st s) (hp : parentKnown st.acceptedIds s = true)
      (hg : GraphOk sha256 cfg (st.acceptedShares ++ [s])) : Change st (st.accept s)
  | orphan {st' : NodeState} (h : OrphanStep sha256 cfg st st') : Change st st'

abbrev Changes : NodeState → NodeState → Prop := Relation.ReflTransGen (Change sha256 cfg)

abbrev OrphanSteps : NodeState → NodeState → Prop := Relation.ReflTransGen (OrphanStep sha256 cfg)

def Settled (st : NodeState) : Prop :=
  ∀ o ∈ st.orphans, parentKnown st.acceptedIds o.share = false

variable {sha256 cfg} {st st' : NodeState}

theorem OrphanSteps.changes (h : OrphanSteps sha256 cfg st st') : Changes sha256 cfg st st' :=
  Relation.ReflTransGen.mono (fun _ _ => Change.orphan) _ _ h

/-! ## What changes leave alone -/

/-- Only shares and counters differ, no accepted share is removed and no counter either. -/
structure Frame (st st' : NodeState) : Prop where
  tick : st'.tick = st.tick
  inboundSequences : st'.inboundSequences = st.inboundSequences
  outboundSequences : st'.outboundSequences = st.outboundSequences
  announcements : st'.announcements = st.announcements
  equivocations : st'.equivocations = st.equivocations
  acceptedShares : st.acceptedShares <+: st'.acceptedShares
  rejectionCounts : ∀ reason ∈ st.rejectionCounts.keys, reason ∈ st'.rejectionCounts.keys

namespace Frame

theorem refl (st : NodeState) : Frame st st :=
  ⟨rfl, rfl, rfl, rfl, rfl, prefix_refl _, fun _ h => h⟩

theorem trans {st st' st'' : NodeState} (h : Frame st st') (h' : Frame st' st'') :
    Frame st st'' where
  tick := h'.tick.trans h.tick
  inboundSequences := h'.inboundSequences.trans h.inboundSequences
  outboundSequences := h'.outboundSequences.trans h.outboundSequences
  announcements := h'.announcements.trans h.announcements
  equivocations := h'.equivocations.trans h.equivocations
  acceptedShares := h.acceptedShares.trans h'.acceptedShares
  rejectionCounts reason hr := h'.rejectionCounts reason (h.rejectionCounts reason hr)

section

variable (st : NodeState)

theorem recordRejection (reason : Text) : Frame st (recordRejection st reason) :=
  { refl st with rejectionCounts := fun _ h => Dict.mem_keys_set.2 (.inr h) }

theorem accept (s : Share) : Frame st (st.accept s) :=
  { refl st with acceptedShares := prefix_append _ _ }

theorem keep (s : Share) : Frame st (st.keep s) := { refl st with }

theorem release (o : Orphan) : Frame st (st.release o) := { refl st with }

end

theorem acceptedIds_subset {st st' : NodeState} (h : Frame st st') :
    ∀ id ∈ st.acceptedIds, id ∈ st'.acceptedIds := by
  intro id hid
  obtain ⟨s, hs, rfl⟩ := mem_map.1 hid
  exact mem_map_of_mem (h.acceptedShares.subset hs)

end Frame

theorem Change.frame (h : Change sha256 cfg st st') : Frame st st' := by
  cases h with
  | refuse h => exact .recordRejection st _
  | keep hv hf hp hlt => exact .keep st _
  | accept hf hp hg => exact .accept st _
  | orphan h =>
    cases h with
    | promote ho hp hg => exact (Frame.accept st _).trans (.release _ _)
    | drop ho hp hg reason => exact (Frame.release st _).trans (.recordRejection _ _)

theorem Changes.frame (h : Changes sha256 cfg st st') : Frame st st' := by
  induction h with
  | refl => exact .refl st
  | tail _ hstep ih => exact ih.trans hstep.frame

/-! ## The loop over the orphans -/

variable {ids : List Text} {s : Share}

theorem parentKnown_iff : parentKnown ids s = true ↔ s.IsRoot ∨ s.previousShareId ∈ ids := by
  simp [parentKnown, Share.IsRoot]

theorem parentKnown_mono {ids' : List Text} (h : ∀ id ∈ ids, id ∈ ids')
    (hp : parentKnown ids s = true) : parentKnown ids' s = true := by
  rw [parentKnown_iff] at hp ⊢
  exact hp.imp_right (h _)

variable {p : Promotion} {o : Orphan}

theorem promoteVisit_cases (ho : o ∈ p.state.orphans)
    (hids : ∀ id ∈ ids, id ∈ p.state.acceptedIds) :
    (parentKnown ids o.share = false ∧ promoteVisit sha256 cfg ids p o = .ok p) ∨
      ∃ st n, promoteVisit sha256 cfg ids p o = .ok ⟨st, n, true⟩ ∧
        OrphanStep sha256 cfg p.state st ∧ st.orphans = p.state.orphans.erase o := by
  rw [promoteVisit]
  by_cases hp : parentKnown ids o.share = true
  · right
    have hp' := parentKnown_mono hids hp
    rw [if_pos hp]
    rcases validateGraphPair_cases sha256 cfg
      (l := p.state.acceptedShares ++ [o.share]) (by simp) with
      ⟨hg, _, hok, -⟩ | ⟨hg, reason, detail, herror⟩
    · rw [hok]
      exact ⟨_, _, rfl, .promote ho hp' hg, rfl⟩
    · rw [herror]
      exact ⟨_, _, rfl, .drop ho hp' hg reason, rfl⟩
  · rw [if_neg hp]
    exact .inl ⟨Bool.eq_false_iff.2 hp, rfl⟩

/-- The invariant of a pass from `st`: the orphans still to be visited are still there, and as
long as nothing has happened those already visited wait for their parents. -/
structure Passing (sha256 : HashFn) (cfg : Config) (st : NodeState) (rest : List Orphan)
    (p : Promotion) : Prop where
  remaining : rest.Subperm p.state.orphans
  steps : OrphanSteps sha256 cfg st p.state
  cases : (p.progress = false ∧ p.state = st ∧
      ∀ o ∈ st.orphans, o ∈ rest ∨ parentKnown st.acceptedIds o.share = false) ∨
    (p.progress = true ∧ p.state.orphans.length < st.orphans.length)

theorem Passing.visit {rest : List Orphan} (h : Passing sha256 cfg st (o :: rest) p) :
    ∃ p', promoteVisit sha256 cfg st.acceptedIds p o = .ok p' ∧
      Passing sha256 cfg st rest p' := by
  have ho : o ∈ p.state.orphans := h.remaining.subset (by simp)
  rcases promoteVisit_cases ho h.steps.changes.frame.acceptedIds_subset with
    ⟨hp, hok⟩ | ⟨st', n', hok, hone, heq⟩
  · refine ⟨p, hok, (sublist_cons_self o rest).subperm.trans h.remaining, h.steps, ?_⟩
    refine h.cases.imp_left fun hc => ⟨hc.1, hc.2.1, fun o' ho' => ?_⟩
    rcases hc.2.2 o' ho' with hmem | hwait
    · rcases mem_cons.1 hmem with rfl | hmem
      · exact .inr hp
      · exact .inl hmem
    · exact .inr hwait
  · have hlt : st'.orphans.length < p.state.orphans.length := by
      rw [heq, length_erase_of_mem ho]
      exact Nat.sub_lt (length_pos_of_mem ho) Nat.one_pos
    refine ⟨_, hok, ?_, h.steps.tail hone, .inr ⟨rfl, ?_⟩⟩
    · simpa [heq] using h.remaining.erase o
    · rcases h.cases with ⟨-, hst, -⟩ | ⟨-, hle⟩
      · rwa [hst] at hlt
      · exact hlt.trans hle

variable (sha256 cfg) in
/-- A pass either changes nothing, and then no orphan has an accepted parent, or makes the list
of orphans shorter. -/
theorem promotePass_spec (st : NodeState) (n : Nat) :
    ∃ p, promotePass sha256 cfg st n = .ok p ∧ OrphanSteps sha256 cfg st p.state ∧
      ((p.progress = false ∧ p.state = st ∧ Settled st) ∨
        (p.progress = true ∧ p.state.orphans.length < st.orphans.length)) := by
  have hsort := perm_insertionSort (fun a b : Orphan => recordLe a.share b.share) st.orphans
  have hinit : Passing sha256 cfg st
      (st.orphans.insertionSort fun a b => recordLe a.share b.share) ⟨st, n, false⟩ :=
    ⟨hsort.subperm, .refl, .inl ⟨rfl, rfl, fun o ho => .inl (hsort.mem_iff.2 ho)⟩⟩
  obtain ⟨p, hok, h⟩ := foldlM_total (fun o rest p => Passing.visit) hinit
  refine ⟨p, hok, h.steps, h.cases.imp_left fun hc => ⟨hc.1, hc.2.1, fun o ho => ?_⟩⟩
  simpa using hc.2.2 o ho

theorem promoteLoop_spec {fuel : Nat} (h : st.orphans.length < fuel) (n : Nat) :
    ∃ m st', promoteLoop sha256 cfg fuel st n = .ok (m, st') ∧
      OrphanSteps sha256 cfg st st' ∧ Settled st' := by
  induction fuel generalizing st n with
  | zero => omega
  | succ fuel ih =>
    obtain ⟨p, hok, hsteps, hcase⟩ := promotePass_spec sha256 cfg st n
    rw [promoteLoop, hok, ok_bind]
    rcases hcase with ⟨hprogress, hst, hsettled⟩ | ⟨hprogress, hlt⟩
    · rw [hprogress, if_neg Bool.false_ne_true]
      exact ⟨_, _, rfl, hsteps, hst.symm ▸ hsettled⟩
    · rw [hprogress, if_pos rfl]
      have hfuel : p.state.orphans.length < fuel := by omega
      obtain ⟨m, st', hok', hsteps', hsettled⟩ := ih hfuel p.promoted
      exact ⟨m, st', hok', hsteps.trans hsteps', hsettled⟩

variable (sha256 cfg) in
/-- The loop ends from every state, and when it does no orphan has an accepted parent. -/
theorem promoteOrphans_spec (st : NodeState) :
    ∃ n st', promoteOrphans sha256 cfg st = .ok (n, st') ∧ OrphanSteps sha256 cfg st st' ∧
      Settled st' :=
  promoteLoop_spec (Nat.lt_succ_self _) 0

end

end Soveroot.Sync
