import Soveroot.Sync.Restart

/-!
# Processing every message once

Requests and responses of a sender share one counter. `_authenticate_inbound` compares the sequence
with the counter in memory, raises the counter and writes it, and only then is the envelope
processed. So a process that dies comes back with a counter that covers everything processed before,
and the sequences processed of a sender increase (`processed_once`).
-/

namespace Soveroot.Sync

open Py Check Journal List Sync.Sample

variable {sha256 : HashFn} {cfg : Config} {D : Dialect}

def processed (log : List (Entry NodeState Event)) : List Envelope :=
  (events log).filterMap fun
    | .processed e => some e
    | .signed _ => none

section

variable (log : List (Entry NodeState Event))

@[simp] theorem processed_saved (st : NodeState) :
    processed (log ++ [.saved st]) = processed log := by
  rw [processed, events_saved, processed]

@[simp] theorem processed_signed (e : Envelope) :
    processed (log ++ [.event (.signed e)]) = processed log := by
  simp [processed]

@[simp] theorem processed_processed (e : Envelope) :
    processed (log ++ [.event (.processed e)]) = processed log ++ [e] := by
  simp [processed]

end

/-- The latest sequence of a sender. -/
def NodeState.heard (st : NodeState) (id : Text) : Nat := (st.inboundSequences.get? id).getD 0

theorem heard_hear (st : NodeState) (e : Envelope) (id : Text) :
    (st.hear e).heard id = if id = e.sender then e.sequence else st.heard id := by
  rw [NodeState.heard, NodeState.hear, Dict.get?_set]
  split_ifs
  · rfl
  · rfl

variable {st : NodeState}

theorem heard_le_hear {raw : Json} {e : Envelope} (h : Heard cfg st raw e) (id : Text) :
    st.heard id ≤ (st.hear e).heard id := by
  rw [heard_hear]
  split_ifs with hid
  · subst hid
    exact Nat.le_of_lt h.newer
  · exact Nat.le_refl _

theorem heard_le_import {st' : NodeState} {shares : Json} {summary : Summary}
    (h : importShares sha256 cfg st shares = .ok (summary, st')) (id : Text) :
    st.heard id ≤ st'.heard id := by
  obtain ⟨l, -, -, -, hchanges, -⟩ := importShares_eq_ok h
  rw [NodeState.heard, NodeState.heard, hchanges.frame.inboundSequences]
  exact Nat.le_refl _

/-- The sequences processed increase, what has been processed is on disk, and the disk is not
ahead of the memory. -/
structure Once (n : Process) : Prop where
  increasing : (processed n.log).Pairwise fun e e' => e.sender = e'.sender →
    e.sequence < e'.sequence
  written : ∀ e ∈ processed n.log, e.sequence ≤ (durable emptyState n.log).heard e.sender
  behind : ∀ id, (durable emptyState n.log).heard id ≤ n.mem.heard id

namespace Once

variable {n : Process}

theorem start : Once start where
  increasing := Pairwise.nil
  written _ he := absurd he not_mem_nil
  behind _ := Nat.le_refl _

variable {st : NodeState}

theorem of_heard (h : Once n) (hst : ∀ id, n.mem.heard id ≤ st.heard id) : Once ⟨st, n.log⟩ where
  increasing := h.increasing
  written := h.written
  behind id := (h.behind id).trans (hst id)

theorem save (h : Once n) : Once ⟨n.mem, n.log ++ [.saved n.mem]⟩ where
  increasing := by
    rw [processed_saved]
    exact h.increasing
  written := by
    intro e he
    rw [processed_saved] at he
    rw [durable_saved]
    exact (h.written e he).trans (h.behind e.sender)
  behind id := by
    rw [durable_saved]

theorem process {raw : Json} {e : Envelope} (h : Once n) (he : Heard cfg n.mem raw e) :
    Once ⟨n.mem.hear e, n.log ++ [.saved (n.mem.hear e), .event (.processed e)]⟩ := by
  have hlog : n.log ++ [.saved (n.mem.hear e), .event (.processed e)] =
      (n.log ++ [.saved (n.mem.hear e)]) ++ [.event (.processed e)] := by simp
  have hheard := heard_le_hear he
  rw [hlog]
  refine ⟨?_, ?_, ?_⟩
  · rw [processed_processed, processed_saved, pairwise_append]
    refine ⟨h.increasing, pairwise_singleton _ _, fun e' he' e'' he'' hsender => ?_⟩
    obtain rfl := mem_singleton.1 he''
    calc e'.sequence ≤ (durable emptyState n.log).heard e'.sender := h.written e' he'
      _ ≤ n.mem.heard e'.sender := h.behind _
      _ = n.mem.heard e''.sender := by rw [hsender]
      _ < e''.sequence := he.newer
  · intro e' he'
    rw [processed_processed, processed_saved, mem_append, mem_singleton] at he'
    rw [durable_event, durable_saved]
    rcases he' with he' | rfl
    · exact ((h.written e' he').trans (h.behind _)).trans (hheard _)
    · rw [heard_hear, if_pos rfl]
  · intro id
    rw [durable_event, durable_saved]

theorem move {T : Json → Prop} {m : Process} {l : Label} (h : Once n)
    (hm : Move sha256 cfg D T n l m) : Once m := by
  cases hm with
  | hear hT hcheck => exact h.of_heard (heard_le_hear (checkInbound_heard hcheck))
  | process hT hcheck => exact h.process (checkInbound_heard hcheck)
  | pass ticks => exact h.of_heard fun _ => Nat.le_refl _
  | observe he hobserve =>
    refine h.of_heard fun id => ?_
    rw [NodeState.heard, NodeState.heard, (D.observe_frame _ _ _ hobserve).inboundSequences]
  | importUnsaved himport => exact h.of_heard (heard_le_import himport)
  | importSaved himport => exact (h.of_heard (heard_le_import himport)).save
  | next => exact h.of_heard fun _ => Nat.le_refl _
  | sign =>
    refine ⟨?_, fun e he => ?_, fun id => ?_⟩
    · rw [processed_signed]
      exact h.increasing
    · rw [processed_signed] at he
      rw [durable_event]
      exact h.written e he
    · rw [durable_event]
      exact h.behind id
  | save => exact h.save

theorem restart (h : Once n) (hload : reload sha256 cfg n.log = .ok st) : Once ⟨st, n.log⟩ where
  increasing := h.increasing
  written := h.written
  behind id := by rw [reload_eq_ok hload]

end Once

/-- **Every message once.** On every run, whatever arrives, however often and in whatever order,
wherever writes fail and processes die: the sequences processed of a sender are strictly
increasing, so no pair of sender and sequence is processed twice. -/
theorem processed_once {ok : StepCondition} {n : Process} (h : Reachable sha256 cfg D ok n) :
    (∀ sender, (((processed n.log).filter fun e => e.sender = sender).map
      Envelope.sequence).Pairwise (· < ·)) ∧
    ((processed n.log).map fun e => (e.sender, e.sequence)).Nodup := by
  have honce : Once n := Run.induct (fun _ _ _ hm hn => hn.move hm)
    (fun _ _ hload hn => hn.restart hload) h Once.start
  constructor
  · intro sender
    rw [pairwise_map]
    refine (honce.increasing.filter _).imp_of_mem fun he he' hlt => hlt ?_
    have hsender := of_decide_eq_true (mem_filter.1 he).2
    have hsender' := of_decide_eq_true (mem_filter.1 he').2
    rw [hsender, hsender']
  · rw [Nodup, pairwise_map]
    refine honce.increasing.imp fun hlt heq => ?_
    obtain ⟨hsender, hsequence⟩ := Prod.mk.inj heq
    exact absurd (hlt hsender) (by omega)

/-- A request that is delivered twice is processed once. -/
theorem processed_once_goodRequest :
    let n := (Action.handle goodRequest.toJson).exec Sha256.sha256 config
      dialect (asked goodRequest) [] []
    (processed n.log).map Envelope.sequence = [1] ∧
      ((processed n.log).map fun e => (e.sender, e.sequence)).Nodup := by
  have h : Reachable Sha256.sha256 config dialect (fun _ _ _ _ => True)
      (asked goodRequest) := .tail .refl (.act trivial)
  refine ⟨by decide +kernel, (processed_once (.tail h (.act trivial))).2⟩

end Soveroot.Sync
