import Mathlib.Logic.Relation
import Soveroot.Sync.Handler

/-!
# Runs of a node

A node takes one *action* at a time: it handles a message, imports shares, or does one half of a
round trip. An action may raise, a write may fail, and the process may crash at any point and come
back with what it last wrote. `Reachable` is every state of memory and log a node can come to.

Every step of a run is a sequence of `Move`s (`Step.moves`), which say what the methods can do to
the memory and in which order they write. Later modules prove that each move keeps an invariant, and
look at the methods no more.
-/

namespace Soveroot.Sync

open Py Check Journal List

/-- What a node can be made to do. -/
inductive Action where
  /-- A message arrives. -/
  | handle (raw : Json)
  /-- `import_shares` is called. -/
  | importShares (shares : Json)
  /-- The first half of a round trip. -/
  | send (peerId : Text) (payload : Fields)
  /-- The second half of a round trip. -/
  | receive (response : Json)

def Action.messages : Action → List Json
  | handle raw => [raw]
  | receive response => [response]
  | _ => []

abbrev Process := Node NodeState Event

namespace NodeState

/-- The sequence of the envelope is the latest of its sender. -/
def hear (st : NodeState) (e : Envelope) : NodeState :=
  { st with inboundSequences := st.inboundSequences.set e.sender e.sequence }

/-- The next outbound sequence is taken. -/
def next (st : NodeState) (recipient : Text) : NodeState :=
  { st with
    outboundSequences := st.outboundSequences.set recipient
      ((st.outboundSequences.get? recipient).getD 0 + 1) }

end NodeState

/-- The ids a node exchanges messages with. -/
def Config.Route (cfg : Config) (id : Text) : Prop := id = controlId ∨ id ∈ cfg.peers.keys

section Machine

variable (sha256 : HashFn) (cfg : Config) (D : Dialect)

/-! ## Runs -/

def Action.method : Action → Method Unit
  | handle raw => do let _ ← handleEnvelope sha256 cfg D raw
  | importShares shares => do let _ ← importAndSave sha256 cfg shares
  | send peerId payload => do let _ ← tripSend sha256 cfg D peerId payload
  | receive response => do let _ ← tripReceive sha256 cfg D response

def Action.exec (a : Action) (n : Process) (saves : List Bool) (replies : List Reply) : Process :=
  (a.method sha256 cfg D ⟨n, saves, replies⟩).2.toNode

def reload (log : List (Entry NodeState Event)) : Except Exn NodeState :=
  match disk log with
  | none => pure emptyState
  | some st => loadState sha256 cfg (st.toJson cfg)

/-- A step a run may take: the node before it, the action, which writes succeed and which replies
arrive. -/
abbrev StepCondition := Process → Action → List Bool → List Reply → Prop

inductive Step (ok : StepCondition) (n : Process) : Process → Prop where
  | act {a : Action} {saves : List Bool} {replies : List Reply} (hok : ok n a saves replies) :
      Step ok n (a.exec sha256 cfg D n saves replies)
  /-- The process is killed during an action and started again. -/
  | crash {a : Action} {saves : List Bool} {replies : List Reply}
      {log : List (Entry NodeState Event)} {st : NodeState} (hok : ok n a saves replies)
      (hlog : n.log <+: log) (hlog' : log <+: (a.exec sha256 cfg D n saves replies).log)
      (hload : reload sha256 cfg log = .ok st) : Step ok n ⟨st, log⟩

abbrev Run (ok : StepCondition) : Process → Process → Prop :=
  Relation.ReflTransGen (Step sha256 cfg D ok)

/-- A node that has done nothing. -/
def start : Process := ⟨emptyState, []⟩

abbrev Reachable (ok : StepCondition) (n : Process) : Prop := Run sha256 cfg D ok start n

/-! ## Moves -/

variable (T : Json → Prop)

/-- The announcement in the payload, if there is one, is that of the state. -/
def Announces (st : NodeState) (payload : Fields) : Prop :=
  ∀ value, Json.member payload (ascii "announcement") = some value →
    announce sha256 cfg D st = .ok value

/-- What the methods do, when every message they are given satisfies `T`. -/
inductive Move (n : Process) : Label → Process → Prop where
  /-- The write failed, and the envelope is not processed. -/
  | hear {raw : Json} {e : Envelope} (hT : T raw)
      (h : checkInbound sha256 cfg n.mem raw = .ok e) : Move n .plain ⟨n.mem.hear e, n.log⟩
  | process {raw : Json} {e : Envelope} (hT : T raw)
      (h : checkInbound sha256 cfg n.mem raw = .ok e) :
      Move n .plain
        ⟨n.mem.hear e, n.log ++ [.saved (n.mem.hear e), .event (.processed e)]⟩
  | pass (ticks : Nat) : Move n .plain ⟨(n.mem.pass ticks).2, n.log⟩
  | observe {e : Envelope} {st : NodeState} (he : .processed e ∈ events n.log)
      (h : D.observe n.mem e = .ok st) : Move n .plain ⟨st, n.log⟩
  | importUnsaved {shares : Json} {summary : Summary} {st : NodeState}
      (h : importShares sha256 cfg n.mem shares = .ok (summary, st)) :
      Move n .unsaved ⟨st, n.log⟩
  | importSaved {shares : Json} {summary : Summary} {st : NodeState}
      (h : importShares sha256 cfg n.mem shares = .ok (summary, st)) :
      Move n .plain ⟨st, n.log ++ [.saved st]⟩
  | next {recipient : Text} (hr : cfg.Route recipient) :
      Move n .send ⟨n.mem.next recipient, n.log⟩
  | sign {e : Envelope} (hdisk : disk n.log = some n.mem)
      (hannounces : Announces sha256 cfg D n.mem e.payload) :
      Move n .plain ⟨n.mem, n.log ++ [.event (.signed e)]⟩
  | save : Move n .plain ⟨n.mem, n.log ++ [.saved n.mem]⟩

/-! ## The methods make moves -/

variable {sha256 cfg D T}

/-- What the replies are when every message satisfies `T`. -/
def GoodReply (T : Json → Prop) (r : Reply) : Prop := ∀ value, r = .ok value → T value

variable {st : NodeState}

theorem announce_congr {st' : NodeState} (htick : st'.tick = st.tick)
    (haccepted : st'.acceptedShares = st.acceptedShares) :
    announce sha256 cfg D st' = announce sha256 cfg D st := by
  simp only [announce, announcement, stateView, htick, haccepted, bind_assoc, pure_bind]

/-- What is known of an envelope that passes authentication. -/
structure Heard (cfg : Config) (st : NodeState) (raw : Json) (e : Envelope) : Prop where
  route : cfg.Route e.sender
  record : Json.record? EnvelopeField raw = some e.record
  newer : (st.inboundSequences.get? e.sender).getD 0 < e.sequence
  sequence_lt : e.sequence < 9223372036854775808

theorem checkInbound_verified {raw : Json} {e : Envelope}
    (h : checkInbound sha256 cfg st raw = .ok e) : ∃ key, keyForSender cfg e.sender = .ok key ∧
      verifyEnvelope sha256 raw e.sender cfg.nodeId key = .ok e := by
  simp only [checkInbound, bind_eq_ok, pure_eq_ok, Except.ok.injEq] at h
  obtain ⟨_, -, _, -, key, hkey, _, hverify, _, -, rfl⟩ := h
  obtain ⟨rfl, -⟩ := verifyEnvelope_eq_ok hverify
  exact ⟨key, hkey, hverify⟩

theorem checkInbound_heard {raw : Json} {e : Envelope}
    (h : checkInbound sha256 cfg st raw = .ok e) :
    Heard cfg st raw e := by
  simp only [checkInbound, bind_eq_ok, require_eq_ok, exists_const, pure_eq_ok,
    Except.ok.injEq] at h
  obtain ⟨fields, -, sender, -, key, hkey, checked, hchecked, hlt, rfl⟩ := h
  have hrecord := verifyEnvelope_record hchecked
  obtain ⟨rfl, -, -, hmax⟩ := verifyEnvelope_eq_ok hchecked
  refine ⟨?_, hrecord, hlt, hmax⟩
  by_cases hc : checked.sender = controlId
  · exact .inl hc
  · rw [keyForSender, if_neg hc, orRaise_eq_ok] at hkey
    exact .inr (Dict.mem_keys_iff.2 ⟨key, hkey⟩)

section Sim

variable {c e : Int} {P : World NodeState Event Reply → Prop}

theorem sim_lax {α : Type} {x : Method α} {Q : α → World NodeState Event Reply → Prop}
    (h : Sim (Move sha256 cfg D T) (GoodReply T) 0 0 P x Q) :
    Sim (Move sha256 cfg D T) (GoodReply T) 0 1 P x Q :=
  h.weaken (fun _ hw => hw) (fun _ _ hw => hw) (by decide) (by decide)

theorem sim_save (hc : 0 ≤ c) (he : 0 ≤ e) :
    Sim (Move sha256 cfg D T) (GoodReply T) c e P save fun _ _ => True :=
  Sim.save (fun _ _ => .save) (fun _ _ _ => trivial) hc he

variable {recipient : Text}

theorem sim_nextOutbound (hr : cfg.Route recipient) (payload : Fields) :
    Sim (Move sha256 cfg D T) (GoodReply T) 1 1
      (fun w => Announces sha256 cfg D w.mem payload) (nextOutbound recipient)
      fun _ w => disk w.log = some w.mem ∧ Announces sha256 cfg D w.mem payload := by
  apply Sim.bind_mem
  intro st
  refine Sim.ret (Sim.commit ?_ ?_ ?_) fun _ w hw => hw
  · intro w hw
    obtain ⟨-, rfl⟩ := hw
    exact ⟨[.send], .single (.next hr), by decide⟩
  · intro w hw
    obtain ⟨-, rfl⟩ := hw
    exact ⟨[.send, .plain], .tail (.single (.next hr)) .save, by decide, by decide⟩
  · intro w hw
    refine ⟨by simp [Prog.committed], fun value hvalue => ?_⟩
    exact (announce_congr rfl rfl).trans (hw.1 value hvalue)

theorem sim_signWith (hr : cfg.Route recipient) (payload : Fields) (key : Except Exn Text) :
    Sim (Move sha256 cfg D T) (GoodReply T) 1 1
      (fun w => Announces sha256 cfg D w.mem payload) (signWith sha256 cfg recipient payload key)
      fun _ _ => True := by
  refine Sim.after_send (a := 0) (sim_nextOutbound hr payload) (fun sequence => ?_) (by decide)
  refine Sim.bind_lift (by decide) fun key _ => ?_
  refine Sim.bind_lift (by decide) fun envelope henvelope => ?_
  obtain ⟨-, -, rfl, -⟩ := signEnvelope_eq_ok henvelope
  exact Sim.ret (Q := fun _ _ => True)
    (Sim.emit (fun w hw => .sign hw.1 hw.2) (fun _ _ => trivial) (by decide)) fun _ _ _ => trivial

variable {raw : Json}

theorem sim_authenticateInbound (hT : T raw) :
    Sim (Move sha256 cfg D T) (GoodReply T) 0 0 P (authenticateInbound sha256 cfg raw)
      fun checked w => .processed checked ∈ events w.log ∧ cfg.Route checked.sender := by
  apply Sim.bind_mem
  intro st
  refine Sim.bind_lift (by decide) fun checked hchecked => ?_
  refine Sim.ret (Sim.commit ?_ ?_ ?_) fun _ w hw => hw
  · intro w hw
    obtain ⟨-, rfl⟩ := hw
    exact ⟨[.plain], .single (.hear hT hchecked), by decide⟩
  · intro w hw
    obtain ⟨-, rfl⟩ := hw
    exact ⟨[.plain], .single (.process hT hchecked), by decide, by decide⟩
  · intro w _
    refine ⟨?_, (checkInbound_heard hchecked).route⟩
    simp [Prog.committed, events]

theorem sim_observe (e : Envelope) :
    Sim (Move sha256 cfg D T) (GoodReply T) 0 0 (fun w => .processed e ∈ events w.log)
      (observe D e) fun _ _ => True := by
  apply Sim.bind_mem
  intro st
  refine Sim.bind_lift (by decide) fun st' hst' => ?_
  refine Sim.update (fun w hw => ?_) (fun _ _ => trivial) (by decide)
  obtain ⟨he, rfl⟩ := hw
  exact .observe he hst'

theorem sim_importAndSave (shares : Json) :
    Sim (Move sha256 cfg D T) (GoodReply T) 0 0 P (importAndSave sha256 cfg shares)
      fun _ _ => True := by
  apply Sim.bind_mem
  intro st
  refine Sim.bind_lift (by decide) fun result hresult => ?_
  refine Sim.ret (Q := fun _ _ => True) (Sim.commit ?_ ?_ ?_) fun _ _ _ => trivial
  · intro w hw
    obtain ⟨-, rfl⟩ := hw
    exact ⟨[.unsaved], .single (.importUnsaved hresult), by decide⟩
  · intro w hw
    obtain ⟨-, rfl⟩ := hw
    exact ⟨[.plain], .single (.importSaved hresult), by decide, by decide⟩
  · intro w _
    trivial

theorem member_putField (fields : Fields) (value : Json) :
    Json.member (putField fields "announcement" value) (ascii "announcement") = some value := by
  apply Json.member_append_last
  intro h
  obtain ⟨f, hf, hkey⟩ := mem_map.1 h
  have hne := (mem_filter.1 hf).2
  simp [hkey] at hne

section

variable (peerId : Text)

theorem sim_tripSend (payload : Fields) :
    Sim (Move sha256 cfg D T) (GoodReply T) 1 1 P (tripSend sha256 cfg D peerId payload)
      fun _ _ => True := by
  refine Sim.bind_lift (by decide) fun key hkey => ?_
  have hr : cfg.Route peerId := .inr (Dict.mem_keys_iff.2 ⟨key, orRaise_eq_ok.1 hkey⟩)
  apply Sim.bind_mem
  intro st
  refine Sim.bind_lift (by decide) fun a ha => ?_
  refine (sim_signWith hr _ _).pre fun w hw value hvalue => ?_
  obtain ⟨-, rfl⟩ := hw
  rw [member_putField, Option.some.injEq] at hvalue
  rw [ha, hvalue]

theorem sim_sendMessage (envelope : Envelope) :
    Sim (Move sha256 cfg D T) (GoodReply T) (-1) 0 (fun _ => True) (sendMessage envelope)
      fun value _ => T value := by
  refine Sim.bind_lift (by decide) fun _ _ => ?_
  refine (Sim.receive fun _ _ _ => trivial).after_receive fun reply => ?_
  exact Sim.lift (fun value w hvalue hw => hw.1 value hvalue) (by decide) (by decide)

theorem sim_tripReceive {response : Json} (hT : T response) :
    Sim (Move sha256 cfg D T) (GoodReply T) 0 0 P (tripReceive sha256 cfg D response)
      fun _ _ => True := by
  refine (sim_authenticateInbound hT).seq fun checked => ?_
  refine ((sim_observe checked).pre fun w hw => hw.1).seq fun _ => ?_
  exact (sim_save (by decide) (by decide)).ret fun _ _ _ => trivial

theorem sim_peerRoundTrip (payload : Fields) :
    Sim (Move sha256 cfg D T) (GoodReply T) 0 1 P (peerRoundTrip sha256 cfg D peerId payload)
      fun _ _ => True := by
  refine (sim_tripSend peerId payload).after_send (a := -1) (fun envelope => ?_) (by decide)
  refine (sim_sendMessage envelope).after_receive fun response => ?_
  exact (Sim.assume fun hT => sim_tripReceive (P := fun _ => True) hT).pre fun w hT =>
    ⟨trivial, hT⟩

/-! ### Synchronising -/

theorem sim_inventoryLoop (pages : Nat) :
    ∀ cursor peerKnown totals, Sim (Move sha256 cfg D T) (GoodReply T) 0 1 (fun _ => True)
      (inventoryLoop sha256 cfg D peerId pages cursor peerKnown totals) fun _ _ => True := by
  induction pages with
  | zero => exact fun _ _ _ => Sim.lift (fun _ _ _ _ => trivial) (by decide) (by decide)
  | succ pages ih =>
    intro cursor peerKnown totals
    refine (sim_peerRoundTrip peerId _).seq fun response => ?_
    iterate 4 refine Sim.bind_lift (by decide) fun _ _ => ?_
    cases getField response "next_cursor" with
    | null => exact Sim.pure (fun _ _ => trivial) (by decide)
    | _ => exact Sim.bind_lift (by decide) fun _ _ => ih _ _ _

theorem sim_pullNext (totals : Totals) (requested : List Text) :
    Sim (Move sha256 cfg D T) (GoodReply T) 0 1 (fun _ => True)
      (pullNext sha256 cfg D peerId totals requested) fun _ _ => True := by
  refine (sim_peerRoundTrip peerId _).seq fun pulled => ?_
  refine Sim.bind_lift (by decide) fun _ _ => ?_
  refine Sim.bind_lift (by decide) fun received _ => ?_
  refine (sim_lax (sim_importAndSave _)).seq fun summary => ?_
  exact Sim.bind_lift (by decide) fun _ _ => Sim.pure (fun _ _ => trivial) (by decide)

theorem sim_pushNext (totals : Totals) (batch : List Share) :
    Sim (Move sha256 cfg D T) (GoodReply T) 0 1 (fun _ => True)
      (pushNext sha256 cfg D peerId totals batch) fun _ _ => True := by
  refine (sim_peerRoundTrip peerId _).seq fun pushed => ?_
  iterate 3 refine Sim.bind_lift (by decide) fun _ _ => ?_
  exact Sim.bind_lift (by decide) fun _ _ => Sim.pure (fun _ _ => trivial) (by decide)

theorem sim_finalLoop (pages : Nat) :
    ∀ cursor ids totals, Sim (Move sha256 cfg D T) (GoodReply T) 0 1 (fun _ => True)
      (finalLoop sha256 cfg D peerId pages cursor ids totals) fun _ _ => True := by
  induction pages with
  | zero => exact fun _ _ _ => Sim.pure (fun _ _ => trivial) (by decide)
  | succ pages ih =>
    intro cursor ids totals
    refine (sim_peerRoundTrip peerId _).seq fun response => ?_
    iterate 3 refine Sim.bind_lift (by decide) fun _ _ => ?_
    refine Sim.bind_lift (by decide) fun nextCursor _ => ?_
    cases nextCursor with
    | null => exact Sim.pure (fun _ _ => trivial) (by decide)
    | _ => exact ih _ _ _

end

theorem sim_syncPeer (peerId : Json) :
    Sim (Move sha256 cfg D T) (GoodReply T) 0 1 (fun _ => True) (syncPeer sha256 cfg D peerId)
      fun _ _ => True := by
  refine Sim.bind_lift (by decide) fun peerId _ => ?_
  refine (sim_inventoryLoop peerId _ _ _ _).seq fun inventory => ?_
  refine Sim.bind_mem fun st => ?_
  refine ((Sim.foldlM (by decide) (sim_pullNext peerId) _ _).pre fun _ _ => trivial).seq
    fun totals => ?_
  refine Sim.bind_mem fun st => ?_
  refine ((Sim.foldlM (by decide) (sim_pushNext peerId) _ _).pre fun _ _ => trivial).seq
    fun totals => ?_
  refine Sim.bind_lift (by decide) fun _ _ => ?_
  refine (sim_finalLoop peerId _ _ _ _).seq fun final => ?_
  refine Sim.bind_mem fun st => ?_
  refine Sim.bind_lift (by decide) fun peerIds _ => ?_
  refine Sim.bind_lift (by decide) fun _ _ => ?_
  exact Sim.bind_lift (by decide) fun _ _ => Sim.pure (fun _ _ => trivial) (by decide)

/-! ### Requests -/

theorem announces_of_not_mem {st : NodeState} {payload : Fields}
    (h : ascii "announcement" ∉ payload.map Prod.fst) : Announces sha256 cfg D st payload := by
  intro value hvalue
  rw [Json.member_eq_none h] at hvalue
  cases hvalue

theorem announces_append {st : NodeState} {f : Fields} {a : Json}
    (ha : announce sha256 cfg D st = .ok a) (h : ascii "announcement" ∉ f.map Prod.fst) :
    Announces sha256 cfg D st (f ++ [(ascii "announcement", a)]) := by
  intro value hvalue
  rw [Json.member_append_last h, Option.some.injEq] at hvalue
  rw [ha, hvalue]

theorem sim_controlResponse (payload : Fields) :
    Sim (Move sha256 cfg D T) (GoodReply T) 0 1 (fun _ => True)
      (controlResponse sha256 cfg D payload)
      fun response w => Announces sha256 cfg D w.mem response := by
  -- no response to the controller carries an announcement
  have hnone : ∀ (st : NodeState) (k : String) (v v' : Json),
      ascii "announcement" ∉ [ascii "op", ascii k] →
      Announces sha256 cfg D st [(ascii "op", v), (ascii k, v')] :=
    fun st k v v' h => announces_of_not_mem h
  simp only [controlResponse]
  split_ifs
  · refine Sim.bind_mem fun st => Sim.bind_lift (by decide) fun view _ => ?_
    exact Sim.pure (fun w _ => hnone _ _ _ _ (by decide +kernel)) (by decide)
  · exact (sim_lax (sim_importAndSave _)).ret fun summary w _ =>
      hnone _ _ _ _ (by decide +kernel)
  · refine Sim.bind_lift (by decide) fun count _ => Sim.bind_mem fun st => ?_
    refine Sim.ret (Q := fun _ _ => True)
      (Sim.update (fun _ _ => .pass _) (fun _ _ => trivial) (by decide)) ?_
    exact fun _ w _ => hnone _ _ _ _ (by decide +kernel)
  · exact (sim_syncPeer _).ret fun totals w _ => hnone _ _ _ _ (by decide +kernel)
  · exact Sim.pure (fun w _ => hnone _ _ _ _ (by decide +kernel)) (by decide)
  · exact Sim.lift (fun a w ha => by cases ha) (by decide) (by decide)

theorem sim_peerResponse (payload : Fields) :
    Sim (Move sha256 cfg D T) (GoodReply T) 0 0 (fun _ => True) (peerResponse sha256 cfg D payload)
      fun response w => Announces sha256 cfg D w.mem response := by
  simp only [peerResponse]
  split_ifs
  · refine Sim.bind_lift (by decide) fun cursor _ => Sim.bind_mem fun st => ?_
    refine Sim.bind_lift (by decide) fun a ha => Sim.pure (fun w hw => ?_) (by decide)
    refine announces_append (f := [(_, _), (_, _), (_, _)]) (hw.2 ▸ ha) ?_
    simp only [map_cons, map_nil]
    decide +kernel
  · refine Sim.bind_lift (by decide) fun requested _ => Sim.bind_lift (by decide) fun ids _ => ?_
    refine Sim.bind_mem fun st => Sim.bind_lift (by decide) fun a ha => ?_
    refine Sim.pure (fun w hw => ?_) (by decide)
    refine announces_append (f := [(_, _), (_, _)]) (hw.2 ▸ ha) ?_
    simp only [map_cons, map_nil]
    decide +kernel
  · refine (sim_importAndSave _).seq fun summary => Sim.bind_mem fun st => ?_
    refine Sim.bind_lift (by decide) fun a ha => Sim.pure (fun w hw => ?_) (by decide)
    refine announces_append (f := [(_, _), (_, _)]) (hw.2 ▸ ha) ?_
    simp only [map_cons, map_nil]
    decide +kernel
  · exact Sim.lift (fun a w ha => by cases ha) (by decide) (by decide)

theorem sim_responseTo (envelope : Envelope) :
    Sim (Move sha256 cfg D T) (GoodReply T) 0 1 (fun _ => True) (responseTo sha256 cfg D envelope)
      fun response w => Announces sha256 cfg D w.mem response := by
  by_cases hcontrol : envelope.sender = controlId
  · rw [responseTo, if_pos hcontrol]
    exact sim_controlResponse _
  · rw [responseTo, if_neg hcontrol]
    exact sim_lax (sim_peerResponse _)

theorem sim_handleEnvelope (hT : T raw) :
    Sim (Move sha256 cfg D T) (GoodReply T) 1 1 P (handleEnvelope sha256 cfg D raw)
      fun _ _ => True := by
  refine (sim_lax (sim_authenticateInbound hT)).seq fun envelope => ?_
  refine Sim.seq (Q := fun _ w => .processed envelope ∈ events w.log ∧ cfg.Route envelope.sender)
    (Sim.update (fun _ _ => .pass 1) (fun _ hw => hw) (by decide)) fun _ => ?_
  refine Sim.assume fun hroute => ?_
  refine (sim_lax (sim_observe envelope)).seq fun _ => ?_
  refine (sim_responseTo envelope).seq fun response => ?_
  refine Sim.seq (Q := fun _ w => Announces sha256 cfg D w.mem response)
    (Sim.save (fun _ _ => .save) (fun _ _ hw => hw) (by decide) (by decide)) fun _ => ?_
  exact sim_signWith hroute _ _

theorem sim_method {a : Action} (hT : ∀ raw ∈ a.messages, T raw) :
    Sim (Move sha256 cfg D T) (GoodReply T) 1 1 (fun _ => True) (a.method sha256 cfg D)
      fun _ _ => True := by
  cases a with
  | handle raw => exact (sim_handleEnvelope (hT raw (by simp [Action.messages]))).ret fun _ _ h => h
  | importShares shares =>
    exact ((sim_importAndSave shares).weaken (fun _ hw => hw) (fun _ _ hw => hw) (by decide)
      (by decide)).ret fun _ _ h => h
  | send peerId payload => exact (sim_tripSend peerId payload).ret fun _ _ h => h
  | receive response =>
    exact ((sim_tripReceive (hT response (by simp [Action.messages]))).weaken (fun _ hw => hw)
      (fun _ _ hw => hw) (by decide) (by decide)).ret fun _ _ h => h

end Sim

/-! ## Runs make moves -/

variable (sha256 cfg D) in
/-- An action sends at most one message more than it is sent, and leaves nothing unwritten unless
a write fails. -/
theorem exec_moves {a : Action} (n : Process) (saves : List Bool) {replies : List Reply}
    (hT : ∀ raw ∈ a.messages, T raw) (hreplies : ∀ r ∈ replies, GoodReply T r) :
    ∃ ls, Moves (Move sha256 cfg D T) n ls (a.exec sha256 cfg D n saves replies) ∧
      ls.count .send ≤ replies.length + 1 ∧ (.unsaved ∈ ls → false ∈ saves) := by
  have hsim : Sim (Move sha256 cfg D T) (GoodReply T) 1 1 (fun _ => True)
      (a.method sha256 cfg D) fun _ _ => True := sim_method hT
  obtain ⟨hok, herror⟩ := hsim ⟨n, saves, replies⟩ hreplies trivial
  have htraced : Traced (Move sha256 cfg D T) 1 ⟨n, saves, replies⟩
      (a.method sha256 cfg D ⟨n, saves, replies⟩).2 := by
    cases hrun : (a.method sha256 cfg D ⟨n, saves, replies⟩).1 with
    | ok u => exact (hok u hrun).1
    | error err => exact herror err hrun
  obtain ⟨ls, hmoves, hcount, hsaved⟩ := htraced.moves
  simp only at hcount
  exact ⟨ls, hmoves, by omega, hsaved⟩

variable (sha256 cfg D) in
theorem exec_moves_any (a : Action) (n : Process) (saves : List Bool) (replies : List Reply) :
    ∃ ls, Moves (Move sha256 cfg D fun _ => True) n ls (a.exec sha256 cfg D n saves replies) ∧
      (.unsaved ∈ ls → false ∈ saves) := by
  obtain ⟨ls, hmoves, -, hunsaved⟩ := exec_moves (T := fun _ => True) sha256 cfg D n saves
    (fun _ _ => trivial) fun _ _ _ _ => trivial
  exact ⟨ls, hmoves, hunsaved⟩

variable {n m : Process} {l : Label}

section

variable (h : Move sha256 cfg D T n l m)
include h

theorem Move.exists_append :
    ∃ added, m.log = n.log ++ added ∧ ∀ st, .saved st ∈ added → st = m.mem := by
  have hnone : ∃ added, n.log = n.log ++ added ∧
      ∀ st, (.saved st : Entry NodeState Event) ∈ added → st = m.mem :=
    ⟨[], (append_nil _).symm, fun _ h => absurd h not_mem_nil⟩
  cases h with
  | hear | pass | observe | importUnsaved | next => exact hnone
  | process | importSaved | save => exact ⟨_, rfl, fun st hst => by simpa using hst⟩
  | sign => exact ⟨_, rfl, fun st hst => by simp at hst⟩

theorem Move.log_prefix : n.log <+: m.log := by
  obtain ⟨added, hlog, -⟩ := h.exists_append
  exact ⟨added, hlog.symm⟩

/-- A crash may come between the write and the event of `Move.process`, and nowhere else inside a
move. -/
theorem Move.exists_log {p : List (Entry NodeState Event)}
    (hn : n.log <+: p) (hm : p <+: m.log) :
    ∃ ls m', Moves (Move sha256 cfg D T) n ls m' ∧ m'.log = p := by
  by_cases hstart : p = n.log
  · exact ⟨[], n, .refl, hstart.symm⟩
  by_cases hend : p = m.log
  · exact ⟨[l], m, .single h, hend.symm⟩
  -- the move adds two entries, and `p` has one of them
  have hlt : n.log.length < p.length :=
    Nat.lt_of_le_of_ne hn.length_le fun heq => hstart (hn.eq_of_length heq).symm
  have hlt' : p.length < m.log.length :=
    Nat.lt_of_le_of_ne hm.length_le fun heq => hend (hm.eq_of_length heq)
  cases h with
  | @process raw e hT hcheck =>
    refine ⟨_, ⟨n.mem.hear e, n.log ++ [.saved (n.mem.hear e)]⟩,
      .tail (.single (.hear hT hcheck)) .save, ?_⟩
    have hwritten : n.log ++ [.saved (n.mem.hear e)] <+:
        n.log ++ [.saved (n.mem.hear e), .event (.processed e)] :=
      prefix_append_right_inj _ |>.2 ⟨[_], rfl⟩
    refine (prefix_of_prefix_length_le hwritten hm ?_).eq_of_length ?_
    · simp only [length_append, length_singleton]
      omega
    · simp only [length_append, length_cons, length_nil] at hlt' ⊢
      omega
  | _ => simp only [length_append, length_singleton] at hlt'; omega

end

variable {ok : StepCondition}

theorem Step.moves (h : Step sha256 cfg D ok n m) :
    ∃ ls m', Moves (Move sha256 cfg D fun _ => True) n ls m' ∧
      (m = m' ∨ ∃ st, reload sha256 cfg m'.log = .ok st ∧ m = ⟨st, m'.log⟩) := by
  cases h with
  | act hok =>
    obtain ⟨ls, hmoves, -⟩ := exec_moves_any sha256 cfg D _ n _ _
    exact ⟨ls, _, hmoves, .inl rfl⟩
  | crash hok hlog hlog' hload =>
    obtain ⟨ls, hmoves, -⟩ := exec_moves_any sha256 cfg D _ n _ _
    obtain ⟨ls', m', hmoves', rfl⟩ := hmoves.exists_log (fun _ _ _ => Move.log_prefix)
      (fun _ _ _ hm _ => hm.exists_log) hlog hlog'
    exact ⟨ls', m', hmoves', .inr ⟨_, hload, rfl⟩⟩

variable {shares : Json} {summary : Summary}

theorem exec_importShares (h : importShares sha256 cfg n.mem shares = .ok (summary, st)) :
    (Action.importShares shares).exec sha256 cfg D n [] [] = ⟨st, n.log ++ [.saved st]⟩ := by
  have hrun : importAndSave sha256 cfg shares ⟨n, [], []⟩ =
      (.ok summary, ⟨⟨st, n.log ++ [.saved st]⟩, [], []⟩) := by
    have hlift : (Prog.lift (importShares sha256 cfg n.mem shares) : Method _) ⟨n, [], []⟩ =
        (.ok (summary, st), ⟨n, [], []⟩) := by rw [Prog.lift, h]
    rw [importAndSave, Prog.bind_ok (x := Prog.mem) rfl, Prog.bind_ok hlift]
    rfl
  rw [Action.exec, Action.method, Prog.bind_ok hrun]
  rfl

theorem Run.tail_importShares (h : Run sha256 cfg D ok n m)
    (hok : ok m (.importShares shares) [] [])
    (himport : importShares sha256 cfg m.mem shares = .ok (summary, st)) :
    Run sha256 cfg D ok n ⟨st, m.log ++ [.saved st]⟩ :=
  exec_importShares himport ▸ h.tail (.act hok)

theorem Run.induct {I : Process → Prop}
    (hmove : ∀ n l m, Move sha256 cfg D (fun _ => True) n l m → I n → I m)
    (hrestart : ∀ n st, reload sha256 cfg n.log = .ok st → I n → I ⟨st, n.log⟩)
    (h : Run sha256 cfg D ok n m) (hn : I n) : I m := by
  induction h with
  | refl => exact hn
  | tail _ hstep ih =>
    obtain ⟨ls, m', hmoves, hend⟩ := hstep.moves
    have hm' := hmoves.induct hmove ih
    rcases hend with rfl | ⟨st, hload, rfl⟩
    · exact hm'
    · exact hrestart _ _ hload hm'

end Machine

end Soveroot.Sync
