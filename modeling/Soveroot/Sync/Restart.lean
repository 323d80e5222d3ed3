import Soveroot.Sync.Invariant

/-!
# Restarting a node

Not every state a node comes to can be read back. Three kinds of messages leave something behind
that `_load_state` refuses:

* an announcement from the local controller, which is filed under a name that is not a peer;
* an announcement whose slot is a Boolean, which is an `int` to `_observe_announcement` and whose
  text is not a decimal number;
* an announcement whose record is longer than two frames when it is written with escapes.

And an outbound sequence can be counted beyond what the loader accepts. In a run without these,
every state the node has or has written reads back to itself (`loadState_of_reachable`).
-/

namespace Soveroot.Sync

open Py Check Journal List Json Dict

variable {sha256 : HashFn} {cfg : Config}

/-! ## Rejections -/

/-- The reasons of the validator. -/
def validatorReasons : List Reason :=
  [.invalidNetworkBits, .invalidRoundTable, .shareFields, .shareProfile, .shareSequence,
    .untrustedRoundContext, .shareIdentifier, .headerHash, .workIdentity, .shareTargetMismatch,
    .networkBitsMismatch, .payoutScript, .blockCandidate, .malformedHeader,
    .proofAboveShareTarget, .emptyGraph, .duplicateShareId, .workReassigned,
    .duplicateWorkIdentity, .invalidRoot, .unknownParent, .parentSequence, .roundTransition]

/-- Every text a node counts. -/
def rejectionTexts : List Text :=
  validatorReasons.map Reason.text ++
    [SyncReason.shareCollision.text, SyncReason.duplicateWorkIdentity.text,
      SyncReason.knownShareLimit.text, SyncReason.orphanLimit.text, ascii "orphan_expired"]

variable {reason : Text}

theorem IsRejection.mem_rejectionTexts (h : IsRejection reason) : reason ∈ rejectionTexts := by
  cases h with
  | profile reason =>
    refine mem_append_left _ (mem_map_of_mem ?_)
    cases reason <;> decide
  | shareCollision | duplicateWorkIdentity | knownShareLimit | orphanLimit | expired =>
    exact mem_append_right _ (by simp)

variable {counts : Dict Text Nat}

theorem size_le_of_isRejection (h : ∀ reason ∈ counts.keys, IsRejection reason) :
    counts.size ≤ 64 := by
  have hlen : counts.keys.length ≤ rejectionTexts.length :=
    (subperm_of_subset counts.nodup fun reason hr =>
      (h reason hr).mem_rejectionTexts).length_le
  have hkeys : counts.keys.length = counts.size := length_map _
  have htexts : rejectionTexts.length = 28 := rfl
  omega

theorem isRejection_bump (h : ∀ reason ∈ counts.keys, IsRejection reason) (hr : IsRejection reason)
    (n : Nat) : ∀ r ∈ (bump counts reason n).keys, IsRejection r := by
  intro r hmem
  rcases mem_keys_set.1 hmem with rfl | hmem
  · exact hr
  · exact h r hmem

variable {st : NodeState}

theorem Changes.isRejection {st' : NodeState} (hc : Changes sha256 cfg st st')
    (h : ∀ reason ∈ st.rejectionCounts.keys, IsRejection reason) :
    ∀ reason ∈ st'.rejectionCounts.keys, IsRejection reason := by
  induction hc with
  | refl => exact h
  | tail _ hstep ih =>
    cases hstep with
    | refuse hr => exact isRejection_bump ih hr 1
    | keep | accept => exact ih
    | orphan hstep =>
      cases hstep with
      | promote => exact ih
      | drop _ _ _ reason => exact isRejection_bump ih (.profile reason) 1

theorem isRejection_pass (h : ∀ reason ∈ st.rejectionCounts.keys, IsRejection reason) (n : Nat) :
    ∀ reason ∈ (st.pass n).2.rejectionCounts.keys, IsRejection reason := by
  simp only [NodeState.pass, pruneOrphans]
  split_ifs
  · exact h
  · exact isRejection_bump h .expired _

/-! ## Messages that leave nothing bad behind -/

/-- An envelope whose announcement can be read back: it comes from a peer, its slot is a number,
and its record is not too long for the loader. -/
def Tame (cfg : Config) (e : Envelope) : Prop :=
  ∀ value, Json.member e.payload (ascii "announcement") = some value → value ≠ .null →
    e.sender ∈ cfg.peers.keys ∧
    ∀ fields, record? AnnouncementField value = some fields → (fields .slot).asBool = none ∧
      (announcementRecord fields e).canonicalBytes.length ≤ maxMessageBytes * 2

/-- A message that does not pass authentication, or is tame. -/
def TameMessage (sha256 : HashFn) (cfg : Config) (raw : Json) : Prop :=
  ∀ (e : Envelope) key, keyForSender cfg e.sender = .ok key →
    verifyEnvelope sha256 raw e.sender cfg.nodeId key = .ok e → Tame cfg e

theorem isDecimal_slotText {slot : Json} {n : Int} (h : slot.asIntOrBool = some n) (hn : 0 ≤ n)
    (hbool : slot.asBool = none) : isDecimal (slotText slot) = true := by
  cases slot with
  | int m =>
    obtain rfl : m = n := Option.some.inj h
    lift m to Nat using hn
    have hdigits : ∀ c ∈ decimalNat m, 48 ≤ c ∧ c ≤ 57 := fun _ => digit_of_mem_decimalNat
    simp only [isDecimal, slotText, Bool.and_eq_true, all_eq_true, decide_eq_true_eq,
      Bool.not_eq_true', isEmpty_eq_false_iff]
    exact ⟨decimalNat_ne_nil m, hdigits⟩
  | bool => cases hbool
  | null | float | str | arr | obj => cases h

variable {e : Envelope}

/-- The record of an announcement is not twice as long as the envelope it came with. -/
theorem length_announcementRecord_le {value : Json} {fields : AnnouncementField → Json}
    (hvalue : Json.member e.payload (ascii "announcement") = some value)
    (hfields : record? AnnouncementField value = some fields) :
    (announcementRecord fields e).canonicalBytes.length ≤ 2 * e.toJson.canonicalBytes.length := by
  have hannouncement : (Json.ofRecord fields).dumps.length ≤ value.dumps.length :=
    length_ofRecord_le (by decide) hfields
  have hpayload := memberLength_lt_dumps (mem_of_member hvalue)
  have hpayloadKey : (Json.quote (ascii "payload")).length = 9 := by decide +kernel
  have hrecipientKey : (Json.quote (ascii "recipient_id")).length = 14 := by decide +kernel
  have henvelope : (Json.dumps (.obj e.payload)).length + 36 ≤ e.toJson.dumps.length := by
    have hlen : e.toJson.dumps.length = _ := length_dumps_obj (cons_ne_nil _ _)
    simp only [Json.Keys.all, Json.Keys.name, Json.memberLength, Envelope.record, map_cons,
      sum_cons] at hlen
    omega
  have hannouncementKey : (Json.quote (ascii "announcement")).length = 14 := by decide +kernel
  have henvelopeKey : (Json.quote (ascii "authenticated_envelope")).length = 24 := by
    decide +kernel
  have hrecord : (announcementRecord fields e).dumps.length =
      (Json.ofRecord fields).dumps.length + e.toJson.dumps.length + 43 := by
    rw [announcementRecord, length_dumps_obj (cons_ne_nil _ _)]
    simp only [Json.memberLength, map_cons, map_nil, sum_cons, sum_nil]
    omega
  simp only [Json.memberLength] at hpayload
  rw [length_canonicalBytes, length_canonicalBytes]
  omega

/-! ## States that can be read back -/

/-- Sequences of known routes that leave room for `k` more. -/
def Within (cfg : Config) (k : Nat) (d : Dict Text Nat) : Prop :=
  ∀ e ∈ d.entries, cfg.Route e.1 ∧ 0 < e.2 ∧ e.2 + k < 9223372036854775808

theorem within_empty (k : Nat) : Within cfg k Dict.empty := fun _ he => absurd he not_mem_nil

variable {k : Nat} {d : Dict Text Nat}

theorem Within.set (h : Within cfg k d) {id : Text} {n : Nat} (hid : cfg.Route id) (hpos : 0 < n)
    (hlt : n + k < 9223372036854775808) : Within cfg k (d.set id n) := by
  intro e he
  rcases mem_entries_set.1 he with rfl | ⟨he, -⟩
  · exact ⟨hid, hpos, hlt⟩
  · exact h e he

variable {k' : Nat}

theorem Within.mono (h : Within cfg k d) (hk : k' ≤ k) : Within cfg k' d := by
  intro e he
  obtain ⟨hid, hpos, hlt⟩ := h e he
  exact ⟨hid, hpos, by omega⟩

theorem Within.sequencesOk (h : Within cfg k d) : SequencesOk cfg d where
  routes e he := (h e he).1
  range e he := ⟨(h e he).2.1, by have hlt := (h e he).2.2; omega⟩

/-- A state that reads back, with room for `k` more messages to be sent. -/
structure Fits (sha256 : HashFn) (cfg : Config) (k : Nat) (st : NodeState) : Prop where
  sound : Sound sha256 cfg st
  inbound : Within cfg 0 st.inboundSequences
  outbound : Within cfg k st.outboundSequences
  announcements : ∀ e ∈ st.announcements.entries, e.1 ∈ cfg.peers.keys ∧ SlotsOk e.2
  equivocations_le : st.equivocations.length ≤ maxEquivocations
  counted : ∀ reason ∈ st.rejectionCounts.keys, IsRejection reason

theorem fits_emptyState (k : Nat) : Fits sha256 cfg k emptyState where
  sound := sound_emptyState
  inbound := within_empty 0
  outbound := within_empty k
  announcements _ he := absurd he not_mem_nil
  equivocations_le := Nat.zero_le _
  counted _ hr := absurd hr not_mem_nil

namespace Fits

variable {k : Nat} {st : NodeState}

theorem loadable (h : Fits sha256 cfg k st) : Loadable sha256 cfg st where
  graph := h.sound.held.graph
  orphans_le := h.sound.held.orphans_le
  orphans o ho := ⟨h.sound.held.valid _ (mem_append_right _ (mem_map_of_mem ho)),
    h.sound.held.arrival_le o ho⟩
  known_le := h.sound.held.known_le
  distinct := h.sound.held.distinct
  inbound := h.inbound.sequencesOk
  outbound := h.outbound.sequencesOk
  announcementPeers e he := (h.announcements e he).1
  slots e he := (h.announcements e he).2
  equivocations_le := h.equivocations_le
  rejections_le := size_le_of_isRejection h.counted

theorem mono {k' : Nat} (h : Fits sha256 cfg k st) (hk : k' ≤ k) : Fits sha256 cfg k' st :=
  { h with outbound := h.outbound.mono hk }

variable {e : Envelope}

theorem hear {raw : Json} (h : Fits sha256 cfg k st) (he : Heard cfg st raw e) :
    Fits sha256 cfg k (st.hear e) :=
  { h with
    sound := h.sound.congr rfl rfl rfl
    inbound := h.inbound.set he.route (Nat.zero_lt_of_lt he.newer) he.sequence_lt }

theorem next {recipient : Text} (h : Fits sha256 cfg (k + 1) st) (hr : cfg.Route recipient)
    (hk : k + 1 < 9223372036854775808) : Fits sha256 cfg k (st.next recipient) := by
  have hcount : (st.outboundSequences.get? recipient).getD 0 + 1 + k < 9223372036854775808 := by
    cases hget : st.outboundSequences.get? recipient with
    | none =>
      rw [Option.getD_none]
      omega
    | some n =>
      have hn := (h.outbound _ (get?_eq_some_iff.1 hget)).2.2
      rw [Option.getD_some]
      omega
  exact { h with
    sound := h.sound.congr rfl rfl rfl
    outbound := (h.outbound.mono (Nat.le_succ k)).set hr (Nat.succ_pos _) hcount }

theorem pass (h : Fits sha256 cfg k st) (n : Nat) : Fits sha256 cfg k (st.pass n).2 :=
  { h with
    sound := h.sound.pass n
    counted := isRejection_pass h.counted n }

variable {st' : NodeState}

theorem imported {shares : Json} {summary : Summary} (h : Fits sha256 cfg k st)
    (himport : importShares sha256 cfg st shares = .ok (summary, st')) : Fits sha256 cfg k st' := by
  obtain ⟨l, -, -, -, hchanges, -⟩ := importShares_eq_ok himport
  have hframe := hchanges.frame
  exact {
    sound := h.sound.imported himport
    inbound := hframe.inboundSequences ▸ h.inbound
    outbound := hframe.outboundSequences ▸ h.outbound
    announcements := hframe.announcements ▸ h.announcements
    equivocations_le := hframe.equivocations ▸ h.equivocations_le
    counted := hchanges.isRejection (isRejection_pass h.counted 1) }

theorem slotsOk_slotsOf (h : Fits sha256 cfg k st) (sender : Text) :
    SlotsOk (st.slotsOf sender) := by
  rw [NodeState.slotsOf]
  cases hget : st.announcements.get? sender with
  | none => exact ⟨Nat.zero_le _, fun _ he => absurd he not_mem_nil,
      fun _ he => absurd he not_mem_nil⟩
  | some slots => exact (h.announcements _ (get?_eq_some_iff.1 hget)).2

theorem observed (h : Fits sha256 cfg k st) (ht : Tame cfg e)
    (hobserve : observeAnnouncement sha256 st e = .ok st') : Fits sha256 cfg k st' := by
  rcases observeAnnouncement_observed hobserve with
    rfl | ⟨value, fields, n, hvalue, hfields, hslot, hn, hremembered⟩
  · exact h
  have hnull : value ≠ .null := by
    rintro rfl
    cases hfields
  obtain ⟨hpeer, htame⟩ := ht value hvalue hnull
  obtain ⟨hbool, hlen⟩ := htame fields hfields
  cases hremembered with
  | same => exact h
  | @new slots hslots hsize =>
    have hok := h.slotsOk_slotsOf e.sender
    refine { h with
      sound := h.sound.congr rfl rfl rfl
      announcements := fun entry hentry => ?_ }
    rcases mem_entries_set.1 hentry with rfl | ⟨hentry, -⟩
    · refine ⟨hpeer, ?_, ?_, ?_⟩
      · have hle := hok.size_le
        rw [size_set]
        split_ifs <;> omega
      · intro item hitem
        rcases mem_entries_set.1 hitem with rfl | ⟨hitem, -⟩
        · exact isDecimal_slotText hslot hn hbool
        · exact hok.decimal item (hslots item hitem)
      · intro item hitem
        rcases mem_entries_set.1 hitem with rfl | ⟨hitem, -⟩
        · exact hlen
        · exact hok.record_le item (hslots item hitem)
    · exact h.announcements entry hentry
  | evidence hprevious hconflict hlt =>
    refine { h with
      sound := h.sound.congr rfl rfl rfl
      equivocations_le := ?_ }
    rw [length_append, length_singleton]
    exact hlt

end Fits

/-! ## Runs -/

/-- A node that can restart, with room for `k` more messages to be sent. -/
structure Restartable (sha256 : HashFn) (cfg : Config) (k : Nat) (n : Process) : Prop where
  room : k < 9223372036854775808
  mem : Fits sha256 cfg k n.mem
  saved : ∀ st, .saved st ∈ n.log → Fits sha256 cfg 0 st
  processed : ∀ e, .processed e ∈ events n.log → Tame cfg e

variable {addFloat : Json → Json → Except Exn Json} {n m : Process} {l : Label}

theorem Restartable.of_mem (h : Restartable sha256 cfg k n) (hk : k' ≤ k)
    (hm : Move sha256 cfg (labnet sha256 addFloat) (TameMessage sha256 cfg) n l m)
    (hmem : Fits sha256 cfg k' m.mem) : Restartable sha256 cfg k' m where
  room := Nat.lt_of_le_of_lt hk h.room
  mem := hmem
  saved := by
    obtain ⟨added, hlog, hadded⟩ := hm.exists_append
    intro st hst
    rw [hlog, mem_append] at hst
    rcases hst with hst | hst
    · exact h.saved st hst
    · exact hadded st hst ▸ hmem.mono (Nat.zero_le _)
  processed := by
    intro e he
    cases hm with
    | @process raw e' hT hcheck =>
      simp only [events, filterMap_append, mem_append] at he
      rcases he with he | he
      · exact h.processed e he
      · obtain rfl : e = e' := by simpa using he
        obtain ⟨key, hkey, hverify⟩ := checkInbound_verified hcheck
        exact hT e key hkey hverify
    | sign => exact h.processed e (by simpa using he)
    | importSaved | save => exact h.processed e (by simpa using he)
    | hear | pass | observe | importUnsaved | next => exact h.processed e he

theorem Restartable.move (hl : l ≠ .send)
    (hm : Move sha256 cfg (labnet sha256 addFloat) (TameMessage sha256 cfg) n l m)
    (h : Restartable sha256 cfg k n) : Restartable sha256 cfg k m := by
  refine h.of_mem (Nat.le_refl k) hm ?_
  cases hm with
  | hear hT hcheck => exact h.mem.hear (checkInbound_heard hcheck)
  | process hT hcheck => exact h.mem.hear (checkInbound_heard hcheck)
  | pass ticks => exact h.mem.pass ticks
  | observe he hobserve => exact h.mem.observed (h.processed _ he) hobserve
  | importUnsaved himport => exact h.mem.imported himport
  | importSaved himport => exact h.mem.imported himport
  | next => exact absurd rfl hl
  | sign => exact h.mem
  | save => exact h.mem

theorem Restartable.send
    (hm : Move sha256 cfg (labnet sha256 addFloat) (TameMessage sha256 cfg) n .send m)
    (h : Restartable sha256 cfg (k + 1) n) : Restartable sha256 cfg k m := by
  refine h.of_mem (Nat.le_succ k) hm ?_
  cases hm with
  | next hr => exact h.mem.next hr h.room

/-- A step that leaves nothing behind that cannot be read back: every message and every reply that
passes authentication is tame, and no outbound sequence is about to run out. An action sends at
most one message more than it receives replies. -/
def Benign (sha256 : HashFn) (cfg : Config) : StepCondition := fun n a _ replies =>
  (∀ raw ∈ a.messages, TameMessage sha256 cfg raw) ∧
  (∀ r ∈ replies, GoodReply (TameMessage sha256 cfg) r) ∧
  replies.length + 1 < 9223372036854775808 ∧
  ∀ e ∈ n.mem.outboundSequences.entries, e.2 + (replies.length + 1) < 9223372036854775808

theorem Restartable.exec {a : Action} {saves : List Bool} {replies : List Reply}
    (h : Restartable sha256 cfg 0 n) (hok : Benign sha256 cfg n a saves replies) :
    Restartable sha256 cfg 0 (a.exec sha256 cfg (labnet sha256 addFloat) n saves replies) := by
  obtain ⟨hT, hreplies, hroom, hout⟩ := hok
  obtain ⟨ls, hmoves, hcount, -⟩ :=
    exec_moves sha256 cfg (labnet sha256 addFloat) n saves hT hreplies
  have hn : Restartable sha256 cfg (replies.length + 1 - ls.count .send + ls.count .send) n := by
    rw [Nat.sub_add_cancel hcount]
    refine ⟨hroom, { h.mem with outbound := fun e he => ?_ }, h.saved, h.processed⟩
    exact ⟨(h.mem.outbound e he).1, (h.mem.outbound e he).2.1, hout e he⟩
  have hend := hmoves.induct_sends (I := Restartable sha256 cfg)
    (fun _ _ _ hm hn => hn.send hm) (fun _ _ _ _ hl hm hn => hn.move hl hm) hn
  exact ⟨by decide, hend.mem.mono (Nat.zero_le _), hend.saved, hend.processed⟩

theorem Restartable.step (h : Restartable sha256 cfg 0 n)
    (hstep : Step sha256 cfg (labnet sha256 addFloat) (Benign sha256 cfg) n m) :
    Restartable sha256 cfg 0 m := by
  cases hstep with
  | act hok => exact h.exec hok
  | @crash a saves replies log st hok hlog hlog' hload =>
    have hexec : Restartable sha256 cfg 0
        (a.exec sha256 cfg (labnet sha256 addFloat) n saves replies) := h.exec hok
    have hsaved := fun st hst => hexec.saved st (hlog'.subset hst)
    refine ⟨by decide, ?_, hsaved, fun e he => hexec.processed e ?_⟩
    · obtain rfl := reload_eq_ok hload
      rcases durable_cases emptyState log with hnone | hdurable
      · rw [hnone]
        exact fits_emptyState 0
      · exact hsaved _ hdurable
    · exact (hlog'.sublist.filterMap _).subset he

/-- **Restarting.** In a run of benign steps, every state the node has or has written reads back
to itself. -/
theorem loadState_of_reachable {n : Process}
    (h : Reachable sha256 cfg (labnet sha256 addFloat) (Benign sha256 cfg) n) :
    ∀ st, st = n.mem ∨ .saved st ∈ n.log → loadState sha256 cfg (st.toJson cfg) = .ok st := by
  have hrestartable : Restartable sha256 cfg 0 n := by
    induction h with
    | refl => exact ⟨by decide, fits_emptyState 0, fun _ hst => absurd hst not_mem_nil,
        fun _ he => absurd he not_mem_nil⟩
    | tail _ hstep ih => exact ih.step hstep
  intro st hst
  refine loadState_toJson.2 ⟨rfl, ?_⟩
  rcases hst with rfl | hst
  · exact hrestartable.mem.loadable
  · exact (hrestartable.saved st hst).loadable

/-! ## Examples -/

theorem Envelope.record_injective : Function.Injective Envelope.record := by
  intro e e' h
  have hfield := fun f => congrFun h f
  have hsender := Json.str.inj (hfield .senderId)
  have hrecipient := Json.str.inj (hfield .recipientId)
  have hsequence := Int.ofNat.inj (Json.int.inj (hfield .sequence))
  have hpayload := Json.obj.inj (hfield .payload)
  have hmac := Json.str.inj (hfield .macSha256)
  cases e
  simp_all

theorem tameMessage_toJson (h : Tame cfg e) : TameMessage sha256 cfg e.toJson := by
  intro e' key _ hverify
  have he' := verifyEnvelope_record hverify
  rw [Envelope.toJson, record?_ofRecord, Option.some.injEq] at he'
  exact Envelope.record_injective he' ▸ h

namespace Sample

def announcementAt (slot : Json) : Json := Json.ofRecord (F := AnnouncementField) fun
  | .slot => slot
  | .stateCommitmentSha256 => .str zeroId
  | .selectedTipShareId => .str zeroId

/-- A request of the peer for an inventory, with an announcement and the MAC that goes with it. -/
def request (slot : Json) (mac : Nat) : Envelope where
  sender := ascii "node-b"
  recipient := ascii "node-a"
  sequence := 1
  payload := [(ascii "op", .str (ascii "inventory")), (ascii "cursor", .int 0),
    (ascii "announcement", announcementAt slot)]
  mac := formatHex 64 mac

def goodRequest : Envelope :=
  request (.int 1) 0xddfe9cdd5e22fb00ad063b40f10c465c38f4ab8ac71ec2fa3e49aa4ebf8f1082

/-- A request with `True` for a slot. -/
def badRequest : Envelope :=
  request (.bool true) 0x440836171189f89fdbbeef2d5101448db16b0caec7dad74bc87334757d24578a

def asked (e : Envelope) : Process :=
  (Action.handle e.toJson).exec Sha256.sha256 config dialect start [] []

theorem tame_goodRequest : Tame config goodRequest := by
  intro value hvalue _
  obtain rfl : announcementAt (.int 1) = value := Option.some.inj hvalue
  refine ⟨by decide +kernel, fun fields hfields => ⟨?_, ?_⟩⟩
  · rw [announcementAt, record?_ofRecord, Option.some.injEq] at hfields
    rw [← hfields]
    rfl
  · refine (length_announcementRecord_le hvalue hfields).trans ?_
    decide +kernel

end Sample

open Sync.Sample

/-- A request with `True` for a slot is answered, and the file written on the way cannot be read
back: the process does not start again. -/
theorem reload_badRequest :
    Reachable Sha256.sha256 config dialect (fun _ _ _ _ => True)
        (asked badRequest) ∧
      ∃ st, disk (asked badRequest).log = some st ∧
        loadState Sha256.sha256 config (st.toJson config) =
          .error (.syncError .stateAnnouncements "persisted announcement slot is invalid") := by
  have hrun : ((disk (asked badRequest).log).map fun st =>
        match loadState Sha256.sha256 config (st.toJson config) with
        | .ok _ => none
        | .error e => some e) =
      some (some (.syncError .stateAnnouncements "persisted announcement slot is invalid")) := by
    decide +kernel
  obtain ⟨st, hst, herror⟩ := Option.map_eq_some_iff.1 hrun
  refine ⟨.tail .refl (.act trivial), st, hst, ?_⟩
  cases hload : loadState Sha256.sha256 config (st.toJson config) with
  | ok st' =>
    rw [hload] at herror
    cases herror
  | error e =>
    rw [hload] at herror
    rw [Option.some.inj herror]

/-- The state after a good request, with the announcement it came with. -/
theorem loadState_goodRequest :
    (asked goodRequest).mem.announcements.keys = [ascii "node-b"] ∧
      loadState Sha256.sha256 config
          ((asked goodRequest).mem.toJson config) =
        .ok (asked goodRequest).mem := by
  refine ⟨by decide +kernel, ?_⟩
  refine loadState_of_reachable (.tail .refl (.act ⟨?_, ?_, ?_, ?_⟩)) _ (.inl rfl)
  · exact forall_mem_singleton.2 (tameMessage_toJson tame_goodRequest)
  · exact fun _ hr => absurd hr not_mem_nil
  · decide
  · exact fun _ he => absurd he not_mem_nil

end Soveroot.Sync
