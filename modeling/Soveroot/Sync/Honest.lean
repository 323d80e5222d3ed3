import Soveroot.Sync.Equivocation
import Soveroot.Sync.Replay

/-!
# No evidence against honest nodes

Evidence of the labnet node names a sender and holds two envelopes; that of the routed node holds
two signed announcements and names nobody but their signer.

That messages cannot be forged enters as a hypothesis about two runs: what one node processed in
the name of the other, the other has sent. For the labnet node this is about envelopes, for the
routed node about what a signature covers.
-/

namespace Soveroot.Sync

open Py Check Journal Json

variable {sha256 : HashFn} {addFloat : Json → Json → Except Exn Json} {value : Json} {F : Type}

theorem subscript_record? [Json.Keys F] {r : F → Json} (h : record? F value = some r) (f : F) :
    subscript value (Json.Keys.name f) = .ok (r f) := by
  obtain ⟨fields, rfl, -, hmember⟩ := record?_eq_some_iff.1 h
  rw [subscript, hmember f, orRaise_some]

theorem subscript_ofRecord [Json.Keys F] (r : F → Json) (f : F) :
    subscript (Json.ofRecord r) (Json.Keys.name f) = .ok (r f) :=
  subscript_record? (record?_ofRecord r) f

theorem slotText_injective {s s' : Nat} (h : slotText (.int s) = slotText (.int s')) : s = s' :=
  decimalNat_injective h

/-! ## The node of the labnet -/

theorem subscript_slot_toJson (a : Announcement) :
    subscript a.toJson (ascii "slot") = .ok (.int a.slot) :=
  subscript_ofRecord _ AnnouncementField.slot

/-- The record an envelope leaves. -/
def LabnetRecord (e : Envelope) (key : Text) (record : Json) : Prop :=
  ∃ value fields, Json.member e.payload (ascii "announcement") = some value ∧
    record? AnnouncementField value = some fields ∧ key = slotText (fields .slot) ∧
    record = announcementRecord fields e

/-- The evidence an envelope gives against an earlier record. -/
def LabnetEvidence (e : Envelope) (key : Text) (previous item : Json) : Prop :=
  subscript item (ascii "sender_id") = .ok (.str e.sender) ∧
  ∃ value fields first, Json.member e.payload (ascii "announcement") = some value ∧
    record? AnnouncementField value = some fields ∧ key = slotText (fields .slot) ∧
    subscript previous (ascii "announcement") = .ok first ∧ sameAnnouncement first fields = false

variable {sender : Text} {previous : Json} {evidence : Evidence}

theorem announcementConflict_eq_some {fields : AnnouncementField → Json} {record : Json}
    (h : announcementConflict sha256 sender fields record previous = .ok (some evidence)) :
    subscript evidence.json (ascii "sender_id") = .ok (.str sender) ∧
      ∃ first, subscript previous (ascii "announcement") = .ok first ∧
        sameAnnouncement first fields = false := by
  rw [announcementConflict, bind_eq_ok] at h
  obtain ⟨first, hfirst, h⟩ := h
  split_ifs at h with hsame
  · cases h
  · obtain rfl := Option.some.inj (Except.ok.inj h)
    exact ⟨rfl, first, hfirst, Bool.eq_false_iff.2 hsame⟩

theorem traceable_labnet :
    Traceable (labnet sha256 addFloat) LabnetRecord LabnetEvidence := by
  intro st e st' h
  rcases observeAnnouncement_observed h with hsame |
    ⟨value, fields, n, hvalue, hfields, -, -, hremembered⟩
  · exact .inl hsame
  · refine .inr ⟨_, _, _, hremembered, ⟨value, fields, hvalue, hfields, rfl, rfl⟩, ?_⟩
    intro previous evidence hconflict
    obtain ⟨hname, first, hfirst, hdiffer⟩ := announcementConflict_eq_some hconflict
    exact ⟨hname, value, fields, first, hvalue, hfields, rfl, hfirst, hdiffer⟩

theorem sameAnnouncement_self (fields : AnnouncementField → Json) :
    sameAnnouncement (Json.ofRecord fields) fields = true := by
  simp [sameAnnouncement]

/-- What a labnet node processed in the name of another, the other has signed. -/
def Authentic (a b : Process) (peer : Text) : Prop :=
  ∀ e : Envelope, .processed e ∈ events a.log → e.sender = peer → .signed e ∈ events b.log

variable {cfg cfg' : Config} {ok' : StepCondition} {a b : Process}
  {addFloat' : Json → Json → Except Exn Json}

variable {ok : StepCondition} {st : NodeState}

/-- Two announcements of one node that are filed under one key are one announcement. -/
theorem labnet_no_evidence (ha : Reachable sha256 cfg (labnet sha256 addFloat) ok a)
    (hb : Reachable sha256 cfg' (labnet sha256 addFloat') ok' b)
    (hauthentic : Authentic a b cfg'.nodeId) (hst : st = a.mem ∨ .saved st ∈ a.log) :
    ∀ item ∈ st.equivocations, subscript item (ascii "sender_id") ≠ .ok (.str cfg'.nodeId) := by
  intro item hitem hnamed
  obtain ⟨e, e', key, record, he, he', hsame, horigin, hname, hagainst⟩ :=
    (Reachable.provenance traceable_labnet ha st hst).evidence item hitem
  obtain ⟨value', fields', hvalue', hfields', hkey', rfl⟩ := horigin
  obtain ⟨value, fields, first, hvalue, hfields, hkey, hfirst, hdiffer⟩ := hagainst
  have hsender : e.sender = cfg'.nodeId := by
    rw [hname, Except.ok.injEq, Json.str.injEq] at hnamed
    exact hnamed
  obtain ⟨f, hf⟩ := Reachable.history hb
  obtain ⟨s, hs, hwrite⟩ := hf value ⟨e, hauthentic e he hsender, hvalue⟩
  obtain ⟨s', hs', hwrite'⟩ := hf value' ⟨e', hauthentic e' he' (hsame.trans hsender), hvalue'⟩
  obtain rfl := Except.ok.inj hwrite
  obtain rfl := Except.ok.inj hwrite'
  rw [Announcement.toJson, record?_ofRecord, Option.some.injEq] at hfields hfields'
  subst hfields hfields'
  simp only [hs, hs'] at hkey hkey'
  obtain rfl := slotText_injective (hkey.symm.trans hkey')
  obtain rfl := Except.ok.inj hfirst
  rw [sameAnnouncement_self] at hdiffer
  cases hdiffer

/-! ## The routed node -/

variable {I : Identity} {publicKeys : Dict Text Text} {seed peerId : Text}

section

variable {a : Announcement} (h : signedAnnouncement I seed peerId a = .ok value)
include h

theorem signedAnnouncement_eq_ok :
    ∃ publicKey signature, value = Json.ofRecord
      (signedFields publicKey peerId a.slot a.selectedTip a.stateCommitment signature) := by
  simp only [signedAnnouncement, bind_eq_ok, safetyHex, hexText_eq_ok, Json.str.injEq, pure_eq_ok,
    Except.ok.injEq] at h
  obtain ⟨tip, ⟨rfl, -⟩, commitment, ⟨rfl, -⟩, publicKey, -, signature, -, rfl⟩ := h
  exact ⟨publicKey, signature, rfl⟩

theorem subscript_slot_signed :
    subscript value (ascii "slot") = .ok (.int a.slot) := by
  obtain ⟨publicKey, signature, rfl⟩ := signedAnnouncement_eq_ok h
  exact subscript_ofRecord _ SignedField.slot

end

variable {publicKey : Text} {fields : SignedField → Json}

theorem verifyAnnouncement_record (h : verifyAnnouncement I value publicKey peerId = .ok fields) :
    record? SignedField value = some fields ∧ fields .peerId = .str peerId := by
  simp only [verifyAnnouncement, bind_eq_ok, orRaise_eq_ok, require_eq_ok, exists_const,
    isText_iff, pure_eq_ok, Except.ok.injEq] at h
  obtain ⟨fields', hfields, -, -, hpeer, _, -, _, -, _, -, -, rfl⟩ := h
  exact ⟨hfields, hpeer⟩

/-- The record an envelope leaves. -/
def SignedRecord (I : Identity) (publicKeys : Dict Text Text) (e : Envelope) (key : Text)
    (record : Json) : Prop :=
  ∃ value publicKey fields, Json.member e.payload (ascii "announcement") = some value ∧
    publicKeys.get? e.sender = some publicKey ∧
    verifyAnnouncement I value publicKey e.sender = .ok fields ∧ key = slotText (fields .slot) ∧
    record = .obj [(ascii "signed_announcement", value)]

/-- The evidence an envelope gives against an earlier record. -/
def SignedEvidence (I : Identity) (publicKeys : Dict Text Text) (e : Envelope) (key : Text)
    (previous item : Json) : Prop :=
  ∃ value publicKey fields first one,
    Json.member e.payload (ascii "announcement") = some value ∧
    publicKeys.get? e.sender = some publicKey ∧
    verifyAnnouncement I value publicKey e.sender = .ok fields ∧ key = slotText (fields .slot) ∧
    subscript previous (ascii "signed_announcement") = .ok first ∧
    verifyAnnouncement I first publicKey e.sender = .ok one ∧
    ¬ ((one .selectedTipShareId).asText = (fields .selectedTipShareId).asText ∧
      (one .stateCommitmentSha256).asText = (fields .stateCommitmentSha256).asText) ∧
    subscript item (ascii "first") = .ok first

theorem signedConflict_eq_some (hfields : verifyAnnouncement I value publicKey sender = .ok fields)
    (h : signedConflict I sha256 sender publicKey value fields previous = .ok (some evidence)) :
    ∃ first one, subscript previous (ascii "signed_announcement") = .ok first ∧
      verifyAnnouncement I first publicKey sender = .ok one ∧
      ¬ ((one .selectedTipShareId).asText = (fields .selectedTipShareId).asText ∧
        (one .stateCommitmentSha256).asText = (fields .stateCommitmentSha256).asText) ∧
      subscript evidence.json (ascii "first") = .ok first := by
  rw [signedConflict, bind_eq_ok] at h
  obtain ⟨first, hfirst, h⟩ := h
  split_ifs at h
  · cases h
  · simp only [bind_eq_ok, equivocationEvidence, hfields, require_eq_ok, exists_const, pure_eq_ok,
      Except.ok.injEq, Option.some.injEq] at h
    obtain ⟨_, ⟨one, hone, two, rfl, -, hconflict, rfl⟩, rfl⟩ := h
    exact ⟨first, one, hfirst, hone, hconflict, rfl⟩

variable {nodeId : Text} {status : Fields}

theorem traceable_routed : Traceable (routed I sha256 nodeId seed publicKeys status addFloat)
      (SignedRecord I publicKeys) (SignedEvidence I publicKeys) := by
  intro st e st' h
  rcases observeSigned_observed h with hsame |
    ⟨value, publicKey, fields, hvalue, hkey, hfields, hremembered⟩
  · exact .inl hsame
  · refine .inr ⟨_, _, _, hremembered, ⟨value, publicKey, fields, hvalue, hkey, hfields, rfl,
      rfl⟩, ?_⟩
    intro previous evidence hconflict
    obtain ⟨first, one, hfirst, hone, hdiffer, hitem⟩ := signedConflict_eq_some hfields hconflict
    exact ⟨value, publicKey, fields, first, one, hvalue, hkey, hfields, rfl, hfirst, hone,
      hdiffer, hitem⟩

/-- What a routed node has verified as the announcement of another, the other has sent, up to the
signature. -/
def AuthenticSigned (I : Identity) (publicKeys : Dict Text Text) (a b : Process) (peer : Text) :
    Prop :=
  ∀ (e : Envelope) (value : Json) (publicKey : Text) (fields : SignedField → Json),
    .processed e ∈ events a.log → e.sender = peer →
    Json.member e.payload (ascii "announcement") = some value →
    publicKeys.get? peer = some publicKey →
    verifyAnnouncement I value publicKey peer = .ok fields →
    ∃ value' fields', Sent b.log value' ∧ record? SignedField value' = some fields' ∧
      ∀ f, f ≠ .signatureHex → fields' f = fields f

/-- The peer that evidence of a routed node is about. -/
def accused (item : Json) : Except Exn Json := do
  let first ← subscript item (ascii "first")
  subscript first (ascii "peer_id")

theorem accused_eq {item first : Json} {peer : Text}
    (hfirst : subscript item (ascii "first") = .ok first)
    (hfields : verifyAnnouncement I first publicKey peer = .ok fields) :
    accused item = .ok (.str peer) := by
  obtain ⟨hrecord, hpeer⟩ := verifyAnnouncement_record hfields
  rw [accused, hfirst, ← hpeer]
  exact subscript_record? hrecord SignedField.peerId

variable {publicKeys' : Dict Text Text} {status' : Fields}

/-- What a node that has pinned the key of another verified of it is determined by the slot. -/
theorem verified_of_slot
    (hb : Reachable sha256 cfg'
      (routed I sha256 cfg'.nodeId seed publicKeys' status' addFloat') ok' b)
    (hauthentic : AuthenticSigned I publicKeys a b cfg'.nodeId) :
    ∃ f : Nat → Announcement, ∀ (e : Envelope) (value : Json) (publicKey : Text)
      (fields : SignedField → Json), .processed e ∈ events a.log → e.sender = cfg'.nodeId →
      Json.member e.payload (ascii "announcement") = some value →
      publicKeys.get? cfg'.nodeId = some publicKey →
      verifyAnnouncement I value publicKey cfg'.nodeId = .ok fields →
      ∃ s : Nat, fields .slot = .int s ∧ fields .selectedTipShareId = .str (f s).selectedTip ∧
        fields .stateCommitmentSha256 = .str (f s).stateCommitment := by
  obtain ⟨f, hf⟩ := Reachable.history hb
  refine ⟨f, fun e value publicKey fields he hsender hvalue hkey hfields => ?_⟩
  obtain ⟨value', fields', hsent, hrecord, hsame⟩ :=
    hauthentic e value publicKey fields he hsender hvalue hkey hfields
  obtain ⟨s, hs, hwrite⟩ := hf value' hsent
  obtain ⟨publicKey', signature, rfl⟩ := signedAnnouncement_eq_ok hwrite
  rw [record?_ofRecord, Option.some.injEq] at hrecord
  subst hrecord
  refine ⟨s, ?_, ?_, ?_⟩
  · rw [← hsame .slot (by decide), signedFields, hs]
  · rw [← hsame .selectedTipShareId (by decide), signedFields]
  · rw [← hsame .stateCommitmentSha256 (by decide), signedFields]

theorem routed_no_evidence {seed' : Text}
    (ha : Reachable sha256 cfg (routed I sha256 nodeId seed publicKeys status addFloat) ok a)
    (hb : Reachable sha256 cfg'
      (routed I sha256 cfg'.nodeId seed' publicKeys' status' addFloat') ok' b)
    (hauthentic : AuthenticSigned I publicKeys a b cfg'.nodeId)
    (hst : st = a.mem ∨ .saved st ∈ a.log) :
    ∀ item ∈ st.equivocations, accused item ≠ .ok (.str cfg'.nodeId) := by
  intro item hitem hnamed
  obtain ⟨e, e', key, record, he, he', hsame, horigin, hagainst⟩ :=
    (Reachable.provenance traceable_routed ha st hst).evidence item hitem
  obtain ⟨value', publicKey', fields', hvalue', hpublic', hfields', hkey', rfl⟩ := horigin
  obtain ⟨value, publicKey, fields, first, one, hvalue, hpublic, hfields, hkey, hfirst, hone,
    hdiffer, hitem⟩ := hagainst
  rw [accused_eq hitem hone, Except.ok.injEq, Json.str.injEq] at hnamed
  obtain rfl := Except.ok.inj hfirst
  rw [hsame, hpublic, Option.some.injEq] at hpublic'
  obtain rfl := hpublic'
  rw [hsame] at hfields'
  obtain rfl := Except.ok.inj (hone.symm.trans hfields')
  rw [hnamed] at hpublic hfields hfields'
  obtain ⟨f, hf⟩ := verified_of_slot hb hauthentic
  obtain ⟨s, hslot, htip, hcommitment⟩ := hf e value publicKey fields he hnamed hvalue hpublic
    hfields
  obtain ⟨s', hslot', htip', hcommitment'⟩ := hf e' _ publicKey one he' (hsame.trans hnamed)
    hvalue' hpublic hfields'
  rw [hslot] at hkey
  rw [hslot'] at hkey'
  obtain rfl := slotText_injective (hkey.symm.trans hkey')
  exact hdiffer ⟨by rw [htip, htip'], by rw [hcommitment, hcommitment']⟩

/-! ## Both -/

/-- **Honest nodes do not equivocate.** On every run of a node of either kind, announcements for
the same slot have the same commitment and tip. If messages cannot be forged, no state a node has
in memory or on disk holds evidence against another such node. -/
theorem honest_never_equivocates (sha256 : HashFn) (I : Identity)
    (addFloat addFloat' : Json → Json → Except Exn Json) :
    (∀ cfg ok n, Reachable sha256 cfg (labnet sha256 addFloat) ok n → AgreeOnSlots n.log) ∧
    (∀ cfg seed publicKeys status ok n,
      Reachable sha256 cfg (routed I sha256 cfg.nodeId seed publicKeys status addFloat) ok n →
      AgreeOnSlots n.log) ∧
    (∀ cfg cfg' ok ok' a b, Reachable sha256 cfg (labnet sha256 addFloat) ok a →
      Reachable sha256 cfg' (labnet sha256 addFloat') ok' b → Authentic a b cfg'.nodeId →
      ∀ st, st = a.mem ∨ .saved st ∈ a.log → ∀ item ∈ st.equivocations,
        subscript item (ascii "sender_id") ≠ .ok (.str cfg'.nodeId)) ∧
    ∀ cfg cfg' seed seed' publicKeys publicKeys' status status' ok ok' a b,
      Reachable sha256 cfg (routed I sha256 cfg.nodeId seed publicKeys status addFloat) ok a →
      Reachable sha256 cfg' (routed I sha256 cfg'.nodeId seed' publicKeys' status' addFloat') ok'
        b → AuthenticSigned I publicKeys a b cfg'.nodeId →
      ∀ st, st = a.mem ∨ .saved st ∈ a.log → ∀ item ∈ st.equivocations,
        accused item ≠ .ok (.str cfg'.nodeId) := by
  refine ⟨?_, ?_, ?_, ?_⟩
  · intro cfg ok n h
    refine h.agreeOnSlots fun a value hwrite => ?_
    obtain rfl := Except.ok.inj hwrite
    exact subscript_slot_toJson a
  · intro cfg seed publicKeys status ok n h
    exact h.agreeOnSlots fun a value hwrite => subscript_slot_signed hwrite
  · intro cfg cfg' ok ok' a b ha hb hauthentic st hst
    exact labnet_no_evidence ha hb hauthentic hst
  · intro cfg cfg' seed seed' publicKeys publicKeys' status status' ok ok' a b ha hb hauthentic st
      hst
    exact routed_no_evidence ha hb hauthentic hst

theorem processed_handle {D : Dialect} {e e' : Envelope}
    (h : .processed e' ∈ events ((Action.handle e.toJson).exec sha256 cfg D start [] []).log) :
    e' = e := by
  obtain ⟨ls, hmoves, -⟩ := exec_moves (a := .handle e.toJson) (T := (· = e.toJson)) sha256 cfg D
    start [] (fun _ hraw => List.mem_singleton.1 hraw)
    fun r (hr : r ∈ []) => absurd hr List.not_mem_nil
  refine hmoves.induct (I := fun n => ∀ e', .processed e' ∈ events n.log → e' = e) ?_ ?_ e' h
  · intro n l m hm hn e' he'
    cases hm with
    | @process raw e'' hT hcheck =>
      have hlog : n.log ++ [.saved (n.mem.hear e''), .event (.processed e'')] =
          (n.log ++ [.saved (n.mem.hear e'')]) ++ [.event (.processed e'')] := by simp
      rw [hlog, events_event, events_saved, List.mem_append, List.mem_singleton] at he'
      rcases he' with he' | he'
      · exact hn e' he'
      · obtain rfl := Event.processed.inj he'
        have hrecord := (checkInbound_heard hcheck).record
        rw [hT, Envelope.toJson, record?_ofRecord, Option.some.injEq] at hrecord
        exact (Envelope.record_injective hrecord).symm
    | importSaved | save => exact hn e' (by simpa using he')
    | sign => exact hn e' (by simpa using he')
    | hear | pass | observe | importUnsaved | next => exact hn e' he'
  · exact fun _ he => absurd he List.not_mem_nil

namespace Sample

def peerConfig : Config := { config with
  nodeId := ascii "node-b"
  peers := Dict.empty.set (ascii "node-a") (formatHex 64 2)
  isHex_sharedKeyHex := by decide +kernel
  nodeId_not_mem := by decide +kernel }

/-- Signatures that anybody could forge, for an example in which nobody does. -/
def identity : Identity where
  publicKey := pure
  sign seed message := pure (Sha256.sha256 (encodeAscii seed ++ message)).hexdigest
  verify publicKey message signature :=
    signature.isText (Sha256.sha256 (encodeAscii publicKey ++ message)).hexdigest

def routedDialect (nodeId : Text) (publicKeys : Dict Text Text) : Dialect :=
  routed identity Sha256.sha256 nodeId (formatHex 64 3) publicKeys [] fun a _ => pure a

def asking (D : Dialect) : Process :=
  (Action.send (ascii "node-a") [(ascii "op", .str (ascii "inventory")),
    (ascii "cursor", .int 0)]).exec Sha256.sha256 peerConfig D start [] []

/-- What it asks with. -/
def greeting (D : Dialect) : Envelope :=
  ((events (asking D).log).findSome? fun
    | .signed e => some e
    | .processed _ => none).getD goodRequest

def answering (D D' : Dialect) : Process :=
  (Action.handle (greeting D').toJson).exec Sha256.sha256 config D start [] []

variable {D : Dialect}

theorem signed_greeting
    (h : ((events (asking D).log).findSome? fun
    | .signed e => some e
    | .processed _ => none).isSome = true) : .signed (greeting D) ∈ events (asking D).log := by
  obtain ⟨e, he⟩ := Option.isSome_iff_exists.1 h
  obtain ⟨event, hevent, hsigned⟩ := List.exists_of_findSome?_eq_some he
  rw [greeting, he, Option.getD_some]
  cases event with
  | signed e' => exact Option.some.inj hsigned ▸ hevent
  | processed e' => cases hsigned

variable {D' : Dialect}

theorem authentic_answering (h : .signed (greeting D') ∈ events (asking D').log) :
    Authentic (answering D D') (asking D') peerConfig.nodeId :=
  fun _ he _ => processed_handle he ▸ h

theorem authenticSigned_answering {publicKeys : Dict Text Text}
    (h : .signed (greeting D') ∈ events (asking D').log) :
    AuthenticSigned identity publicKeys (answering D D') (asking D') peerConfig.nodeId := by
  intro _ value publicKey fields he _ hvalue _ hfields
  obtain rfl := processed_handle he
  exact ⟨value, fields, ⟨_, h, hvalue⟩, (verifyAnnouncement_record hfields).1, fun _ _ => rfl⟩

def pinnedKeys : Dict Text Text := Dict.empty.set (ascii "node-b") (formatHex 64 3)

end Sample

open Sync.Sample

/-- A node of each kind remembers the announcement of its peer, and no evidence against it. -/
theorem honest_never_equivocates_greeting :
    let D := routedDialect config.nodeId pinnedKeys
    let D' := routedDialect peerConfig.nodeId Dict.empty
    let a := answering dialect dialect
    let a' := answering D D'
    (a.mem.announcements.keys = [ascii "node-b"] ∧ AgreeOnSlots a.log ∧
      ∀ item ∈ a.mem.equivocations,
        subscript item (ascii "sender_id") ≠ .ok (.str (ascii "node-b")))
    ∧ a'.mem.announcements.keys = [ascii "node-b"] ∧ AgreeOnSlots a'.log ∧
      ∀ item ∈ a'.mem.equivocations, accused item ≠ .ok (.str (ascii "node-b")) := by
  intro D D' a a'
  obtain ⟨hagree, hagree', hlabnet, hrouted⟩ := honest_never_equivocates Sha256.sha256
    identity (fun a _ => pure a) fun a _ => pure a
  have ha : Reachable Sha256.sha256 config dialect (fun _ _ _ _ => True) a :=
    .tail .refl (.act trivial)
  have ha' : Reachable Sha256.sha256 config D (fun _ _ _ _ => True) a' :=
    .tail .refl (.act trivial)
  have hb : ∀ D, Reachable Sha256.sha256 peerConfig D (fun _ _ _ _ => True)
      (asking D) := fun _ => .tail .refl (.act trivial)
  have hsigned := signed_greeting (D := dialect) (by decide +kernel)
  have hsigned' := signed_greeting (D := D') (by decide +kernel)
  refine ⟨⟨by decide +kernel, hagree _ _ _ ha, ?_⟩, by decide +kernel, hagree' _ _ _ _ _ _ ha', ?_⟩
  · exact hlabnet _ _ _ _ _ _ ha (hb _) (authentic_answering hsigned) _ (.inl rfl)
  · exact hrouted _ _ _ _ _ _ _ _ _ _ _ _ ha' (hb _)
      (authenticSigned_answering hsigned') _ (.inl rfl)

end Soveroot.Sync
