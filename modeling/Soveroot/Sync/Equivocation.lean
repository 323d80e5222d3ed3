import Soveroot.Sync.Invariant
import Soveroot.Sync.Routed

/-!
# Honest nodes do not equivocate

A node announces its tick and what it has selected. The accepted shares only change together with
the tick, and a message is signed when the memory is on disk, so an announcement for a slot is fixed
once the slot is on disk (`Consistent`). What a node remembers of its peers comes from envelopes it
has processed (`Provenance`).
-/

namespace Soveroot.Sync

open Py Check Journal List

variable {sha256 : HashFn} {cfg : Config} {D : Dialect}

/-! ## What a node announces -/

variable {st : NodeState}

theorem announcement_slot {a : Announcement} (h : announcement sha256 cfg st = .ok a) :
    a.slot = st.tick := by
  simp only [announcement, bind_eq_ok, pure_eq_ok, Except.ok.injEq] at h
  obtain ⟨view, -, rfl⟩ := h
  rfl

variable {st' : NodeState}

theorem announcement_congr (htick : st'.tick = st.tick)
    (haccepted : st'.acceptedShares = st.acceptedShares) :
    announcement sha256 cfg st' = announcement sha256 cfg st := by
  simp only [announcement, stateView, htick, haccepted, bind_assoc, pure_bind]

/-- `st'` is `st` as far as announcements go, or later. -/
def Later (st st' : NodeState) : Prop :=
  st.tick < st'.tick ∨ (st'.tick = st.tick ∧ st'.acceptedShares = st.acceptedShares)

theorem Later.refl (st : NodeState) : Later st st := .inr ⟨rfl, rfl⟩

theorem Later.trans {st'' : NodeState} (h : Later st st') (h' : Later st' st'') :
    Later st st'' := by
  rcases h with h | ⟨htick, haccepted⟩
  · rcases h' with h' | ⟨htick', -⟩
    · exact .inl (h.trans h')
    · exact .inl (htick'.symm ▸ h)
  · rcases h' with h' | ⟨htick', haccepted'⟩
    · exact .inl (htick ▸ h')
    · exact .inr ⟨htick'.trans htick, haccepted'.trans haccepted⟩

variable {n : Process}

/-- The accepted shares change only together with the tick. -/
theorem Move.later {T : Json → Prop} {m : Process} {l : Label} (h : Move sha256 cfg D T n l m) :
    Later n.mem m.mem := by
  have himport : ∀ {shares summary st}, importShares sha256 cfg n.mem shares = .ok (summary, st) →
      Later n.mem st := by
    intro shares summary st h
    obtain ⟨l, -, -, -, hchanges, -⟩ := importShares_eq_ok h
    refine .inl ?_
    rw [hchanges.frame.tick]
    exact Nat.lt_succ_self _
  cases h with
  | pass ticks =>
    by_cases hzero : ticks = 0
    · exact .inr ⟨by rw [hzero]; rfl, rfl⟩
    · exact .inl (Nat.lt_add_of_pos_right (Nat.pos_of_ne_zero hzero))
  | observe he hobserve =>
    have hframe := D.observe_frame _ _ _ hobserve
    exact .inr ⟨hframe.tick, hframe.acceptedShares⟩
  | importUnsaved h => exact himport h
  | importSaved h => exact himport h
  | hear | process | next | sign | save => exact Later.refl _

/-- The envelope was signed and carries the announcement. -/
def Sent (log : List (Entry NodeState Event)) (value : Json) : Prop :=
  ∃ e : Envelope, .signed e ∈ events log ∧
    Json.member e.payload (ascii "announcement") = some value

/-- There is one announcement for each slot, and what was sent for a slot that is not past is what
the state on disk announces. -/
structure Consistent (sha256 : HashFn) (cfg : Config) (D : Dialect) (n : Process) : Prop where
  history : ∃ f : Nat → Announcement, ∀ value, Sent n.log value → ∃ s, (f s).slot = s ∧
    D.write (f s) = .ok value ∧
    (s < (durable emptyState n.log).tick ∨
      announcement sha256 cfg (durable emptyState n.log) = .ok (f s))
  later : Later (durable emptyState n.log) n.mem

variable {log : List (Entry NodeState Event)} {value : Json}

@[simp] theorem sent_saved : Sent (log ++ [.saved st]) value ↔ Sent log value := by
  simp [Sent]

variable {e : Envelope}

@[simp] theorem sent_processed : Sent (log ++ [.event (.processed e)]) value ↔ Sent log value := by
  simp [Sent]

theorem sent_signed : Sent (log ++ [.event (.signed e)]) value ↔
      Sent log value ∨ Json.member e.payload (ascii "announcement") = some value := by
  simp only [Sent, events_event, mem_append, mem_singleton, Event.signed.injEq]
  constructor
  · rintro ⟨e', he' | rfl, hvalue⟩
    · exact .inl ⟨e', he', hvalue⟩
    · exact .inr hvalue
  · rintro (⟨e', he', hvalue⟩ | hvalue)
    · exact ⟨e', .inl he', hvalue⟩
    · exact ⟨e, .inr rfl, hvalue⟩

namespace Consistent

variable {n : Process}

theorem start : Consistent sha256 cfg D start where
  history := by
    refine ⟨fun s => ⟨s, [], []⟩, fun value hvalue => ?_⟩
    obtain ⟨e, he, -⟩ := hvalue
    exact absurd he not_mem_nil
  later := Later.refl _

theorem of_later {st : NodeState} (h : Consistent sha256 cfg D n) (hst : Later n.mem st) :
    Consistent sha256 cfg D ⟨st, n.log⟩ := ⟨h.history, h.later.trans hst⟩

section

variable (h : Consistent sha256 cfg D n)
include h

/-- What is written is not earlier than what was on disk. -/
theorem save :
    Consistent sha256 cfg D ⟨n.mem, n.log ++ [.saved n.mem]⟩ where
  history := by
    obtain ⟨f, hf⟩ := h.history
    refine ⟨f, fun value hvalue => ?_⟩
    obtain ⟨s, hslot, hwrite, hpast⟩ := hf value (sent_saved.1 hvalue)
    refine ⟨s, hslot, hwrite, ?_⟩
    rw [durable_saved]
    have htick : s ≤ (durable emptyState n.log).tick := by
      rcases hpast with hlt | hnow
      · exact Nat.le_of_lt hlt
      · exact hslot ▸ (announcement_slot hnow).le
    rcases h.later with hlt | ⟨heq, haccepted⟩
    · exact .inl (lt_of_le_of_lt htick hlt)
    · rw [heq, announcement_congr heq haccepted]
      exact hpast
  later := by
    rw [durable_saved]
    exact Later.refl _

variable {e : Envelope}

theorem processed :
    Consistent sha256 cfg D ⟨n.mem, n.log ++ [.event (.processed e)]⟩ where
  history := by
    obtain ⟨f, hf⟩ := h.history
    refine ⟨f, fun value hvalue => ?_⟩
    rw [durable_event]
    exact hf value (sent_processed.1 hvalue)
  later := by
    rw [durable_event]
    exact h.later

/-- The slot of an announcement that is signed is that of the state on disk. If the slot has been
announced before, it was with the same announcement. -/
theorem sign (hdisk : disk n.log = some n.mem)
    (ha : Announces sha256 cfg D n.mem e.payload) :
    Consistent sha256 cfg D ⟨n.mem, n.log ++ [.event (.signed e)]⟩ where
  history := by
    have hdurable : durable emptyState n.log = n.mem := by rw [durable, hdisk, Option.getD_some]
    obtain ⟨f, hf⟩ := h.history
    rw [durable_event, hdurable]
    rw [hdurable] at hf
    cases hmember : Json.member e.payload (ascii "announcement") with
    | none =>
      refine ⟨f, fun value hvalue => ?_⟩
      rcases sent_signed.1 hvalue with hvalue | hvalue
      · exact hf value hvalue
      · rw [hmember] at hvalue
        cases hvalue
    | some new =>
      have hnew := ha new hmember
      rw [announce, bind_eq_ok] at hnew
      obtain ⟨a, ha, hwrite⟩ := hnew
      have hslot := announcement_slot ha
      refine ⟨Function.update f a.slot a, fun value hvalue => ?_⟩
      rcases sent_signed.1 hvalue with hvalue | hvalue
      · obtain ⟨s, hs, hwrite', hpast⟩ := hf value hvalue
        refine ⟨s, ?_⟩
        have hsame : Function.update f a.slot a s = f s := by
          by_cases heq : s = a.slot
          · have hnow : announcement sha256 cfg n.mem = .ok (f s) :=
              hpast.resolve_left (by rw [heq, hslot]; exact Nat.lt_irrefl _)
            rw [heq, Function.update_self, ← heq]
            exact Except.ok.inj (ha.symm.trans hnow)
          · exact Function.update_of_ne heq _ _
        rw [hsame]
        exact ⟨hs, hwrite', hpast⟩
      · rw [hmember, Option.some.injEq] at hvalue
        refine ⟨a.slot, ?_⟩
        rw [Function.update_self]
        exact ⟨rfl, hvalue ▸ hwrite, .inr ha⟩
  later := by
    rw [durable_event]
    exact h.later

end

theorem move {T : Json → Prop} {m : Process} {l : Label} (h : Consistent sha256 cfg D n)
    (hm : Move sha256 cfg D T n l m) : Consistent sha256 cfg D m := by
  have hmem := h.of_later hm.later
  cases hm with
  | @process raw e hT hcheck =>
    have hsaved := hmem.save.processed (e := e)
    rwa [append_assoc, singleton_append] at hsaved
  | importSaved => exact hmem.save
  | sign hdisk hannounces => exact h.sign hdisk hannounces
  | save => exact h.save
  | hear | pass | observe | importUnsaved | next => exact hmem

theorem restart {st : NodeState} (h : Consistent sha256 cfg D n)
    (hload : reload sha256 cfg n.log = .ok st) : Consistent sha256 cfg D ⟨st, n.log⟩ where
  history := h.history
  later := by
    rw [reload_eq_ok hload]
    exact Later.refl _

end Consistent

variable {ok : StepCondition}

theorem Reachable.history (h : Reachable sha256 cfg D ok n) :
    ∃ f : Nat → Announcement, ∀ value, Sent n.log value →
      ∃ s, (f s).slot = s ∧ D.write (f s) = .ok value := by
  have hconsistent : Consistent sha256 cfg D n := Run.induct (fun _ _ _ hm hn => hn.move hm)
    (fun _ _ hload hn => hn.restart hload) h Consistent.start
  obtain ⟨f, hf⟩ := hconsistent.history
  refine ⟨f, fun value hvalue => ?_⟩
  obtain ⟨s, hs, hwrite, -⟩ := hf value hvalue
  exact ⟨s, hs, hwrite⟩

/-- Announcements for the same slot have the same commitment and tip. -/
def AgreeOnSlots (log : List (Entry NodeState Event)) : Prop :=
  ∀ value value', Sent log value → Sent log value' →
    subscript value (ascii "slot") = subscript value' (ascii "slot") →
    subscript value (ascii "state_commitment_sha256") =
        subscript value' (ascii "state_commitment_sha256") ∧
      subscript value (ascii "selected_tip_share_id") =
        subscript value' (ascii "selected_tip_share_id")

theorem Reachable.agreeOnSlots
    (hslot : ∀ a value, D.write a = .ok value →
      subscript value (ascii "slot") = .ok (.int a.slot)) (h : Reachable sha256 cfg D ok n) :
    AgreeOnSlots n.log := by
  obtain ⟨f, hf⟩ := Reachable.history h
  intro value value' hvalue hvalue' heq
  obtain ⟨s, hs, hwrite⟩ := hf value hvalue
  obtain ⟨s', hs', hwrite'⟩ := hf value' hvalue'
  rw [hslot _ _ hwrite, hslot _ _ hwrite', hs, hs', Except.ok.injEq, Json.int.injEq] at heq
  obtain rfl : s = s' := Int.ofNat.inj heq
  obtain rfl := Except.ok.inj (hwrite.symm.trans hwrite')
  exact ⟨rfl, rfl⟩

/-! ## What a node remembers -/

section Provenance

variable {origin : Envelope → Text → Json → Prop} {against : Envelope → Text → Json → Json → Prop}

/-- Everything remembered of a peer comes from envelopes of that peer: `origin` relates an
envelope to the record it leaves under a key, and `against` to the evidence it gives together with
an earlier record. -/
structure Provenance (origin : Envelope → Text → Json → Prop)
    (against : Envelope → Text → Json → Json → Prop) (es : List Event) (st : NodeState) :
    Prop where
  records : ∀ entry ∈ st.announcements.entries, ∀ item ∈ entry.2.entries,
    ∃ e, .processed e ∈ es ∧ e.sender = entry.1 ∧ origin e item.1 item.2
  evidence : ∀ item ∈ st.equivocations, ∃ e e' key record, .processed e ∈ es ∧
    .processed e' ∈ es ∧ e'.sender = e.sender ∧ origin e' key record ∧ against e key record item

/-- What observing an envelope remembers. -/
def Traceable (D : Dialect) (origin : Envelope → Text → Json → Prop)
    (against : Envelope → Text → Json → Json → Prop) : Prop :=
  ∀ st e st', D.observe st e = .ok st' → st' = st ∨ ∃ key record conflict,
    Remembered st e.sender key record conflict st' ∧ origin e key record ∧
      ∀ previous evidence, conflict previous = .ok (some evidence) →
        against e key previous evidence.json

namespace Provenance

variable {es : List Event} {st : NodeState}

theorem empty : Provenance origin against es emptyState where
  records _ h := absurd h not_mem_nil
  evidence _ h := absurd h not_mem_nil

theorem mono {es' : List Event} (h : Provenance origin against es st)
    (hsub : ∀ e, e ∈ es → e ∈ es') : Provenance origin against es' st where
  records entry hentry item hitem := by
    obtain ⟨e, he, hsender, horigin⟩ := h.records entry hentry item hitem
    exact ⟨e, hsub _ he, hsender, horigin⟩
  evidence item hitem := by
    obtain ⟨e, e', key, record, he, he', hsame, horigin, hagainst⟩ := h.evidence item hitem
    exact ⟨e, e', key, record, hsub _ he, hsub _ he', hsame, horigin, hagainst⟩

variable {st' : NodeState}

theorem congr (h : Provenance origin against es st) (hann : st'.announcements = st.announcements)
    (hev : st'.equivocations = st.equivocations) : Provenance origin against es st' where
  records := hann ▸ h.records
  evidence := hev ▸ h.evidence

theorem slotsOf (h : Provenance origin against es st) (sender : Text) :
    ∀ item ∈ (st.slotsOf sender).entries,
      ∃ e, .processed e ∈ es ∧ e.sender = sender ∧ origin e item.1 item.2 := by
  rw [NodeState.slotsOf]
  cases hget : st.announcements.get? sender with
  | none => exact fun _ hitem => absurd hitem not_mem_nil
  | some slots => exact h.records (sender, slots) (Dict.get?_eq_some_iff.1 hget)

theorem remembered {e : Envelope} {key : Text} {record : Json}
    {conflict : Json → Except Exn (Option Evidence)} (h : Provenance origin against es st)
    (he : .processed e ∈ es) (horigin : origin e key record)
    (hagainst : ∀ previous evidence, conflict previous = .ok (some evidence) →
      against e key previous evidence.json) (hr : Remembered st e.sender key record conflict st') :
    Provenance origin against es st' := by
  cases hr with
  | same => exact h
  | new hslots =>
    refine { h with records := fun entry hentry item hitem => ?_ }
    rcases Dict.mem_entries_set.1 hentry with rfl | ⟨hentry, -⟩
    · rcases Dict.mem_entries_set.1 hitem with rfl | ⟨hitem, -⟩
      · exact ⟨e, he, rfl, horigin⟩
      · exact h.slotsOf e.sender item (hslots item hitem)
    · exact h.records entry hentry item hitem
  | @evidence previous evidence hprevious hconflict =>
    refine { h with evidence := fun item hitem => ?_ }
    rcases mem_append.1 hitem with hitem | hitem
    · exact h.evidence item hitem
    · obtain rfl := mem_singleton.1 hitem
      obtain ⟨e', he', hsender, horigin'⟩ :=
        h.slotsOf e.sender (key, previous) (Dict.get?_eq_some_iff.1 hprevious)
      exact ⟨e, e', key, previous, he, he', hsender, horigin', hagainst _ _ hconflict⟩

theorem move {T : Json → Prop} {n m : Process} {l : Label} (hD : Traceable D origin against)
    (h : Provenance origin against (events n.log) n.mem) (hm : Move sha256 cfg D T n l m) :
    Provenance origin against (events n.log) m.mem := by
  have himport : ∀ {shares summary st'},
      importShares sha256 cfg n.mem shares = .ok (summary, st') →
      Provenance origin against (events n.log) st' := by
    intro shares summary st' himport
    obtain ⟨l, -, -, -, hchanges, -⟩ := importShares_eq_ok himport
    exact h.congr hchanges.frame.announcements hchanges.frame.equivocations
  cases hm with
  | observe he hobserve =>
    rcases hD _ _ _ hobserve with rfl | ⟨key, record, conflict, hr, horigin, hagainst⟩
    · exact h
    · exact h.remembered he horigin hagainst hr
  | importUnsaved h => exact himport h
  | importSaved h => exact himport h
  | hear | process | pass | next | sign | save => exact h.congr rfl rfl

end Provenance

/-- Everything a node remembers or has written comes from envelopes it has processed. -/
theorem Reachable.provenance (hD : Traceable D origin against) {ok : StepCondition} {n : Process}
    (h : Reachable sha256 cfg D ok n) :
    ∀ st, st = n.mem ∨ .saved st ∈ n.log → Provenance origin against (events n.log) st := by
  refine Run.induct (I := fun n => ∀ st, st = n.mem ∨ .saved st ∈ n.log →
    Provenance origin against (events n.log) st) ?_ ?_ h ?_
  · intro n l m hm hn st hst
    have hsub : ∀ e, e ∈ events n.log → e ∈ events m.log := fun e he =>
      (hm.log_prefix.sublist.filterMap _).subset he
    have hmem := ((hn n.mem (.inl rfl)).move hD hm).mono hsub
    obtain ⟨added, hlog, hadded⟩ := hm.exists_append
    rcases hst with rfl | hst
    · exact hmem
    · rw [hlog, mem_append] at hst
      rcases hst with hst | hst
      · exact (hn st (.inr hst)).mono hsub
      · exact hadded st hst ▸ hmem
  · intro n st hload hn st' hst'
    rcases hst' with rfl | hst'
    · obtain rfl := reload_eq_ok hload
      rcases durable_cases emptyState n.log with hnone | hsaved
      · rw [hnone]
        exact Provenance.empty
      · exact hn _ (.inr hsaved)
    · exact hn st' (.inr hst')
  · intro st hst
    rcases hst with rfl | hst
    · exact Provenance.empty
    · exact absurd hst not_mem_nil

end Provenance

end Soveroot.Sync
