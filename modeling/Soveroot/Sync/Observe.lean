import Soveroot.Sync.Node

/-!
# What a node remembers of its peers

`Remembered` lists what observing an announcement can do to the state: nothing, a new record for a
slot of the peer, or new evidence of equivocation. Every kind of node observes through
`rememberAnnouncement`. `labnet` is the dialect of `ShareSyncNode` itself.
-/

namespace Soveroot.Sync

open Py Check

/-! ## Room for a slot -/

theorem foldl_choose_mem {α : Type} (p : α → α → Prop) [DecidableRel p] (rest : List α)
    (first : α) : rest.foldl (fun best item => if p item best then item else best) first ∈
      first :: rest := by
  induction rest generalizing first with
  | nil => exact List.mem_cons_self
  | cons item rest ih =>
    rw [List.foldl_cons]
    split_ifs
    · exact List.mem_cons_of_mem _ (ih item)
    · rcases List.mem_cons.1 (ih first) with h | h
      · rw [h]
        exact List.mem_cons_self
      · exact List.mem_cons_of_mem _ (List.mem_cons_of_mem _ h)

theorem oldestSlot_mem {slots : Dict Text Json} {key : Text} {n : Nat}
    (h : oldestSlot slots = .ok (key, n)) : key ∈ slots.keys := by
  rw [oldestSlot, bind_eq_ok] at h
  obtain ⟨numbered, hnumbered, h⟩ := h
  have hkeys : ∀ e ∈ numbered, e.1 ∈ slots.keys := by
    intro e he
    obtain ⟨k, hk, hek⟩ := mem_of_mapM_eq_ok hnumbered he
    simp only [bind_eq_ok, pure_eq_ok, Except.ok.injEq] at hek
    obtain ⟨m, -, rfl⟩ := hek
    exact hk
  cases numbered with
  | nil => cases h
  | cons first rest =>
    have hmem := foldl_choose_mem (fun item best : Text × Nat => item.2 < best.2) rest first
    rw [Except.ok.inj h] at hmem
    exact hkeys _ hmem

/-! ## Observing -/

/-- What observing an announcement does. -/
inductive Remembered (st : NodeState) (sender key : Text) (record : Json)
    (conflict : Json → Except Exn (Option Evidence)) : NodeState → Prop where
  | same : Remembered st sender key record conflict st
  | new {slots : Dict Text Json} (hslots : ∀ e ∈ slots.entries, e ∈ (st.slotsOf sender).entries)
      (hsize : slots.size < maxAnnouncementSlotsPerPeer ∨
        slots.size < (st.slotsOf sender).size) :
      Remembered st sender key record conflict
        { st with announcements := st.announcements.set sender (slots.set key record) }
  | evidence {previous : Json} {evidence : Evidence}
      (hprevious : (st.slotsOf sender).get? key = some previous)
      (hconflict : conflict previous = .ok (some evidence))
      (hlt : st.equivocations.length < maxEquivocations) :
      Remembered st sender key record conflict
        { st with equivocations := st.equivocations ++ [evidence.json] }

variable {st st' : NodeState} {sender key : Text} {slot : Int} {record : Json}
  {conflict : Json → Except Exn (Option Evidence)}

theorem rememberNew_remembered (h : rememberNew st sender key slot record = .ok st') :
    Remembered st sender key record conflict st' := by
  rw [rememberNew] at h
  split_ifs at h with hlt
  · obtain rfl := Except.ok.inj h
    exact .new (fun _ he => he) (.inl hlt)
  · simp only [bind_eq_ok] at h
    obtain ⟨⟨oldest, number⟩, hold, h⟩ := h
    split_ifs at h with hle
    · obtain rfl := Except.ok.inj h
      exact .same
    · obtain rfl := Except.ok.inj h
      refine .new (fun e he => ?_) (.inr (Dict.size_erase_lt (oldestSlot_mem hold)))
      exact (List.mem_filter.1 he).1

theorem rememberAnnouncement_remembered
    (h : rememberAnnouncement st sender key slot record conflict = .ok st') :
    Remembered st sender key record conflict st' := by
  rw [rememberAnnouncement] at h
  split at h
  · exact rememberNew_remembered h
  · exact rememberNew_remembered h
  · next previous _ hprevious =>
      rw [bind_eq_ok] at h
      obtain ⟨result, hresult, h⟩ := h
      cases result with
      | none =>
        obtain rfl := Except.ok.inj h
        exact .same
      | some evidence =>
        simp only [keepEvidence, bind_eq_ok, require_eq_ok, exists_const] at h
        obtain ⟨hlt, known, -, h⟩ := h
        split_ifs at h
        · obtain rfl := Except.ok.inj h
          exact .same
        · obtain rfl := Except.ok.inj h
          exact .evidence hprevious hresult hlt

theorem Remembered.frame (h : Remembered st sender key record conflict st') :
    ObserveFrame st st' := by
  cases h with
  | same | new | evidence => exact ⟨rfl, rfl, rfl, rfl, rfl, rfl⟩

/-! ## The node of the labnet -/

variable {sha256 : HashFn} {e : Envelope}

theorem observeAnnouncement_observed (h : observeAnnouncement sha256 st e = .ok st') :
    st' = st ∨ ∃ value fields n, Json.member e.payload (ascii "announcement") = some value ∧
      Json.record? AnnouncementField value = some fields ∧
      (fields .slot).asIntOrBool = some n ∧ 0 ≤ n ∧
      Remembered st e.sender (slotText (fields .slot)) (announcementRecord fields e)
        (announcementConflict sha256 e.sender fields (announcementRecord fields e)) st' := by
  rw [observeAnnouncement] at h
  split at h
  · exact .inl (Except.ok.inj h).symm
  · exact .inl (Except.ok.inj h).symm
  · next value _ hvalue =>
      simp only [bind_eq_ok, orRaise_eq_ok, Option.filter_eq_some_iff, decide_eq_true_eq] at h
      obtain ⟨fields, hfields, n, ⟨hslot, hn⟩, _, -, _, -, h⟩ := h
      exact .inr ⟨value, fields, n, hvalue, hfields, hslot, hn,
        rememberAnnouncement_remembered h⟩

/-- The dialect of `ShareSyncNode`. -/
def labnet (sha256 : HashFn) (addFloat : Json → Json → Except Exn Json) : Dialect where
  write a := pure a.toJson
  observe := observeAnnouncement sha256
  unknownPeer := .syncError .unknownPeer "sync target is absent from the pinned peer table"
  status := []
  addFloat := addFloat
  observe_frame st e st' h := by
    rcases observeAnnouncement_observed h with rfl | ⟨_, _, _, -, -, -, -, hremembered⟩
    · exact ⟨rfl, rfl, rfl, rfl, rfl, rfl⟩
    · exact hremembered.frame

end Soveroot.Sync
