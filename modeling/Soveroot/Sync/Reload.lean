import Soveroot.Sync.Changes
import Soveroot.Sync.Machine

/-!
# Reading the state file back

`Loadable` lists what `_load_state` asks of a state that `_save` wrote: the file of a state loads
exactly when the state is `Loadable`, and then to that state (`loadState_toJson`). So a property of
states that every move keeps is never lost (`Reachable.states`).
-/

namespace Soveroot.Sync

open Py Check Journal Option Dict

variable {sha256 : HashFn} {cfg : Config}

/-- What the loader asks of a sequence table. -/
structure SequencesOk (cfg : Config) (d : Dict Text Nat) : Prop where
  routes : ∀ e ∈ d.entries, e.1 = controlId ∨ e.1 ∈ cfg.peers.keys
  range : ∀ e ∈ d.entries, 0 < e.2 ∧ e.2 < 9223372036854775808

/-- What the loader asks of the announcements of a peer. -/
structure SlotsOk (slots : Dict Text Json) : Prop where
  size_le : slots.size ≤ maxAnnouncementSlotsPerPeer
  decimal : ∀ e ∈ slots.entries, isDecimal e.1 = true
  record_le : ∀ e ∈ slots.entries, e.2.canonicalBytes.length ≤ maxMessageBytes * 2

/-- What the loader asks of a state. -/
structure Loadable (sha256 : HashFn) (cfg : Config) (st : NodeState) : Prop where
  graph : st.acceptedShares = [] ∨ GraphOk sha256 cfg st.acceptedShares
  orphans_le : st.orphans.length ≤ maxOrphans
  orphans : ∀ o ∈ st.orphans, ValidShare sha256 cfg.roundIndex o.share ∧ o.arrivalTick ≤ st.tick
  known_le : st.known.length ≤ maxKnownShares
  distinct : Distinct st.known
  inbound : SequencesOk cfg st.inboundSequences
  outbound : SequencesOk cfg st.outboundSequences
  announcementPeers : ∀ e ∈ st.announcements.entries, e.1 ∈ cfg.peers.keys
  slots : ∀ e ∈ st.announcements.entries, SlotsOk e.2
  equivocations_le : st.equivocations.length ≤ maxEquivocations
  rejections_le : st.rejectionCounts.size ≤ 64

/-! ## The parts of the file -/

variable {e : Exn}

theorem readNat_int {p : Int → Bool} (n n' : Nat) :
    readNat p e (.int n) = .ok n' ↔ n' = n ∧ p n = true := by
  simp only [readNat, bind_eq_ok, orRaise_eq_ok, filter_eq_some_iff, Json.asInt_eq_some,
    pure_eq_ok, Except.ok.injEq, Json.int.injEq]
  constructor
  · rintro ⟨i, ⟨rfl, hp⟩, rfl⟩
    exact ⟨Int.toNat_natCast n, hp⟩
  · rintro ⟨rfl, hp⟩
    exact ⟨n', ⟨rfl, hp⟩, Int.toNat_natCast n'⟩

variable {α : Type} {g : α → Json} {f : Json → Except Exn α} {P : α → Prop}

theorem readEntry_write (h : ∀ a a', f (g a) = .ok a' ↔ a' = a ∧ P a) (e e' : Text × α) :
    readEntry f (e.1, g e.2) = .ok e' ↔ e' = e ∧ P e.2 := by
  simp only [readEntry, bind_eq_ok, h, pure_eq_ok, Except.ok.injEq]
  constructor
  · rintro ⟨v, ⟨rfl, hv⟩, rfl⟩
    exact ⟨rfl, hv⟩
  · rintro ⟨rfl, hv⟩
    exact ⟨e'.2, ⟨rfl, hv⟩, rfl⟩

variable {d : Dict Text α}

theorem readDict_write (h : ∀ a a', f (g a) = .ok a' ↔ a' = a ∧ P a) {d' : Dict Text α} :
    readDict f (d.entries.map fun e => (e.1, g e.2)) = .ok d' ↔
      d' = d ∧ ∀ e ∈ d.entries, P e.2 := by
  rw [readDict, bind_eq_ok]
  simp only [mapM_map_eq_ok (g := fun e : Text × α => (e.1, g e.2)) (readEntry_write h),
    pure_eq_ok, Except.ok.injEq]
  constructor
  · rintro ⟨entries, ⟨rfl, hall⟩, rfl⟩
    exact ⟨ofList_entries d, hall⟩
  · rintro ⟨rfl, hall⟩
    exact ⟨d'.entries, ⟨rfl, hall⟩, ofList_entries d'⟩

theorem asObj_dictJson (g : α → Json) (d : Dict Text α) :
    (dictJson g d).asObj = some (d.entries.map fun e => (e.1, g e.2)) := rfl

theorem orRaise_rows {p : Fields → Bool} {rows : Fields} :
    orRaise ((dictJson g d).asObj.filter p) e = .ok rows ↔
      rows = d.entries.map (fun e => (e.1, g e.2)) ∧ p rows = true := by
  rw [orRaise_eq_ok, filter_eq_some_iff, asObj_dictJson, Option.some.injEq, eq_comm]

theorem all_rows {p : Text → Bool} :
    ((d.entries.map fun e => (e.1, g e.2)).all fun e => p e.1) = true ↔
      ∀ e ∈ d.entries, p e.1 = true := by
  rw [List.all_map, List.all_eq_true]
  rfl

theorem loadSequences_dictJson {d d' : Dict Text Nat} :
    loadSequences cfg (dictJson (fun n : Nat => .int n) d) = .ok d' ↔
      d' = d ∧ SequencesOk cfg d := by
  have hroute : ∀ id : Text, (cfg.peers.contains id || decide (id = controlId)) = true ↔
      id = controlId ∨ id ∈ cfg.peers.keys := by
    intro id
    rw [Bool.or_eq_true, contains_iff, decide_eq_true_eq, or_comm]
  have hrows := fun d : Dict Text Nat => all_rows (g := fun n : Nat => Json.int n) (d := d)
    (p := fun id => cfg.peers.contains id || decide (id = controlId))
  have hread := fun n n' => readNat_int (p := fun n => decide (0 < n ∧ n < 9223372036854775808))
    (e := .syncError .stateSequences "persisted sequence values are invalid") n n'
  rw [loadSequences, bind_eq_ok]
  simp only [orRaise_rows]
  constructor
  · rintro ⟨rows, ⟨rfl, hroutes⟩, hvalues⟩
    obtain ⟨rfl, hrange⟩ := (readDict_write hread).1 hvalues
    refine ⟨rfl, fun e he => (hroute _).1 ((hrows _).1 hroutes e he), fun e he => ?_⟩
    simpa using hrange e he
  · rintro ⟨rfl, hok⟩
    refine ⟨_, ⟨rfl, (hrows _).2 fun e he => (hroute _).2 (hok.routes e he)⟩,
      (readDict_write hread).2 ⟨rfl, fun e he => ?_⟩⟩
    simpa using hok.range e he

theorem loadSlots_dictJson (slots slots' : Dict Text Json) :
    loadSlots (dictJson id slots) = .ok slots' ↔ slots' = slots ∧ SlotsOk slots := by
  have hrows : slots.entries.map (fun e => (e.1, id e.2)) = slots.entries := by simp
  simp only [loadSlots, bind_eq_ok, orRaise_rows, require_eq_ok, exists_const, pure_eq_ok,
    Except.ok.injEq, hrows, List.all_eq_true, decide_eq_true_eq]
  constructor
  · rintro ⟨rows, ⟨rfl, hlen⟩, hdecimal, hrecord, rfl⟩
    exact ⟨ofList_entries slots, hlen, hdecimal, hrecord⟩
  · rintro ⟨rfl, hok⟩
    exact ⟨_, ⟨rfl, hok.size_le⟩, hok.decimal, hok.record_le, ofList_entries slots'⟩

theorem loadOrphan_toJson {tick : Nat} (o o' : Orphan) :
    loadOrphan sha256 cfg tick o.toJson = .ok o' ↔
      o' = o ∧ ValidShare sha256 cfg.roundIndex o.share ∧ o.arrivalTick ≤ tick := by
  simp only [loadOrphan, Orphan.toJson, Json.record?_ofRecord, orRaise_some, ok_bind, bind_eq_ok,
    validateShare_toJson, readNat_int, pure_eq_ok, Except.ok.injEq, decide_eq_true_eq]
  constructor
  · rintro ⟨share, ⟨rfl, hv⟩, arrival, ⟨rfl, -, hle⟩, rfl⟩
    exact ⟨rfl, hv, by omega⟩
  · rintro ⟨rfl, hv, hle⟩
    exact ⟨o'.share, ⟨rfl, hv⟩, o'.arrivalTick, ⟨rfl, by omega, by omega⟩, rfl⟩

theorem loadAccepted_documents {l l' : List Share} :
    (∃ graph, validateGraphPair sha256 cfg (documents l) = .ok graph) ∧
        (documents l).mapM (fun v => validateShare sha256 v cfg.roundIndex) = .ok l' ↔
      l' = l ∧ (l = [] ∨ GraphOk sha256 cfg l) := by
  have hmap : (documents l).mapM (fun v => validateShare sha256 v cfg.roundIndex) = .ok l' ↔
      l' = l ∧ ∀ s ∈ l, ValidShare sha256 cfg.roundIndex s :=
    mapM_map_eq_ok fun _ _ => validateShare_toJson
  rw [hmap]
  constructor
  · rintro ⟨⟨graph, hgraph⟩, rfl, -⟩
    refine ⟨rfl, ?_⟩
    by_cases hne : l' = []
    · exact .inl hne
    · rcases validateGraphPair_cases sha256 cfg hne with ⟨hg, -⟩ | ⟨-, _, _, herror⟩
      · exact .inr hg
      · rw [hgraph] at herror
        cases herror
  · rintro ⟨rfl, hg⟩
    refine ⟨validateGraphPair_isOk hg, rfl, ?_⟩
    rcases hg with rfl | hg
    · simp
    · exact hg.valid

/-! ## The file -/

variable {st : NodeState}

/-- The file of a state loads exactly when the state is loadable, and then to that state. -/
theorem loadState_toJson {st' : NodeState} :
    loadState sha256 cfg (st.toJson cfg) = .ok st' ↔ st' = st ∧ Loadable sha256 cfg st := by
  have htick : orRaise ((Json.int st.tick).asIntOrBool.filter fun n => 0 ≤ n)
      (Exn.syncError .stateTick "persisted tick is invalid") = .ok (st.tick : Int) := by
    rw [orRaise_eq_ok, filter_eq_some_iff]
    exact ⟨rfl, by simp⟩
  have hpeers := all_rows (g := dictJson id) (d := st.announcements) (p := cfg.peers.contains)
  have hcounts := fun n n' => readNat_int (p := fun n => decide (0 ≤ n))
    (e := .syncError .stateRejections "persisted rejection counters are invalid") n n'
  simp only [loadState, NodeState.toJson, Json.record?_ofRecord, orRaise_some, ok_bind, htick,
    Json.asArr, Int.toNat_natCast, bind_eq_ok, require_eq_ok, exists_const, orRaise_eq_ok,
    filter_eq_some_iff, Option.some.injEq, decide_eq_true_eq,
    loadSequences_dictJson, pure_eq_ok, Except.ok.injEq]
  constructor
  · rintro ⟨-, graph, hgraph, accepted, haccepted, rows, ⟨rfl, horphans⟩, orphans, hload,
      hknown, hids, hworks, inbound, ⟨rfl, hin⟩, outbound, ⟨rfl, hout⟩, peerRows, ⟨hrows, hkeys⟩,
      announcements, hannouncements, evidence, ⟨rfl, hevidence⟩, counts, ⟨hcountRows, hsize⟩,
      rejections, hrejections, rfl⟩
    obtain ⟨rfl, hok⟩ := loadAccepted_documents.1 ⟨⟨graph, hgraph⟩, haccepted⟩
    obtain ⟨rfl, hall⟩ := (mapM_map_eq_ok loadOrphan_toJson).1 hload
    rw [asObj_dictJson, Option.some.injEq] at hrows hcountRows
    subst hrows hcountRows
    obtain ⟨rfl, hslots⟩ := (readDict_write loadSlots_dictJson).1 hannouncements
    obtain ⟨rfl, -⟩ := (readDict_write hcounts).1 hrejections
    rw [List.length_map] at horphans hsize
    refine ⟨rfl, hok, horphans, hall, hknown, ⟨hids, hworks⟩, hin, hout, fun e he => ?_, hslots,
      hevidence, hsize⟩
    exact contains_iff.1 (hpeers.1 hkeys e he)
  · rintro ⟨rfl, hok⟩
    obtain ⟨⟨graph, hgraph⟩, haccepted⟩ := loadAccepted_documents.2 ⟨rfl, hok.graph⟩
    refine ⟨⟨Json.isText_iff.2 rfl, Json.isText_iff.2 rfl⟩, graph, hgraph, _, haccepted, _,
      ⟨rfl, ?_⟩, _, (mapM_map_eq_ok loadOrphan_toJson).2 ⟨rfl, hok.orphans⟩, hok.known_le,
      hok.distinct.1, hok.distinct.2, _, ⟨rfl, hok.inbound⟩, _, ⟨rfl, hok.outbound⟩, _,
      ⟨asObj_dictJson _ _, ?_⟩, _, (readDict_write loadSlots_dictJson).2 ⟨rfl, hok.slots⟩, _,
      ⟨rfl, hok.equivocations_le⟩, _, ⟨asObj_dictJson _ _, ?_⟩, _,
      (readDict_write hcounts).2 ⟨rfl, fun e _ => by simp⟩, rfl⟩
    · rw [List.length_map]
      exact hok.orphans_le
    · exact hpeers.2 fun e he => contains_iff.2 (hok.announcementPeers e he)
    · rw [List.length_map]
      exact hok.rejections_le

theorem reload_eq_ok {log : List (Entry NodeState Event)} (h : reload sha256 cfg log = .ok st) :
    st = durable emptyState log := by
  rw [reload] at h
  rw [durable]
  cases hdisk : disk log with
  | none =>
    rw [hdisk] at h
    exact (Except.ok.inj h).symm
  | some saved =>
    rw [hdisk] at h
    exact (loadState_toJson.1 h).1

/-- What holds of the empty state and is kept by every move holds of every state a node has in
memory or has written. -/
theorem Reachable.states {D : Dialect} {ok : StepCondition} {P : NodeState → Prop}
    (hempty : P emptyState)
    (hmove : ∀ n l m, Move sha256 cfg D (fun _ => True) n l m → P n.mem → P m.mem)
    {n : Process} (h : Reachable sha256 cfg D ok n) :
    P n.mem ∧ ∀ st, .saved st ∈ n.log → P st := by
  refine Run.induct (I := fun n => P n.mem ∧ ∀ st, .saved st ∈ n.log → P st) ?_ ?_ h
    ⟨hempty, fun _ hst => absurd hst List.not_mem_nil⟩
  · intro n l m hm hn
    have hmem := hmove n l m hm hn.1
    obtain ⟨added, hlog, hadded⟩ := hm.exists_append
    refine ⟨hmem, fun st hst => ?_⟩
    rw [hlog, List.mem_append] at hst
    rcases hst with hst | hst
    · exact hn.2 st hst
    · exact hadded st hst ▸ hmem
  · intro n st hload hn
    obtain rfl := reload_eq_ok hload
    refine ⟨?_, hn.2⟩
    rcases durable_cases emptyState n.log with hnone | hsaved
    · rw [hnone]
      exact hempty
    · exact hn.2 _ hsaved

end Soveroot.Sync
