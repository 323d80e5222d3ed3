import Soveroot.TxRequest.Time

/-!
# The calls that report events

Each call other than `GetRequestable` keeps the invariant, ends, and shows what the specification
says.
-/

namespace Soveroot.TxRequest.Tracker

open SortedView List Option

variable {computer : Computer} {t t' t₁ : Tracker} {it : Announcement} {peer : NodeId}
    {txhash : TxHash}

/-! ## Finding an announcement -/

theorem rowStep_refl (hi : Inv computer t) (h : TxHash) : RowStep computer h (rows t.index h) t t :=
  ⟨hi, rfl, rfl, fun _ _ => Iff.rfl⟩

theorem find_spec {best : Bool} (h : t.find peer best txhash = some it) :
    it ∈ t.index ∧ it.peer = peer ∧ it.hash = txhash ∧
      decide (it.state = .candidateBest) = best := by
  have hprop := find?_some h
  grind [mem_of_find?_eq_some h]

theorem rows_of_find_none (h : t.find peer false txhash = none)
    (h' : t.find peer true txhash = none) :
    rows t.index txhash peer = none := by
  rw [rows_eq_none]
  intro a ha
  have := find?_eq_none.1 h a ha
  grind [find?_eq_none.1 h' a ha]

/-! ## Responses -/

theorem receivedResponse_spec (hi : Inv computer t) (peer : NodeId) (txhash : TxHash) :
    RowStep computer txhash ((rows t.index txhash).failing fun p _ => p = peer) t
      (t.receivedResponse computer peer txhash) := by
  have hu := hi.sane.unique
  cases hfind : (t.find peer false txhash).or (t.find peer true txhash) with
  | none =>
    obtain ⟨h, h'⟩ := or_eq_none_iff.1 hfind
    simp only [receivedResponse, hfind]
    rw [Row.failing_of_none (by grind [rows_of_find_none h h']), hi.settle]
    exact rowStep_refl hi txhash
  | some it =>
    obtain ⟨hit, rfl, rfl⟩ : it ∈ t.index ∧ it.peer = peer ∧ it.hash = txhash := by
      rcases or_eq_some_iff.1 hfind with h | ⟨-, h⟩ <;> grind [find_spec h]
    simp only [receivedResponse, hfind]
    by_cases hstate : it.state = .completed
    · have hfailed : (rows t.index it.hash).failing (fun p _ => p = it.peer) =
          rows t.index it.hash := by
        refine (Row.failing_of_failed fun p e he hp => ?_).trans (hi.settle _)
        grind [rows_of_mem hu hit]
      rw [hfailed, makeCompleted, if_pos hstate]
      exact rowStep_refl hi it.hash
    · obtain ⟨left, t', hmade, hstep, -⟩ := makeCompleted_spec hi hit hstate
      rwa [hmade]

/-! ## Forgetting -/

theorem forgetTxHash_spec (hi : Inv computer t) (txhash : TxHash) :
    RowStep computer txhash (fun _ => none) t (t.forgetTxHash computer txhash) := by
  have hsub : ((view (byTxHash computer) t.index).dropWhile
      fun a => byTxHash computer a < toLex (txhash, toLex (0, 0))).Sublist
        (view (byTxHash computer) t.index) :=
    dropWhile_sublist _
  have hnodup : (view (byTxHash computer) t.index).Nodup :=
    (perm_view _ _).nodup_iff.2 hi.sane.unique.nodup
  have hkey : ∀ a : Announcement, toLex (txhash, toLex (0, 0)) ≤ byTxHash computer a ↔
      txhash ≤ a.hash := by
    intro a
    rw [byTxHash, Prod.Lex.toLex_le_toLex, Prod.Lex.toLex_le_toLex, le_iff_lt_or_eq (a := txhash)]
    grind
  refine (eraseAll_spec hi ((hnodup.sublist hsub).sublist (takeWhile_sublist _)) fun x => ?_).1
  rw [mem_takeWhile_least (pairwise_of_sublist hsub fun a b h => (byTxHash_le h).1),
    mem_lowerBound, hkey]
  · grind
  · intro a ha
    rw [mem_lowerBound, hkey] at ha
    exact ha.2

/-! ## Announcements -/

theorem receivedInv_spec (hi : Inv computer t) (peer : NodeId) (gtxid : GenTxid) (preferred : Bool)
    (reqtime : Int) :
    (rows t.index gtxid.hash peer ≠ none ∧ t.receivedInv peer gtxid preferred reqtime = t) ∨
    (rows t.index gtxid.hash peer = none ∧
      Inv computer (t.receivedInv peer gtxid preferred reqtime) ∧
      (t.receivedInv peer gtxid preferred reqtime).currentSequence = t.currentSequence + 1 ∧
      ∀ h p, rows (t.receivedInv peer gtxid preferred reqtime).index h p =
        if h = gtxid.hash ∧
          p = peer then some ⟨gtxid, preferred, t.currentSequence % 2 ^ 59, .candidate reqtime⟩
        else rows t.index h p) := by
  have hu := hi.sane.unique
  by_cases hfound : ∃ best it, t.find peer best gtxid.hash = some it
  · obtain ⟨best, it, hfind⟩ := hfound
    obtain ⟨hit, rfl, hh, -⟩ := find_spec hfind
    refine .inl ⟨by rw [← hh, rows_of_mem hu hit]; simp, ?_⟩
    cases best <;> grind [receivedInv]
  right
  have hfind : ∀ best, t.find peer best gtxid.hash = none := fun best =>
    eq_none_iff_forall_ne_some.2 fun it h => hfound ⟨best, it, h⟩
  have hnone := rows_of_find_none (hfind false) (hfind true)
  have hdef : t.receivedInv peer gtxid preferred reqtime =
      { currentSequence := t.currentSequence + 1
        index := t.index ++
          [⟨gtxid, reqtime, peer, t.currentSequence % 2 ^ 59, preferred, .candidateDelayed⟩]
        peerinfo := Function.update t.peerinfo peer (some
          { (t.peerinfo peer).getD ⟨0, 0, 0⟩ with
            total := ((t.peerinfo peer).getD ⟨0, 0, 0⟩).total + 1 }) } := by
    simp [receivedInv, hfind]
  rw [hdef]
  generalize hnew :
    (⟨gtxid, reqtime, peer, t.currentSequence % 2 ^ 59, preferred, .candidateDelayed⟩ :
    Announcement) = new
  have hnewp : new.peer = peer := by rw [← hnew]
  have hnewh : new.hash = gtxid.hash := by rw [← hnew]; rfl
  have hnews : new.state = .candidateDelayed := by rw [← hnew]
  have hmem : ∀ a, a ∈ t.index ++ [new] ↔ a ∈ t.index ∨ a = new := by simp
  have hunique : Unique (t.index ++ [new]) := by
    rw [Unique, map_append, nodup_append]
    exact ⟨hu, by simp, by grind [Announcement.id, rows_eq_none.1 hnone]⟩
  obtain ⟨hselected, hready, hbest, -⟩ := hi.sane.group gtxid.hash
  refine ⟨hnone,
    ⟨hi.sane.of_group (h := gtxid.hash) hunique (by grind) ⟨by grind, fun a ha hah har =>
      ?_, by grind,
    fun _ _ _ => ⟨new, by grind, hnewh, by grind⟩⟩, ?_⟩, rfl, fun h p => ?_⟩
  · obtain ⟨b, hb, hbh, hbs⟩ := hready a (by grind) hah har
    exact ⟨b, by grind, hbh, hbs⟩
  · funext p
    show Function.update t.peerinfo peer _ p = recomputePeerInfo (t.index ++ [new]) p
    by_cases hp : p = peer
    · rw [hp, Function.update_self, hi.accounted.getD, recomputePeerInfo]
      simp [countP_append, hnewp, hnews]
    · rw [Function.update_of_ne hp, hi.accounted]
      symm
      apply recomputePeerInfo_congr
      intro q hq
      have hnot : q new = false := by grind
      simp [countP_append, hnot]
  · apply Option.ext
    intro e
    have hold := rows_eq_some hu (h := h) (p := p) (e := e)
    rw [rows_eq_some hunique]
    split
    · grind [rows_eq_none.1 hnone, Announcement.entry, Announcement.status]
    · rw [hold]
      exact exists_congr fun a => by grind

/-! ## Requests -/

/-- The announcement, requested. -/
def requestedUntil (expiry : Int) (a : Announcement) : Announcement :=
  { a with state := .requested, time := expiry }

section

variable (r : Int) (a : Announcement)

@[grind =] theorem hash_requestedUntil : (requestedUntil r a).hash = a.hash := rfl
@[grind =] theorem state_requestedUntil : (requestedUntil r a).state = .requested := rfl

@[grind =] theorem peer_requestedUntil : (requestedUntil r a).peer = a.peer := rfl

end

/-- A request, where the request it replaces, if any, is given up and no other announcement is
selected. -/
theorem request_spec {expiry : Int} (hi : Inv computer t) (hunique : Unique t₁.index)
    (haccounted : t₁.Accounted) (hsequence : t₁.currentSequence = t.currentSequence)
    (hother : ∀ a : Announcement, a.hash ≠ it.hash → (a ∈ t₁.index ↔ a ∈ t.index))
    (hit : it ∈ t.index)
    (hit₁ : it ∈ t₁.index) (hstate : it.state ≠ .requested ∧ it.state ≠ .completed)
    (hnone : ∀ a ∈ t₁.index, a.hash = it.hash → a ≠ it → ¬ a.IsSelected)
    (hrow : ∀ q, q ≠ it.peer →
      rows t₁.index it.hash q = (rows t.index it.hash q).map Entry.giveUp) :
    RowStep computer it.hash ((rows t.index it.hash).request it.peer expiry) t
      (t₁.modify it (requestedUntil expiry)) := by
  have hu' : Unique (t₁.modify it (requestedUntil expiry)).index := unique_modify rfl hunique
  have hnew : requestedUntil expiry it ∈ (t₁.modify it (requestedUntil expiry)).index := by grind
  refine ⟨⟨hi.sane.of_group (h := it.hash) hu' (by grind) ⟨by grind, fun _ _ _ _ =>
    ⟨_, hnew, rfl, .inr rfl⟩, by grind, fun _ _ _ => ⟨_, hnew, rfl, by simp [requestedUntil]⟩⟩,
      haccounted.modify hunique hit₁ rfl⟩, hsequence, ?_,
    by grind⟩
  rw [rows_modify hunique hit₁ rfl]
  funext p
  have hmem := rows_of_mem hi.sane.unique hit
  have hcandidate : ∃ e, rows t.index it.hash it.peer = some e ∧ e.IsCandidate :=
    ⟨_, hmem, it.time, by cases hs : it.state <;> grind⟩
  rw [Row.request, if_pos hcandidate]
  by_cases hp : p = it.peer
  · rw [hp, hmem]
    simp [Announcement.entry, Announcement.status, requestedUntil]
  · rw [if_neg hp, hrow p hp]
    simp [hp]

theorem map_giveUp_of_none (hunique : Unique t.index)
    (hnone : ∀ a ∈ t.index, a.hash = it.hash → a ≠ it → ¬ a.IsSelected)
    {q : NodeId} (hq : q ≠ it.peer) :
    rows t.index it.hash q = (rows t.index it.hash q).map Entry.giveUp := by
  cases hrow : rows t.index it.hash q with
  | none => rfl
  | some e =>
    obtain ⟨a, ha, hah, hap, rfl⟩ := (rows_eq_some hunique).1 hrow
    cases hs : a.state <;> grind

variable {a : Announcement}

theorem best_le_byTxHash :
    toLex (txhash, toLex (State.candidateBest.rank, 0)) ≤ byTxHash computer a ↔
      txhash < a.hash ∨ (txhash = a.hash ∧ 2 ≤ a.state.rank) := by
  rw [byTxHash, Prod.Lex.toLex_le_toLex, Prod.Lex.toLex_le_toLex]
  grind

theorem requestedTx_spec (hi : Inv computer t) (peer : NodeId) (txhash : TxHash) (expiry : Int) :
    RowStep computer txhash ((rows t.index txhash).request peer expiry) t
      (t.requestedTx computer peer txhash expiry) := by
  have hu := hi.sane.unique
  -- nothing else is selected, so nothing changes before the request
  have hplain : ∀ it ∈ t.index, it.state ≠ .requested ∧ it.state ≠ .completed →
      (∀ a ∈ t.index, a.hash = it.hash → a ≠ it → ¬ a.IsSelected) →
      RowStep computer it.hash ((rows t.index it.hash).request it.peer expiry) t
        (t.modify it (requestedUntil expiry)) := fun it hit hstate hnone =>
    request_spec hi hu hi.accounted rfl (fun _ _ => Iff.rfl) hit hit hstate hnone
      fun q hq => map_giveUp_of_none hu hnone hq
  cases hbest : t.find peer true txhash with
  | some it =>
    obtain ⟨hit, rfl, rfl, hstate⟩ := find_spec hbest
    obtain ⟨hselected, -, -, -⟩ := hi.sane.group it.hash
    simp only [requestedTx, hbest]
    exact hplain it hit (by grind) (by grind)
  | none =>
  cases hother : t.find peer false txhash with
  | none =>
    have hrow := rows_of_find_none hother hbest
    have hnot : ¬ ∃ e, rows t.index txhash peer = some e ∧ e.IsCandidate := by grind
    have hsame : (rows t.index txhash).request peer expiry = rows t.index txhash := by
      funext p
      rw [Row.request, if_neg hnot]
    simp only [requestedTx, hbest, hother, hsame]
    exact rowStep_refl hi txhash
  | some it =>
    obtain ⟨hit, rfl, rfl, hnotbest⟩ := find_spec hother
    obtain ⟨hselected, -, -, -⟩ := hi.sane.group it.hash
    by_cases hcond : it.state ≠ .candidateDelayed ∧ it.state ≠ .candidateReady
    · have hnot : ¬ ∃ e, rows t.index it.hash it.peer = some e ∧ e.IsCandidate := by
        rw [rows_of_mem hu hit]
        cases hs : it.state <;> grind [Entry.IsCandidate]
      have hsame : (rows t.index it.hash).request it.peer expiry = rows t.index it.hash := by
        funext p
        rw [Row.request, if_neg hnot]
      simp only [requestedTx, hbest, hother]
      rw [if_pos hcond, hsame]
      exact rowStep_refl hi it.hash
    have hstate : it.state ≠ .requested ∧ it.state ≠ .completed := by grind
    have hkey : ∀ a ∈ t.index, a.hash = it.hash → a.IsSelected →
        toLex (it.hash, toLex (State.candidateBest.rank, 0)) ≤ byTxHash computer a :=
          fun a _ hah hsel =>
      best_le_byTxHash.2 (by cases hs : a.state <;> grind)
    cases hold : ((view (byTxHash computer) t.index).dropWhile
        fun a =>
          byTxHash computer a < toLex (it.hash, toLex (State.candidateBest.rank, 0))).head? with
    | none =>
      simp only [requestedTx, hbest, hother, hold]
      rw [if_neg hcond]
      exact hplain it hit hstate fun a ha hah _ hsel =>
        head_lowerBound_eq_none hold a ha (hkey a ha hah hsel)
    | some old =>
      obtain ⟨holdmem, holdkey, hleast⟩ := head_lowerBound hold
      have hrank := best_le_byTxHash.1 holdkey
      have hle := fun a ha hah hsel => byTxHash_le (hleast a ha (hkey a ha hah hsel))
      -- the old announcement is the selected one, if there is one
      have hold' : ∀ a ∈ t.index, a.hash = it.hash → a.IsSelected → old.hash = it.hash ∧
          old.IsSelected := by
        intro a ha hah hsel
        have := hle a ha hah hsel
        cases hs : old.state <;> cases hs' : a.state <;> grind
      have hne : old.hash = it.hash → old ≠ it := by
        cases hs : it.state <;> grind
      -- it is given up before the request
      have hreplace : old.hash = it.hash → old.IsSelected → ∀ s, s = .candidateReady ∨
        s = .completed →
          (old.state = .candidateBest ↔ s = .candidateReady) →
          RowStep computer it.hash ((rows t.index it.hash).request it.peer expiry) t
            ((t.setState old s).modify it (requestedUntil expiry)) := by
        intro hhash hsel s hs hiff
        have hnone : ∀ a ∈ (t.setState old s).index, a.hash = it.hash → a ≠ it →
          ¬ a.IsSelected := by grind
        refine request_spec hi (unique_setState hu)
          (hi.accounted.setState hu holdmem _) rfl (by grind) hit
          (by grind) hstate hnone fun q hq => ?_
        rw [map_giveUp_of_none (unique_setState hu) hnone hq, setState, ← hhash,
          rows_modify hu holdmem rfl]
        by_cases hqold : q = old.peer
        · simp only [hqold, rows_of_mem hu holdmem]
          rcases hsel with h | h <;> rcases hs with rfl | rfl <;>
            simp_all [Announcement.entry, Announcement.status, Announcement.setState, Entry.giveUp,
              Entry.fail]
        · simp only [if_neg hqold]
      simp only [requestedTx, hbest, hother, hold]
      rw [if_neg hcond]
      split
      · exact hplain it hit hstate (by grind)
      · split
        · exact hreplace (by grind) (by grind) _ (.inl rfl) (by grind)
        · split
          · exact hreplace (by grind) (by grind) _ (.inr rfl) (by grind)
          · exact hplain it hit hstate (by grind)

/-! ## Disconnected peers -/

theorem erase_completed_spec (hi : Inv computer t) (hit : it ∈ t.index)
    (hstate : it.state = .completed) :
    RowStep computer it.hash ((rows t.index it.hash).disconnect it.peer) t (t.erase it) := by
  have hu := hi.sane.unique
  obtain ⟨hselected, hready, hbest, halive⟩ := hi.sane.group it.hash
  obtain ⟨x, hx, hxh, hxs⟩ := halive it hit rfl
  refine ⟨⟨hi.sane.of_group (h := it.hash) (unique_erase hu) (by grind)
    ⟨by grind, fun a ha hah har => ?_, by grind,
    fun _ _ _ => ⟨x, by grind, hxh, hxs⟩⟩, hi.accounted.erase hit⟩, rfl, ?_, by grind⟩
  · obtain ⟨b, hb, hbh, hbs⟩ := hready a (by grind) hah har
    exact ⟨b, by grind, hbh, hbs⟩
  · rw [rows_erase hu hit]
    refine (Row.settle_of_alive (p := x.peer) (e := x.entry) ?_ (by grind)).symm
    rw [if_neg (by grind [Announcement.id]), ← hxh, rows_of_mem hu hx]

variable {b : Announcement}

theorem byPeer_le (h : byPeer a ≤ byPeer b) : a.peer ≤ b.peer := by
  rw [byPeer, byPeer, Prod.Lex.toLex_le_toLex] at h
  grind

theorem byPeer_injective (hunique : Unique t.index) (ha : a ∈ t.index) (hb : b ∈ t.index)
    (h : byPeer a = byPeer b) : a = b := by
  simp only [byPeer, toLex_inj, Prod.mk.injEq] at h
  exact hunique.eq ha hb (by rw [Announcement.id, Announcement.id, h.1, h.2.2])

/-- The iterator of `DisconnectedPeer` is at the first announcement of the peer that is left. -/
def AtFirst (peer : NodeId) (t : Tracker) : Option Announcement → Prop
  | none => ∀ x ∈ t.index, x.peer ≠ peer
  | some it => it ∈ t.index ∧ ∀ x ∈ t.index, x.peer = peer → it.peer = peer ∧ byPeer it ≤ byPeer x

theorem atFirst_next (hunique : Unique t.index) (hfirst : AtFirst peer t (some it))
    (hpeer : it.peer = peer)
    (hother : ∀ a : Announcement, a.hash ≠ it.hash → (a ∈ t'.index ↔ a ∈ t.index))
    (hgone : ∀ a ∈ t'.index, a.hash = it.hash → a.peer ≠ peer) :
    AtFirst peer t' ((next byPeer t.index it).filter fun itNext => itNext.peer = peer) := by
  obtain ⟨hit, hleast⟩ := hfirst
  -- what is left of the peer stands after the first announcement
  have hafter : ∀ x ∈ t'.index, x.peer = peer → ∃ b, next byPeer t.index it = some b ∧
      byPeer b ≤ byPeer x := by
    intro x hx hxp
    have hx₀ : x ∈ t.index := by grind
    rcases beyond_neighbour byPeer hit hx₀ (by grind) with ⟨b, hb, hle⟩ | ⟨-, h⟩
    · have heq := byPeer_injective hunique hx₀ hit
        (le_antisymm (hle.trans (prev_le_key hit hb)) (hleast x hx₀ hxp).2)
      grind
    · exact h
  cases hnext : next byPeer t.index it with
  | none =>
    intro x hx hxp
    grind
  | some b =>
    have hbmem := next_mem hnext
    have hbit := next_ne hunique.nodup hit hnext
    have hge := byPeer_le (key_le_next hit hnext)
    by_cases hbp : b.peer = peer
    · rw [filter_some_pos (by simpa using hbp)]
      exact ⟨by grind [Announcement.id], by grind⟩
    · rw [filter_some_neg (by simpa using hbp)]
      intro x hx hxp
      obtain ⟨c, hc, hle⟩ := hafter x hx hxp
      have := byPeer_le hle
      grind

theorem disconnect_row (hi : Inv computer t) (hit : it ∈ t.index) : ∃ t',
    RowStep computer it.hash ((rows t.index it.hash).disconnect it.peer) t t' ∧
      t'.index.length < t.index.length ∧
      t' = match t.makeCompleted computer it with
        | (true, t') => t'.erase (if it.state = .completed then it else it.setState .completed)
        | (false, t') => t' := by
  have herased : ∀ {s : Tracker} {a : Announcement}, a ∈ s.index →
      (s.erase a).index.length + 1 = s.index.length := by
    intro s a ha
    have := length_pos_of_mem ha
    grind [erase, length_erase_of_mem ha]
  by_cases hstate : it.state = .completed
  · refine ⟨t.erase it, erase_completed_spec hi hit hstate, by grind, ?_⟩
    simp [makeCompleted, hstate]
  · obtain ⟨left, t', hmade, hstep, hleft, hgone, hlength, -⟩ := makeCompleted_spec hi hit hstate
    rw [hmade, ← Row.disconnect_failing, ← hstep.row]
    cases left with
    | false =>
      have hnone : rows t'.index it.hash it.peer = none := rows_eq_none.2 fun a ha hah =>
        absurd hah (hgone rfl a ha)
      rw [Row.disconnect_of_none hnone, hstep.inv.settle]
      refine ⟨t', ⟨hstep.inv, hstep.sequence, rfl, hstep.other⟩, by grind, rfl⟩
    | true =>
      have herase := erase_completed_spec hstep.inv (hleft rfl) rfl
      exact ⟨t'.erase (it.setState .completed), hstep.trans herase, by grind, by simp [hstate]⟩

theorem disconnect_spec {s s' : Tracker × Option Announcement} (hi : Inv computer s.1)
    (hfirst : AtFirst peer s.1 s.2) (h : disconnect computer peer s = some s') :
    Inv computer s'.1 ∧ AtFirst peer s'.1 s'.2 ∧ s'.1.currentSequence = s.1.currentSequence ∧
      (∀ h, (rows s'.1.index h).disconnect peer = (rows s.1.index h).disconnect peer) ∧
      s'.1.index.length < s.1.index.length := by
  obtain ⟨t, _ | it⟩ := s
  · cases h
  have hit : it ∈ t.index := hfirst.1
  by_cases hpeer : it.peer = peer
  · obtain ⟨t', hstep, hlength, hdef⟩ := disconnect_row hi hit
    obtain rfl : s' = (t', (next byPeer t.index it).filter fun itNext => itNext.peer = peer) := by
      simp only [disconnect, hpeer, ne_eq, not_true_eq_false, if_false] at h
      rw [hdef]
      split at h <;> simp_all
    have hgone : ∀ a ∈ t'.index, a.hash = it.hash → a.peer ≠ peer := by
      rw [← rows_eq_none, hstep.row, ← hpeer]
      simp [Row.disconnect, Row.settle]
    refine ⟨hstep.inv, atFirst_next hi.sane.unique hfirst hpeer hstep.other hgone, hstep.sequence,
      fun h => ?_, hlength⟩
    by_cases hh : h = it.hash
    · show (rows t'.index h).disconnect peer = _
      rw [hh, hstep.row, hpeer, Row.disconnect_disconnect]
    · exact congrArg _ (hstep.rows_of_ne hi hh)
  · simp [disconnect, hpeer] at h

theorem disconnectedPeer_spec (hi : Inv computer t) (peer : NodeId) : ∃ t',
    t.disconnectedPeer computer peer = some t' ∧ Inv computer t' ∧
      t'.currentSequence = t.currentSequence ∧
      ∀ h, rows t'.index h = (rows t.index h).disconnect peer := by
  have hkey : ∀ a : Announcement, toLex (peer, toLex (false, 0)) ≤ byPeer a ↔ peer ≤ a.peer := by
    intro a
    rw [byPeer, Prod.Lex.toLex_le_toLex, Prod.Lex.toLex_le_toLex, le_iff_lt_or_eq (a := peer)]
    cases decide (a.state = .candidateBest) <;> simp
  have hfirst : AtFirst peer t
      ((view byPeer t.index).dropWhile fun a =>
        byPeer a < toLex (peer, toLex (false, 0))).head? := by
    cases hhead : ((view byPeer t.index).dropWhile fun a =>
      byPeer a < toLex (peer, toLex (false, 0))).head? with
    | none => exact fun x hx hxp => head_lowerBound_eq_none hhead x hx ((hkey x).2 hxp.ge)
    | some it =>
      obtain ⟨hit, hge, hleast⟩ := head_lowerBound hhead
      refine ⟨hit, fun x hx hxp => ?_⟩
      have hle := hleast x hx ((hkey x).2 hxp.ge)
      exact ⟨le_antisymm (hxp ▸ byPeer_le hle) ((hkey it).1 hge), hle⟩
  obtain ⟨⟨t', o⟩, hrun, ⟨hi', hfirst', hsequence, hrows⟩, hend⟩ :=
    While.run_ends (disconnect computer peer)
    (t.index.length + 1) (t,
      ((view byPeer t.index).dropWhile fun a => byPeer a < toLex (peer, toLex (false, 0))).head?)
    (fun s => Inv computer s.1 ∧ AtFirst peer s.1 s.2 ∧ s.1.currentSequence = t.currentSequence ∧
      ∀ h, (rows s.1.index h).disconnect peer = (rows t.index h).disconnect peer)
    (fun s => s.1.index.length) (fun s s' hs h => by grind [disconnect_spec hs.1 hs.2.1 h])
    ⟨hi, hfirst, rfl, fun _ => rfl⟩ (Nat.lt_succ_self _)
  refine ⟨t', by rw [disconnectedPeer, hrun]; rfl, hi', hsequence, fun h => ?_⟩
  have hnone : ∀ x ∈ t'.index, x.peer ≠ peer := by
    cases o with
    | none => exact hfirst'
    | some it =>
      intro x hx hxp
      simp only [disconnect, (hfirst'.2 x hx hxp).1, ne_eq, not_true_eq_false, if_false] at hend
      split at hend <;> cases hend
  rw [← hrows h]
  exact ((Row.disconnect_of_none (rows_eq_none.2 fun x hx _ => hnone x hx)).trans
    (hi'.settle h)).symm

end Soveroot.TxRequest.Tracker
