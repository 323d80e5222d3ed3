import Mathlib.Data.Set.Card
import Soveroot.TxRequest.Calls
import Soveroot.TxRequest.Sanity

/-!
# Sequences of calls

The tracker simulates its specification. A sequence of calls ends, keeps the checks, and
`GetRequestable` returns what the specification chooses afresh. The number of an announcement has 59
bits, in the tracker and in the specification, so after that many announcements the returned list
is no longer in the order of announcement.
-/

namespace Soveroot.TxRequest

open SortedView List

variable {computer : Computer}

/-! ## The simulation -/

namespace Tracker

/-- The tracker shows the announcements of the specification. -/
structure Shows (computer : Computer) (t : Tracker) (b : Book) : Prop where
  inv : Inv computer t
  rows : ∀ h, rows t.index h = b.entries h
  sequence : t.currentSequence = b.announced

variable {t t' : Tracker} {b : Book} {peer : NodeId} {now : Int}

theorem shows_empty : Shows computer empty .empty := by
  refine ⟨⟨⟨nodup_nil, fun h => ⟨?_, ?_, ?_, ?_⟩⟩, rfl⟩, fun h => rfl, rfl⟩
  all_goals exact fun a ha => absurd ha (by simp [empty])

theorem Shows.of_rowStep (hs : Shows computer t b) {h : TxHash} {f : Row → Row}
    (hstep : RowStep computer h (f (TxRequest.rows t.index h)) t t') :
    Shows computer t' (b.onRow h f) := by
  refine ⟨hstep.inv, fun h' => ?_, hstep.sequence.trans hs.sequence⟩
  by_cases hh : h' = h
  · simp [Book.onRow, hh, hstep.row, hs.rows]
  · simp [Book.onRow, hh, hstep.rows_of_ne hs.inv hh, hs.rows]

theorem Shows.receivedInv (hs : Shows computer t b) (peer : NodeId) (gtxid : GenTxid)
    (preferred : Bool)
    (reqtime : Int) : Shows computer (t.receivedInv peer gtxid preferred reqtime)
      (b.step (.receivedInv peer gtxid preferred reqtime)) := by
  rcases receivedInv_spec hs.inv peer gtxid preferred reqtime with
    ⟨hsome, heq⟩ | ⟨hnone, hinv, hsequence, hrows⟩
  · rw [hs.rows] at hsome
    rwa [heq, Book.step, if_pos hsome]
  · rw [hs.rows] at hnone
    rw [Book.step, if_neg (not_not.2 hnone)]
    refine ⟨hinv, fun h => funext fun p => ?_, by rw [hsequence, hs.sequence]⟩
    rw [hrows, hs.rows, hs.sequence]

/-! ## What is returned -/

theorem mem_selected {x : Announcement} :
    x ∈ ((view byPeer t.index).dropWhile fun a =>
      byPeer a < toLex (peer, toLex (true, 0))).takeWhile
        (fun a => a.peer = peer ∧ a.state = .candidateBest) ↔
      x ∈ t.index ∧ x.peer = peer ∧ x.state = .candidateBest := by
  have hsub :
    ((view byPeer t.index).dropWhile fun a => byPeer a < toLex (peer, toLex (true, 0))).Sublist
      (view byPeer t.index) := dropWhile_sublist _
  -- the peer and whether the announcement is a best candidate
  let g : Announcement → NodeId ×ₗ Bool :=
    fun a => toLex (a.peer, decide (a.state = .candidateBest))
  have hg : ∀ a b, byPeer a ≤ byPeer b → g a ≤ g b := by
    intro a b h
    rw [byPeer, byPeer, Prod.Lex.toLex_le_toLex, Prod.Lex.toLex_le_toLex] at h
    show toLex _ ≤ toLex _
    rw [Prod.Lex.toLex_le_toLex]
    grind
  have hgeq : ∀ a, g a = toLex (peer, true) ↔ a.peer = peer ∧ a.state = .candidateBest := by
    simp [g]
  have hkey : ∀ a : Announcement, toLex (peer, toLex (true, 0)) ≤ byPeer a ↔
      toLex (peer, true) ≤ g a := by
    intro a
    simp only [g, byPeer, Prod.Lex.toLex_le_toLex]
    cases decide (a.state = .candidateBest) <;> simp [Bool.lt_iff]
  have hpred : (fun a : Announcement => decide (a.peer = peer ∧ a.state = .candidateBest)) =
      fun a => decide (g a = toLex (peer, true)) := funext fun a => decide_eq_decide.2 (hgeq a).symm
  rw [hpred, mem_takeWhile_least (pairwise_of_sublist hsub hg), mem_lowerBound, hkey, hgeq]
  · exact ⟨fun h => ⟨h.1.1, h.2⟩, fun h => ⟨⟨h.1, ((hgeq x).2 h.2).ge⟩, h.2⟩⟩
  · intro a ha
    rw [mem_lowerBound, hkey] at ha
    exact ha.2

/-- The tracker at a time point: it shows the specification after the call, and what waits is in the
future while what is selectable is not. -/
structure AtTime (computer : Computer) (now : Int) (t : Tracker) (b : Book) : Prop where
  inv : Inv computer t
  rows : ∀ h, TxRequest.rows t.index h = (b.entries h).failing fun _ e => e.Expired now
  waits : t.Waits now
  selectable : ∀ a ∈ t.index, a.IsSelectable → a.time ≤ now

namespace AtTime

variable (ht : AtTime computer now t b)
include ht

/-- An announcement that has not failed was there before the call. -/
theorem entry {a : Announcement} (ha : a ∈ t.index) (hstate : a.state ≠ .completed) :
    b.entries a.hash a.peer = some a.entry := by
  have hrow := rows_of_mem ht.inv.sane.unique ha
  rw [ht.rows] at hrow
  exact (Row.failing_alive.1 ⟨hrow, by grind⟩).1

variable {h : TxHash} {e : Entry}

theorem announcement {p : NodeId} (he : b.entries h p = some e)
    (hstatus : e.status ≠ .completed) (hexpired : ¬ e.Expired now) :
    ∃ a ∈ t.index, a.hash = h ∧ a.peer = p ∧ a.entry = e := by
  have hrow := (Row.failing_alive (q := fun _ e => e.Expired now)).2 ⟨he, hstatus, hexpired⟩
  rw [← ht.rows] at hrow
  exact (rows_eq_some ht.inv.sane.unique).1 hrow.1

theorem toRequest_iff (hdistinct : ∀ h p q e e', b.entries h p = some e →
    b.entries h q = some e' → p ≠ q →
      computer h p e.preferred ≠ computer h q e'.preferred) : b.ToRequest computer peer now h e ↔
      ∃ a ∈ t.index, a.hash = h ∧ a.peer = peer ∧ a.state = .candidateBest ∧ a.entry = e := by
  have hu := ht.inv.sane.unique
  obtain ⟨hselected, hready, hbest, -⟩ := ht.inv.sane.group h
  have hwaits := ht.waits
  have hselectable := ht.selectable
  constructor
  · rintro ⟨he, ⟨reqtime, hstatus, htime⟩, hout, hprio⟩
    obtain ⟨a, ha, hah, hap, rfl⟩ := ht.announcement he (by grind) (by grind)
    refine ⟨a, ha, hah, hap, ?_, rfl⟩
    by_contra hnotbest
    have har : a.state = .candidateReady := by
      cases hs : a.state <;> grind [Waits]
    -- then another one is selected, and it is a request or has the same priority
    obtain ⟨c, hc, hch, hsel⟩ := hready a ha hah har
    have he' := hch ▸ ht.entry hc (by grind)
    rcases hsel with hcb | hcr
    · have hle := hbest c hc a ha hch hah hcb har
      have hge := hprio c.peer c.entry he' ⟨c.time, by grind, hselectable c hc (.inr hcb)⟩
      by_cases hpeer : c.peer = peer
      · grind [Announcement.id]
      · refine hdistinct h c.peer peer c.entry a.entry he' he hpeer (le_antisymm hge ?_)
        rw [Announcement.priority, Announcement.priority, hah, hch, hap] at hle
        exact hle
    · exact hout c.peer c.entry he' ⟨c.time, by grind, hwaits c hc (.inl hcr)⟩
  · rintro ⟨a, ha, rfl, rfl, hab, rfl⟩
    refine ⟨ht.entry ha (by grind), ⟨a.time, by grind, hselectable a ha (.inr hab)⟩,
      fun q e' he' hout => ?_,
      fun q e' he' hr => ?_⟩
    · obtain ⟨c, hc, hch, -, rfl⟩ := ht.announcement he' (by grind) (by grind)
      cases hs : c.state <;> grind
    · obtain ⟨c, hc, hch, hcp, rfl⟩ := ht.announcement he' (by grind) (by grind)
      have hprio : c.priority computer ≤ a.priority computer := by
        cases hs : c.state <;> grind [Waits]
      rwa [Announcement.priority, Announcement.priority, hch, hcp] at hprio

end AtTime

theorem AtTime.requestable (ht : AtTime computer now t b) (hb : b.Numbered)
    (hdistinct : ∀ h p q e e', b.entries h p = some e → b.entries h q = some e' → p ≠ q →
      computer h p e.preferred ≠ computer h q e'.preferred) {selected : List Announcement}
        (hnodup : selected.Nodup)
    (hmem : ∀ x, x ∈ selected ↔ x ∈ t.index ∧ x.peer = peer ∧ x.state = .candidateBest) :
    b.Requestable computer peer now ((view (·.sequence) selected).map (·.gtxid)) := by
  have hu := ht.inv.sane.unique
  have hview : ∀ a, a ∈ view (·.sequence) selected ↔ a ∈ t.index ∧ a.peer = peer ∧
      a.state = .candidateBest :=
    fun a => (mem_view _).trans (hmem a)
  have hentry : ∀ a ∈ view (·.sequence) selected, b.entries a.hash peer = some a.entry := by
    intro a ha
    obtain ⟨ha, rfl, hbest⟩ := (hview a).1 ha
    exact ht.entry ha (by grind)
  have hinjective : ∀ a ∈ view (·.sequence) selected, ∀ c ∈ view (·.sequence) selected,
      a.hash = c.hash → a = c := by
    grind [Announcement.id]
  have hviewnodup : (view (·.sequence) selected).Nodup := (perm_view _ _).nodup_iff.2 hnodup
  have hsorted := pairwise_view (·.sequence) selected
  refine ⟨(view (·.sequence) selected).map Announcement.entry, ?_, ?_, fun e =>
    ?_, ?_, fun hbound => ?_⟩
  · simp [Announcement.entry]
  · exact hviewnodup.map_on fun a ha c hc heq => hinjective a ha c hc (congrArg (·.gtxid.hash) heq)
  · rw [mem_map, ht.toRequest_iff hdistinct]
    refine exists_congr fun a => ?_
    grind [Announcement.hash]
  · exact pairwise_map.2 hsorted
  · rw [pairwise_map]
    refine (hsorted.and hviewnodup).imp_of_mem fun {a c} ha hc h =>
      lt_of_le_of_ne h.1 fun heq => h.2 ?_
    exact hinjective a ha c hc (hb.injective hbound _ _ _ _ _ _ (hentry a ha) (hentry c hc) heq).1

theorem Shows.getRequestable (hs : Shows computer t b) (hb : b.Numbered) (peer : NodeId)
    (now : Int) :
    ∃ t' ret expired, t.getRequestable computer peer now = some (t', ret, expired) ∧
      Shows computer t' (b.step (.getRequestable peer now)) ∧ t'.PostGetRequestableSanityCheck now ∧
      ((∀ h p q e e', b.entries h p = some e → b.entries h q = some e' → p ≠ q →
        computer h p e.preferred ≠ computer h q e'.preferred) →
          b.Requestable computer peer now ret) := by
  obtain ⟨t', expired, hset, hi, hsequence, hrows, hwaits, hselectable⟩ :=
    setTimePoint_spec hs.inv now
  have hrows' : ∀ h, TxRequest.rows t'.index h = (b.entries h).failing fun _ e => e.Expired now :=
    fun h => by
    rw [hrows, hs.rows]
  have hat : AtTime computer now t' b := ⟨hi, hrows', hwaits, hselectable⟩
  refine ⟨t', _, expired, by rw [Tracker.getRequestable, hset]; rfl,
    ⟨hi, hrows', hsequence.trans hs.sequence⟩,
    fun ann hann => ⟨hwaits ann hann, fun _ => hselectable ann hann⟩, fun hdistinct => ?_⟩
  refine hat.requestable hb hdistinct ?_ fun x => mem_selected
  exact (((perm_view _ _).nodup_iff.2 hi.sane.unique.nodup).sublist (dropWhile_sublist _)).sublist
    (takeWhile_sublist _)

/-! ## Runs -/

def step (computer : Computer) (t : Tracker) : Call → Option Tracker
  | .receivedInv peer gtxid preferred reqtime => some (t.receivedInv peer gtxid preferred reqtime)
  | .requestedTx peer txhash expiry => some (t.requestedTx computer peer txhash expiry)
  | .receivedResponse peer txhash => some (t.receivedResponse computer peer txhash)
  | .forgetTxHash txhash => some (t.forgetTxHash computer txhash)
  | .disconnectedPeer peer => t.disconnectedPeer computer peer
  | .getRequestable peer now => (t.getRequestable computer peer now).map (·.1)

def after (computer : Computer) (t : Tracker) (calls : List Call) : Option Tracker :=
  calls.foldlM (step computer) t

theorem Shows.step (hs : Shows computer t b) (hb : b.Numbered) (c : Call) :
    ∃ t', t.step computer c = some t' ∧ Shows computer t' (b.step c) := by
  cases c with
  | receivedInv peer gtxid preferred reqtime =>
    exact ⟨_, rfl, hs.receivedInv peer gtxid preferred reqtime⟩
  | requestedTx peer txhash expiry =>
    exact ⟨_, rfl, hs.of_rowStep (requestedTx_spec hs.inv peer txhash expiry)⟩
  | receivedResponse peer txhash =>
    exact ⟨_, rfl, hs.of_rowStep (receivedResponse_spec hs.inv peer txhash)⟩
  | forgetTxHash txhash =>
    exact ⟨_, rfl, hs.of_rowStep (f := fun _ _ => none) (forgetTxHash_spec hs.inv txhash)⟩
  | disconnectedPeer peer =>
    obtain ⟨t', hcall, hi, hsequence, hrows⟩ := disconnectedPeer_spec hs.inv peer
    exact ⟨t', hcall, hi, fun h => by rw [hrows, hs.rows]; rfl, hsequence.trans hs.sequence⟩
  | getRequestable peer now =>
    obtain ⟨t', ret, expired, hcall, hs', -⟩ := hs.getRequestable hb peer now
    exact ⟨t', by rw [Tracker.step, hcall]; rfl, hs'⟩

theorem Shows.after (hs : Shows computer t b) (hb : b.Numbered) (calls : List Call) :
    ∃ t', t.after computer calls = some t' ∧ Shows computer t' (b.after calls) := by
  induction calls generalizing t b with
  | nil => exact ⟨t, rfl, hs⟩
  | cons c calls ih =>
    obtain ⟨t₁, hcall, hs₁⟩ := hs.step hb c
    obtain ⟨t', hrest, hs'⟩ := ih hs₁ (Book.numbered_step hb c)
    refine ⟨t', ?_, hs'⟩
    rw [Tracker.after, foldlM_cons, hcall]
    exact hrest

end Tracker

/-- Different peers that announce a transaction hash in a sequence of calls have different
priorities. -/
def DistinctPriorities (computer : Computer) (calls : List Call) : Prop :=
  ∀ p g pref r q g' pref' r', .receivedInv p g pref r ∈ calls → .receivedInv q g' pref' r' ∈ calls →
    g.hash = g'.hash → p ≠ q → computer g.hash p pref ≠ computer g.hash q pref'

theorem DistinctPriorities.entries {calls : List Call} (hd : DistinctPriorities computer calls)
    {h : TxHash}
    {p q : NodeId} {e e' : Entry} (he : (Book.empty.after calls).entries h p = some e)
    (he' : (Book.empty.after calls).entries h q = some e') (hne : p ≠ q) :
    computer h p e.preferred ≠ computer h q e'.preferred := by
  rcases Book.entry_after calls he with ⟨e₀, h₀, -⟩ | ⟨g, r, hmem, rfl⟩
  · cases h₀
  rcases Book.entry_after calls he' with ⟨e₀, h₀, -⟩ | ⟨g', r', hmem', hh⟩
  · cases h₀
  exact hd p g e.preferred r q g' e'.preferred r' hmem hmem' hh.symm hne

/-- After every sequence of calls the checks pass and `GetRequestable` ends and returns what is to
be requested; an announcement that has been requested is returned again only after it has been
forgotten and announced anew. -/
theorem tracker_follows_specification (computer : Computer) (calls : List Call)
    (hdistinct : DistinctPriorities computer calls) :
    ∃ t, Tracker.empty.after computer calls = some t ∧ t.SanityCheck computer ∧
      ∀ peer now, ∃ t' ret expired, t.getRequestable computer peer now = some (t', ret, expired) ∧
        t'.SanityCheck computer ∧ t'.PostGetRequestableSanityCheck now ∧
        (Book.empty.after calls).Requestable computer peer now ret ∧
        ∀ before later e expiry gtxid, calls = before ++ later → gtxid ∈ ret →
          (Book.empty.after before).entries gtxid.hash peer = some e →
            e.status = .requested expiry →
          ∃ between gtxid' preferred reqtime rest,
            later = between ++ .receivedInv peer gtxid' preferred reqtime :: rest ∧
              gtxid'.hash = gtxid.hash ∧
            (Book.empty.after (before ++ between)).entries gtxid.hash peer = none := by
  have hempty : Tracker.Shows computer .empty .empty := Tracker.shows_empty
  obtain ⟨t, hrun, hs⟩ := hempty.after Book.numbered_empty calls
  refine ⟨t, hrun, hs.inv.sanityCheck, fun peer now => ?_⟩
  have hb := Book.numbered_after Book.numbered_empty calls
  obtain ⟨t', ret, expired, hcall, hs', hpost, hret⟩ := hs.getRequestable hb peer now
  have hrequestable := hret fun h p q e e' he he' hne => hdistinct.entries he he' hne
  refine ⟨t', ret, expired, hcall, hs'.inv.sanityCheck, hpost, hrequestable, ?_⟩
  intro before later e expiry gtxid hcalls hmem he hstatus
  -- what is returned is a candidate now
  obtain ⟨es, rfl, -, hes, -⟩ := hrequestable
  obtain ⟨f, hf, rfl⟩ := mem_map.1 hmem
  obtain ⟨hentry, ⟨reqtime, hcandidate, -⟩, -⟩ := (hes f).1 hf
  rw [hcalls, Book.after_append] at hentry
  rcases Book.candidate_after later hentry ⟨reqtime, hcandidate⟩ with
    ⟨e₀, he₀, r, hstatus₀⟩ | ⟨between, g, pref, r, rest, hlater, hh, hnone⟩
  · grind
  · exact ⟨between, g, pref, r, rest, hlater, hh, by rwa [Book.after_append]⟩

/-- Two peers announce a transaction, one of them is asked, and the request expires. -/
theorem tracker_follows_specification_two_peers : ∃ t t' ret expired,
    Tracker.empty.after (fun _ p _ => p.natAbs)
    [.receivedInv 1 ⟨7, true⟩ false 5, .receivedInv 2 ⟨7, true⟩ true 3,
      .requestedTx 2 7 10] = some t ∧
    t.getRequestable (fun _ p _ => p.natAbs) 1 20 = some (t', ret, expired) ∧
    (Book.empty.after [.receivedInv 1 ⟨7, true⟩ false 5, .receivedInv 2 ⟨7, true⟩ true 3,
      .requestedTx 2 7 10]).Requestable
      (fun _ p _ => p.natAbs) 1 20 ret := by
  have hdistinct : DistinctPriorities (fun _ p _ => p.natAbs) [.receivedInv 1 ⟨7, true⟩ false 5,
      .receivedInv 2 ⟨7, true⟩ true 3, .requestedTx 2 7 10] := by
    intro p g pref r q g' pref' r' hp hq _ hne
    have hpeer :
      ∀ {p g pref r}, Call.receivedInv p g pref r ∈ [Call.receivedInv 1 ⟨7, true⟩ false 5,
        .receivedInv 2 ⟨7, true⟩ true 3, .requestedTx 2 7 10] → p = 1 ∨ p = 2 := by
      intro p g pref r h
      simp only [mem_cons, Call.receivedInv.injEq, reduceCtorEq, not_mem_nil, or_false] at h
      exact h.imp (·.1) (·.1)
    have hp := hpeer hp
    have hq := hpeer hq
    show p.natAbs ≠ q.natAbs
    rcases hp with rfl | rfl <;> rcases hq with rfl | rfl
    · exact absurd rfl hne
    · decide
    · decide
    · exact absurd rfl hne
  obtain ⟨t, hrun, -, hget⟩ := tracker_follows_specification _ _ hdistinct
  obtain ⟨t', ret, expired, hcall, -, -, hret, -⟩ := hget 1 20
  exact ⟨t, t', ret, expired, hrun, hcall, hret⟩

/-! ## Counters -/

namespace Tracker.Shows

variable {t : Tracker} {b : Book} (hs : Tracker.Shows computer t b)
include hs

/-- What is counted over the index is a number of transaction hashes of the specification. -/
theorem countP_eq_ncard (peer : NodeId) {q : Announcement → Bool} {r : Entry → Prop}
    (hq : ∀ a, q a = true ↔ a.peer = peer ∧ r a.entry) :
    t.index.countP q = {h | ∃ e, b.entries h peer = some e ∧ r e}.ncard := by
  have hset : {h | ∃ e, b.entries h peer = some e ∧ r e} =
      ((t.index.filter q).map (·.hash)).toFinset := by
    ext h
    simp only [← hs.rows, rows_eq_some hs.inv.sane.unique, Set.mem_ofPred_eq, coe_toFinset, mem_map,
      mem_filter, hq]
    grind
  have hnodup : ((t.index.filter q).map (·.hash)).Nodup := by
    refine (hs.inv.sane.unique.nodup.filter q).map_on fun a ha a' ha' heq => ?_
    rw [mem_filter, hq] at ha ha'
    exact hs.inv.sane.unique.eq ha.1 ha'.1 (Prod.ext (ha.2.1.trans ha'.2.1.symm) heq)
  rw [hset, Set.ncard_coe_finset, toFinset_card_of_nodup hnodup, length_map,
    countP_eq_length_filter]

theorem mem_getCandidatePeers (txhash : TxHash) (peer : NodeId) :
    peer ∈ t.getCandidatePeers computer txhash ↔
      ∃ e, b.entries txhash peer = some e ∧ e.status ≠ .completed := by
  -- the transaction hash and whether the announcement has failed
  let g : Announcement → TxHash ×ₗ Bool := fun a => toLex (a.hash, decide (a.state = .completed))
  have hg : ∀ a a', byTxHash computer a ≤ byTxHash computer a' → g a ≤ g a' := by
    intro a a' h
    have hle := byTxHash_le h
    show toLex _ ≤ toLex _
    rw [Prod.Lex.toLex_le_toLex, Bool.le_iff_imp]
    cases ha : a.state <;> cases ha' : a'.state <;> grind [State.rank]
  have hgeq : ∀ a, g a = toLex (txhash, false) ↔ a.hash = txhash ∧ a.state ≠ .completed := by
    simp [g]
  have hkey : ∀ a, toLex (txhash, toLex (State.candidateDelayed.rank, 0)) ≤ byTxHash computer a ↔
      toLex (txhash, false) ≤ g a := by
    intro a
    simp only [g, byTxHash, Prod.Lex.toLex_le_toLex, Bool.le_iff_imp]
    grind [State.rank]
  have hpred : (fun a : Announcement => decide (a.hash = txhash ∧ a.state ≠ .completed)) =
      fun a => decide (g a = toLex (txhash, false)) :=
        funext fun a => decide_eq_decide.2 (hgeq a).symm
  have hleast := fun x => mem_takeWhile_least (x := x)
    (pairwise_of_sublist (l := t.index) (dropWhile_sublist _) hg)
    fun a ha => (hkey a).1 (mem_lowerBound.1 ha).2
  simp only [getCandidatePeers, hpred, mem_map, ← hs.rows, rows_eq_some hs.inv.sane.unique, hleast]
  simp only [mem_lowerBound, hkey]
  grind

end Tracker.Shows

theorem countP_peer_eq (peer : NodeId) (l : List Announcement) : l.countP (fun a => a.peer = peer) =
    l.countP (fun a => a.peer = peer ∧ a.state = .completed) +
      l.countP (fun a => a.peer = peer ∧ a.state = .requested) +
      l.countP (fun a => a.peer = peer ∧ a.state ≠ .completed ∧ a.state ≠ .requested) := by
  induction l with
  | nil => rfl
  | cons a l ih =>
    simp only [countP_cons, ih]
    cases a.state <;> simp <;> omega

/-- **Counters.** After every sequence of calls, what is counted for a peer is how many transactions
it has been asked for, may be asked for and has announced, and the candidate peers of a transaction
are those whose announcement has not failed. -/
theorem counters_follow_specification (computer : Computer) (calls : List Call) :
    ∃ t, Tracker.empty.after computer calls = some t ∧
      (∀ peer, t.countInFlight peer = {h | ∃ e, (Book.empty.after calls).entries h peer = some e ∧
          ∃ expiry, e.status = .requested expiry}.ncard ∧
        t.countCandidates peer = {h | ∃ e, (Book.empty.after calls).entries h peer = some e ∧
          e.IsCandidate}.ncard ∧
        t.count peer = {h | ∃ e, (Book.empty.after calls).entries h peer = some e}.ncard) ∧
      ∀ txhash peer, peer ∈ t.getCandidatePeers computer txhash ↔
        ∃ e, (Book.empty.after calls).entries txhash peer = some e ∧ e.status ≠ .completed := by
  have hempty : Tracker.Shows computer .empty .empty := Tracker.shows_empty
  obtain ⟨t, hrun, hs⟩ := hempty.after Book.numbered_empty calls
  refine ⟨t, hrun, fun peer => ?_, hs.mem_getCandidatePeers⟩
  have hinfo := hs.inv.accounted.getD peer
  rw [countP_peer_eq] at hinfo
  have hrequested := hs.countP_eq_ncard peer (q := fun a => a.peer = peer ∧ a.state = .requested)
    (r := fun e => ∃ expiry, e.status = .requested expiry) fun a => by
      cases h : a.state <;> simp [Announcement.entry, Announcement.status, h]
  have hcandidates := hs.countP_eq_ncard peer (r := Entry.IsCandidate)
    (q := fun a => a.peer = peer ∧ a.state ≠ .completed ∧ a.state ≠ .requested) fun a => by
      cases h : a.state <;> simp [Announcement.entry, Announcement.status, Entry.IsCandidate, h]
  have htotal :=
    hs.countP_eq_ncard peer (q := fun a => a.peer = peer) (r := fun _ => True) (by simp)
  simp only [and_true] at htotal
  rw [Tracker.countInFlight, Tracker.countCandidates, Tracker.count,
    hinfo, ← hrequested, ← hcandidates,
    ← htotal, countP_peer_eq]
  exact ⟨rfl, by push_cast; omega, rfl⟩

/-! ## Numbers of more than 59 bits -/

/-- Announcements that are forgotten leave their numbers only. -/
theorem after_forgotten (n : Nat) : ∃ calls, Book.empty.after calls = ⟨fun _ _ => none, n⟩ ∧
    ∀ p g preferred r, .receivedInv p g preferred r ∈ calls → p = 0 := by
  induction n with
  | zero => exact ⟨[], rfl, by simp⟩
  | succ n ih =>
    obtain ⟨calls, hcalls, hpeer⟩ := ih
    refine ⟨calls ++ [.receivedInv 0 ⟨0, true⟩ false 0, .forgetTxHash 0], ?_, by grind⟩
    rw [Book.after_append, hcalls]
    simp only [Book.after, foldl, Book.step, Book.onRow]
    refine congrArg₂ Book.mk (funext fun h => funext fun p => ?_) rfl
    grind

/-- After `2 ^ 59 - 1` announcements the next two are returned in the other order. -/
theorem announcement_order_lost : ∃ (before : List Call) (t t' : Tracker)
    (expired : List (NodeId × GenTxid)),
    (∀ h p, (Book.empty.after before).entries h p = none) ∧
    DistinctPriorities (fun _ p _ => p.natAbs)
      (before ++ [.receivedInv 0 ⟨1, true⟩ false 0, .receivedInv 0 ⟨2, true⟩ false 0]) ∧
    Tracker.empty.after (fun _ p _ => p.natAbs)
      (before ++ [.receivedInv 0 ⟨1, true⟩ false 0, .receivedInv 0 ⟨2, true⟩ false 0]) = some t ∧
    t.getRequestable (fun _ p _ => p.natAbs) 0 0 = some (t', [⟨2, true⟩, ⟨1, true⟩], expired) := by
  obtain ⟨before, hbefore, hpeer⟩ := after_forgotten (2 ^ 59 - 1)
  have hdistinct : DistinctPriorities (fun _ p _ => p.natAbs)
      (before ++ [.receivedInv 0 ⟨1, true⟩ false 0, .receivedInv 0 ⟨2, true⟩ false 0]) := by
    intro p g pref r q g' pref' r' hp hq _ hne
    grind
  generalize hcalls : before ++ [.receivedInv 0 ⟨1, true⟩ false 0,
    .receivedInv 0 ⟨2, true⟩ false 0] = calls at hdistinct
  have hentries : ∀ h q, (Book.empty.after calls).entries h q =
      if h = 2 ∧ q = 0 then some ⟨⟨2, true⟩, false, 0, .candidate 0⟩
      else if h = 1 ∧ q = 0 then some ⟨⟨1, true⟩, false, 2 ^ 59 - 1, .candidate 0⟩ else none := by
    intro h q
    rw [← hcalls, Book.after_append, hbefore]
    simp only [Book.after, foldl, Book.step]
    grind
  have hempty : Tracker.Shows (fun _ p _ => p.natAbs) .empty .empty := Tracker.shows_empty
  obtain ⟨t, hrun, hs⟩ := hempty.after Book.numbered_empty calls
  obtain ⟨t', ret, expired, hcall, -, -, hret⟩ :=
    hs.getRequestable (Book.numbered_after Book.numbered_empty calls) 0 0
  obtain ⟨es, rfl, hnodup, hes, hsorted, -⟩ := hret fun h p q e e' he he' hne => by grind
  -- the two announcements are returned and nothing else is
  have hmem : ∀ e, e ∈ es ↔ e ∈ [(⟨⟨2, true⟩, false, 0, .candidate 0⟩ : Entry),
      ⟨⟨1, true⟩, false, 2 ^ 59 - 1, .candidate 0⟩] := by
    intro e
    have hready : ∀ h q e', (Book.empty.after calls).entries h q = some e' → q = 0 ∧ e'.Ready 0 ∧
        ¬ e'.Outstanding 0 := by
      grind [Entry.Ready, Entry.Outstanding]
    rw [hes]
    constructor
    · intro h
      have he := h.1
      grind
    · intro h
      refine ⟨by grind, (hready e.gtxid.hash 0 e (by grind)).2.1, fun q e' he' =>
        (hready _ _ _ he').2.2,
        fun q e' he' _ => ?_⟩
      rw [(hready _ _ _ he').1]
  have hperm := (perm_ext_iff_of_nodup hnodup (by simp)).2 hmem
  have heq := Perm.eq_of_pairwise (by grind) hsorted
    (by simp) hperm
  rw [heq] at hcall
  exact ⟨before, t, t', expired, fun h p => by rw [hbefore], hcalls ▸ hdistinct,
    hcalls ▸ hrun, hcall⟩

end Soveroot.TxRequest
