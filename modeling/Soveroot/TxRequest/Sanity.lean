import Soveroot.TxRequest.Rows

/-!
# The checks of the tracker

`SanityCheck` recomputes statistics for each peer and each transaction hash. They pass whenever the
invariant holds.
-/

namespace Soveroot.TxRequest

open List

variable {computer : Computer}

structure TxHashInfo where
  candidateDelayed : Nat := 0
  candidateReady : Nat := 0
  candidateBest : Nat := 0
  requested : Nat := 0
  priorityCandidateBest : Nat := 2 ^ 64 - 1
  priorityBestCandidateReady : Nat := 0
  peers : List NodeId := []

namespace TxHashInfo

def add (computer : Computer) (info : TxHashInfo) (ann : Announcement) : TxHashInfo where
  candidateDelayed := info.candidateDelayed + Tracker.one (ann.state = .candidateDelayed)
  candidateReady := info.candidateReady + Tracker.one (ann.state = .candidateReady)
  candidateBest := info.candidateBest + Tracker.one (ann.state = .candidateBest)
  requested := info.requested + Tracker.one (ann.state = .requested)
  priorityCandidateBest :=
    if ann.state = .candidateBest then ann.priority computer else info.priorityCandidateBest
  priorityBestCandidateReady :=
    if ann.state = .candidateReady then max info.priorityBestCandidateReady (ann.priority computer)
    else info.priorityBestCandidateReady
  peers := info.peers ++ [ann.peer]

/-- What `SanityCheck` asserts of a transaction hash. -/
structure Valid (info : TxHashInfo) : Prop where
  alive : 0 < info.candidateDelayed + info.candidateReady + info.candidateBest + info.requested
  selected : info.candidateBest + info.requested ≤ 1
  ready : 0 < info.candidateReady → info.candidateBest + info.requested = 1
  priority : 0 < info.candidateReady → 0 < info.candidateBest →
    info.priorityBestCandidateReady ≤ info.priorityCandidateBest
  peers : info.peers.Nodup

end TxHashInfo

/-- `ComputeTxHashInfo`, for a transaction hash. -/
def computeTxHashInfo (computer : Computer) (index : List Announcement) (h : TxHash) : TxHashInfo :=
  (index.filter fun ann => ann.hash = h).foldl (TxHashInfo.add computer) {}

namespace Tracker

def SanityCheck (computer : Computer) (t : Tracker) : Prop :=
  t.peerinfo = recomputePeerInfo t.index ∧
    ∀ ann ∈ t.index, (computeTxHashInfo computer t.index ann.hash).Valid

def PostGetRequestableSanityCheck (now : Int) (t : Tracker) : Prop :=
  ∀ ann ∈ t.index, (ann.IsWaiting → now < ann.time) ∧
    (¬ ann.IsWaiting → ann.IsSelectable → ann.time ≤ now)

end Tracker

/-! ## The statistics of a transaction hash -/

theorem add_one_countP (n : Nat) (s : State) (a : Announcement) (l : List Announcement) :
    n + Tracker.one (a.state = s) + l.countP (fun a => decide (a.state = s)) =
      n + (a :: l).countP fun a => decide (a.state = s) := by
  by_cases h : a.state = s <;> simp [Tracker.one, h]; omega

theorem foldl_add (computer : Computer) (l : List Announcement) (info : TxHashInfo) :
    (l.foldl (TxHashInfo.add computer) info).candidateDelayed =
        info.candidateDelayed + l.countP (fun a => decide (a.state = .candidateDelayed)) ∧
      (l.foldl (TxHashInfo.add computer) info).candidateReady =
        info.candidateReady + l.countP (fun a => decide (a.state = .candidateReady)) ∧
      (l.foldl (TxHashInfo.add computer) info).candidateBest =
        info.candidateBest + l.countP (fun a => decide (a.state = .candidateBest)) ∧
      (l.foldl (TxHashInfo.add computer) info).requested =
        info.requested + l.countP (fun a => decide (a.state = .requested)) ∧
      (l.foldl (TxHashInfo.add computer) info).peers = info.peers ++ l.map Announcement.peer := by
  induction l generalizing info with
  | nil => simp
  | cons a l ih =>
    obtain ⟨h₁, h₂, h₃, h₄, h₅⟩ := ih (info.add computer a)
    rw [foldl_cons, h₁, h₂, h₃, h₄, h₅]
    simp only [TxHashInfo.add, add_one_countP, map_cons, append_assoc, singleton_append, and_self]

variable {l : List Announcement} {info : TxHashInfo} {m : Nat}

theorem foldl_add_best (hbest : ∀ a ∈ l, a.state = .candidateBest → m ≤ a.priority computer)
    (hinfo : m ≤ info.priorityCandidateBest ∨ ∃ a ∈ l, a.state = .candidateBest) :
    m ≤ (l.foldl (TxHashInfo.add computer) info).priorityCandidateBest := by
  induction l generalizing info with
  | nil => grind
  | cons a l ih => exact ih (by grind) (by grind [TxHashInfo.add])

/-- The best priority of the ready candidates is no more than a bound for all of them. -/
theorem foldl_add_ready (hready : ∀ a ∈ l, a.state = .candidateReady → a.priority computer ≤ m)
    (hinfo : info.priorityBestCandidateReady ≤ m) :
    (l.foldl (TxHashInfo.add computer) info).priorityBestCandidateReady ≤ m := by
  induction l generalizing info with
  | nil => exact hinfo
  | cons a l ih => exact ih (by grind) (by grind [TxHashInfo.add])

theorem countP_le_one {q : Announcement → Bool} (hl : l.Nodup)
    (h : ∀ a ∈ l, ∀ b ∈ l, q a = true → q b = true → a = b) : l.countP q ≤ 1 := by
  induction l with
  | nil => simp
  | cons a l ih =>
    have hrest := ih (by grind) (by grind)
    by_cases ha : q a = true
    · have hzero : l.countP q = 0 := countP_eq_zero.2 (by grind)
      rw [countP_cons_of_pos ha, hzero]
    · rwa [countP_cons_of_neg ha]

theorem valid_computeTxHashInfo {index : List Announcement} (hs : Sane computer index)
    {ann : Announcement}
    (hann : ann ∈ index) : (computeTxHashInfo computer index ann.hash).Valid := by
  obtain ⟨hselected, hready, hbest, halive⟩ := hs.group ann.hash
  rw [computeTxHashInfo]
  generalize hl : index.filter (fun a => a.hash = ann.hash) = l
  have hmem : ∀ a, a ∈ l ↔ a ∈ index ∧ a.hash = ann.hash := by grind
  have hnodup : l.Nodup := hl ▸ hs.unique.nodup.filter _
  obtain ⟨hd, hr, hb, hq, hp⟩ := foldl_add computer l {}
  have hpos : ∀ s : State, 0 < l.countP (fun a => decide (a.state = s)) ↔
      ∃ a ∈ index, a.hash = ann.hash ∧ a.state = s := by
    simp only [countP_pos_iff, hmem, decide_eq_true_eq, and_assoc, implies_true]
  -- the best candidates and the requests together are the selected announcements
  have hone : ∀ s : State, s = .candidateBest ∨ s = .requested →
      l.countP (fun a => decide (a.state = s)) ≤ 1 :=
    fun s hs => countP_le_one hnodup (by grind)
  have hsel : l.countP (fun a => decide (a.state = .candidateBest)) +
      l.countP (fun a => decide (a.state = .requested)) ≤ 1 := by
    have := hone .candidateBest (Or.inl rfl)
    have := hone .requested (Or.inr rfl)
    by_contra hnot
    obtain ⟨a, ha, hah, has⟩ := (hpos .candidateBest).1 (by omega)
    obtain ⟨b, hb, hbh, hbs⟩ := (hpos .requested).1 (by omega)
    grind
  simp only [Nat.zero_add, nil_append] at hd hr hb hq hp
  refine ⟨?_, by omega, fun h => ?_, fun h h' => ?_, ?_⟩
  · obtain ⟨b, hb, hbh, hbs⟩ := halive ann hann rfl
    have hb' := (hpos b.state).2 ⟨b, hb, hbh, rfl⟩
    cases hstate : b.state <;> rw [hstate] at hb' hbs <;> first | omega | exact absurd rfl hbs
  · obtain ⟨a, ha, hah, has⟩ := (hpos .candidateReady).1 (by omega)
    obtain ⟨b, hb, hbh, h | h⟩ := hready a ha hah has <;> have :=
      (hpos _).2 ⟨b, hb, hbh, h⟩ <;> omega
  · obtain ⟨b, hb, hbh, hbs⟩ := (hpos .candidateBest).1 (by omega)
    have hleast : ∀ a ∈ l, a.state = .candidateReady →
      a.priority computer ≤ b.priority computer := by grind
    have honly : ∀ a ∈ l, a.state = .candidateBest → b.priority computer ≤ a.priority computer := by
      grind
    exact (foldl_add_ready hleast (Nat.zero_le _)).trans
      (foldl_add_best honly (Or.inr ⟨b, by grind, hbs⟩))
  · rw [hp]
    refine Nodup.map_on (fun a ha b hb heq =>
      hs.unique.eq ((hmem a).1 ha).1 ((hmem b).1 hb).1 ?_) hnodup
    rw [Announcement.id, Announcement.id, heq, ((hmem a).1 ha).2, ((hmem b).1 hb).2]

theorem Tracker.Inv.sanityCheck {t : Tracker} (hi : t.Inv computer) : t.SanityCheck computer :=
  ⟨hi.accounted, fun _ hann => valid_computeTxHashInfo hi.sane hann⟩

end Soveroot.TxRequest
