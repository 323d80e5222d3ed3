import Soveroot.Multihost.Sessions

/-!
# Peer diversity

`select_diverse_peers` of `contrib/mining_autonomy/sharechain_multihost_v1.py`. The candidates are
tried once, by priority; one is taken unless its network or its operator group has been taken, or
its transport twice. The result has to have three peers.

A pass that takes what comes first can shut out what comes later. It finds three peers exactly when
the first candidate and the first one apart from it leave room for a third
(`three_le_selected_iff`).
-/

namespace Soveroot.Multihost

open Py Check List

def maxPeerCandidates : Nat := 128
def minDiversePeers : Nat := 3
def minDistinctPrefixes : Nat := 3
def minDistinctOperatorGroups : Nat := 3
def minDistinctTransports : Nat := 2
def maxPeersPerPrefix : Int := 1
def maxPeersPerOperatorGroup : Int := 1
def maxPeersPerTransport : Int := 2

inductive CandidateField where
  | peerId
  | address
  | operatorGroup
  | transport
  | priority
  deriving DecidableEq

instance : Json.Keys CandidateField where
  all := [.peerId, .address, .operatorGroup, .transport, .priority]
  name
    | .peerId => ascii "peer_id"
    | .address => ascii "address"
    | .operatorGroup => ascii "operator_group"
    | .transport => ascii "transport"
    | .priority => ascii "priority"
  mem_all f := by cases f <;> decide
  nodup := by decide +kernel

structure Candidate where
  peerId : Text
  address : Text
  operatorGroup : Text
  transport : Text
  priority : Int
  network : Text
  deriving DecidableEq

/-- One round of the loop that checks the candidates. An address that has a network is a text. -/
def normalizeNext (normalized : List Candidate) (candidate : Json) :
    Except SafetyError (List Candidate) := do
  require (normalized.length < maxPeerCandidates)
    ⟨"peer_candidate_limit", "peer candidate set exceeds its frozen limit"⟩
  let r ← orRaise (Json.record? CandidateField candidate)
    ⟨"peer_candidate", "peer candidate fields are not canonical"⟩
  let peerId ← requireText (r .peerId) "peer_candidate" "peer id" 32
  require (normalized.all fun c => c.peerId ≠ peerId)
    ⟨"peer_candidate", "peer candidate id is repeated"⟩
  let operatorGroup ← requireText (r .operatorGroup) "peer_candidate" "operator group" 64
  let transport ← requireText (r .transport) "peer_candidate" "transport" 32
  let priority ← orRaise ((r .priority).asInt.filter fun n => 0 ≤ n)
    ⟨"peer_candidate", "peer priority is invalid"⟩
  let network ← sourcePrefix (r .address)
  pure (normalized ++
    [⟨peerId, (r .address).asText.getD [], operatorGroup, transport, priority, network⟩])

def normalize (candidates : List Json) : Except SafetyError (List Candidate) :=
  candidates.foldlM normalizeNext []

/-- The order in which candidates are tried: `(priority, peer_id)`. -/
def Candidate.before (a b : Candidate) : Prop :=
  a.priority < b.priority ∨ a.priority = b.priority ∧ a.peerId ≤ b.peerId

instance : DecidableRel Candidate.before := fun a b =>
  inferInstanceAs (Decidable (a.priority < b.priority ∨ a.priority = b.priority ∧
    a.peerId ≤ b.peerId))

/-- The candidates taken so far, and how many of each network, operator group and transport. -/
structure Selection where
  selected : List Candidate
  prefixes : Dict Text Int
  operators : Dict Text Int
  transports : Dict Text Int

/-- One round of the loop that selects. -/
def Selection.offer (s : Selection) (c : Candidate) : Selection :=
  if maxPeersPerPrefix ≤ (s.prefixes.get? c.network).getD 0 then s
  else if maxPeersPerOperatorGroup ≤ (s.operators.get? c.operatorGroup).getD 0 then s
  else if maxPeersPerTransport ≤ (s.transports.get? c.transport).getD 0 then s
  else ⟨s.selected ++ [c], bump s.prefixes c.network, bump s.operators c.operatorGroup,
    bump s.transports c.transport⟩

def Selection.none : Selection := ⟨[], Dict.empty, Dict.empty, Dict.empty⟩

def Selection.finish (s : Selection) : Except SafetyError (List Candidate) := do
  require (¬ (s.selected.length < minDiversePeers ∨ s.prefixes.size < minDistinctPrefixes ∨
      s.operators.size < minDistinctOperatorGroups ∨ s.transports.size < minDistinctTransports))
    ⟨"insufficient_peer_diversity", "candidate set cannot satisfy the frozen diversity floor"⟩
  pure s.selected

def selectFrom (normalized : List Candidate) : Except SafetyError (List Candidate) :=
  ((normalized.insertionSort Candidate.before).foldl Selection.offer Selection.none).finish

def selectDiversePeers (candidates : List Json) : Except SafetyError (List Candidate) := do
  selectFrom (← normalize candidates)

/-! ## What the policy asks for -/

/-- Candidates that differ in network and operator group. -/
def Candidate.apart (a b : Candidate) : Prop :=
  a.network ≠ b.network ∧ a.operatorGroup ≠ b.operatorGroup

/-- A set of candidates the policy accepts: at most one peer per network, one per operator group and
two per transport, at least three peers and two transports. -/
structure Diverse (peers : List Candidate) : Prop where
  nodup : peers.Nodup
  network : ∀ network, peers.countP (fun c => c.network = network) ≤ 1
  operatorGroup : ∀ group, peers.countP (fun c => c.operatorGroup = group) ≤ 1
  transport : ∀ transport, peers.countP (fun c => c.transport = transport) ≤ 2
  three : 3 ≤ peers.length
  twoTransports : ∃ a ∈ peers, ∃ b ∈ peers, a.transport ≠ b.transport

/-- Three candidates that make up a diverse set. -/
structure Triple (a b c : Candidate) : Prop where
  first : a.apart b
  second : a.apart c
  third : b.apart c
  transports : ¬ (a.transport = b.transport ∧ b.transport = c.transport)

/-- The first candidate of all and the first candidate apart from it belong to a triple. -/
def LeadsToTriple (candidates : List Candidate) : Prop :=
  ∃ a ∈ candidates, ∃ b ∈ candidates, ∃ c ∈ candidates,
    (∀ d ∈ candidates, a.before d) ∧ (∀ d ∈ candidates, a.apart d → b.before d) ∧ Triple a b c

/-! ## The pass -/

/-- The candidate fits with the ones taken. -/
def Fits (selected : List Candidate) (c : Candidate) : Prop :=
  (∀ d ∈ selected, d.apart c) ∧ selected.countP (fun d => d.transport = c.transport) < 2

/-- The counters count what was taken. -/
structure Counted (s : Selection) : Prop where
  prefixes : Counts s.prefixes (s.selected.map Candidate.network)
  operators : Counts s.operators (s.selected.map Candidate.operatorGroup)
  transports : Counts s.transports (s.selected.map Candidate.transport)

variable {s : Selection} {c : Candidate} {l : List Candidate} {α : Type}

theorem count_map_eq_zero_iff {f : α → Text} {l : List α} {k : Text} :
    (l.map f).count k = 0 ↔ ∀ a ∈ l, f a ≠ k := by
  rw [count_eq_zero, mem_map]
  exact ⟨fun h a ha hk => h ⟨a, ha, hk⟩, fun h ⟨a, ha, hk⟩ => h a ha hk⟩

theorem count_map_eq_countP (f : α → Text) (l : List α) (k : Text) :
    (l.map f).count k = l.countP fun a => f a = k := by
  rw [count, countP_map]
  exact countP_congr fun a _ => by simp

theorem Counted.offer_of_fits (h : Counted s) (hc : Fits s.selected c) :
    (s.offer c).selected = s.selected ++ [c] ∧ Counted (s.offer c) := by
  have hnetwork : (s.selected.map Candidate.network).count c.network = 0 :=
    count_map_eq_zero_iff.2 fun d hd => (hc.1 d hd).1
  have hgroup : (s.selected.map Candidate.operatorGroup).count c.operatorGroup = 0 :=
    count_map_eq_zero_iff.2 fun d hd => (hc.1 d hd).2
  have htransport := hc.2
  rw [← count_map_eq_countP] at htransport
  have hoffer : s.offer c = ⟨s.selected ++ [c], bump s.prefixes c.network,
      bump s.operators c.operatorGroup, bump s.transports c.transport⟩ := by
    unfold Selection.offer maxPeersPerPrefix maxPeersPerOperatorGroup maxPeersPerTransport
    rw [h.prefixes.getD_eq, h.operators.getD_eq, h.transports.getD_eq, if_neg (by omega),
      if_neg (by omega), if_neg (by omega)]
  rw [hoffer]
  refine ⟨rfl, ?_, ?_, ?_⟩
  · exact (h.prefixes.bump c.network).perm (perm_append_singleton c s.selected |>.map _).symm
  · exact (h.operators.bump c.operatorGroup).perm
      (perm_append_singleton c s.selected |>.map _).symm
  · exact (h.transports.bump c.transport).perm (perm_append_singleton c s.selected |>.map _).symm

theorem Counted.offer_of_not_fits (h : Counted s) (hc : ¬ Fits s.selected c) : s.offer c = s := by
  unfold Selection.offer maxPeersPerPrefix maxPeersPerOperatorGroup maxPeersPerTransport
  rw [h.prefixes.getD_eq, h.operators.getD_eq, h.transports.getD_eq]
  split_ifs with hnetwork hgroup htransport
  · rfl
  · rfl
  · rfl
  · refine absurd ⟨fun d hd => ⟨?_, ?_⟩, ?_⟩ hc
    · exact count_map_eq_zero_iff.1 (by omega) d hd
    · exact count_map_eq_zero_iff.1 (by omega) d hd
    · rw [← count_map_eq_countP]
      omega

variable {skipped : List Candidate}

theorem Counted.foldl_first (h : Counted s) (hskipped : ∀ d ∈ skipped, ¬ Fits s.selected d)
    (rest : List Candidate) :
    (skipped ++ rest).foldl Selection.offer s = rest.foldl Selection.offer s := by
  induction skipped with
  | nil => rfl
  | cons d skipped ih =>
    rw [forall_mem_cons] at hskipped
    rw [cons_append, foldl_cons, h.offer_of_not_fits hskipped.1]
    exact ih hskipped.2

theorem Counted.foldl_none (h : Counted s) (hl : ∀ d ∈ l, ¬ Fits s.selected d) :
    l.foldl Selection.offer s = s := by
  have hfirst := h.foldl_first hl []
  rwa [append_nil] at hfirst

/-- What the policy asks of the peers taken so far. -/
structure Spread (selected : List Candidate) : Prop where
  apart : selected.Pairwise Candidate.apart
  transport : ∀ transport, selected.countP (fun d => d.transport = transport) ≤ 2

variable {selected : List Candidate}

theorem Spread.append (h : Spread selected) (hc : Fits selected c) : Spread (selected ++ [c]) := by
  refine ⟨pairwise_append.2 ⟨h.apart, pairwise_singleton _ _, fun d hd e he => ?_⟩,
    fun transport => ?_⟩
  · obtain rfl := mem_singleton.1 he
    exact hc.1 d hd
  · have hcount := h.transport transport
    rw [countP_append, countP_singleton]
    by_cases ht : c.transport = transport
    · subst ht
      have hfits := hc.2
      simp only [decide_true, if_true]
      omega
    · simpa only [ht, decide_false, Bool.false_eq_true, if_false, Nat.add_zero] using hcount

/-- A whole pass: the counters stay right, the peers stay spread, and none is given back. -/
theorem Counted.foldl (h : Counted s) (hspread : Spread s.selected) (l : List Candidate) :
    Counted (l.foldl Selection.offer s) ∧ Spread (l.foldl Selection.offer s).selected ∧
      s.selected <+: (l.foldl Selection.offer s).selected := by
  induction l generalizing s with
  | nil => exact ⟨h, hspread, prefix_refl _⟩
  | cons c l ih =>
    rw [foldl_cons]
    by_cases hc : Fits s.selected c
    · obtain ⟨hselected, hcounted⟩ := h.offer_of_fits hc
      have hstep := ih hcounted (hselected ▸ hspread.append hc)
      rw [hselected] at hstep
      exact ⟨hstep.1, hstep.2.1, (prefix_append _ _).trans hstep.2.2⟩
    · rw [h.offer_of_not_fits hc]
      exact ih h hspread

theorem exists_first {p : α → Prop} {l : List α} (h : ∃ a ∈ l, p a) :
    ∃ skipped a rest, l = skipped ++ a :: rest ∧ (∀ b ∈ skipped, ¬ p b) ∧ p a := by
  induction l with
  | nil =>
    obtain ⟨a, ha, -⟩ := h
    exact absurd ha not_mem_nil
  | cons b l ih =>
    by_cases hb : p b
    · exact ⟨[], b, l, rfl, fun _ hmem => absurd hmem not_mem_nil, hb⟩
    · obtain ⟨a, ha, hpa⟩ := h
      have hmem : a ∈ l := (mem_cons.1 ha).resolve_left fun hab => hb (hab ▸ hpa)
      obtain ⟨skipped, a', rest, rfl, hskipped, ha'⟩ := ih ⟨a, hmem, hpa⟩
      exact ⟨b :: skipped, a', rest, rfl, forall_mem_cons.2 ⟨hb, hskipped⟩, ha'⟩

/-- A pass takes something if and only if something fits. -/
theorem Counted.lt_length_foldl_iff (h : Counted s) (hspread : Spread s.selected) :
    s.selected.length < (l.foldl Selection.offer s).selected.length ↔
      ∃ c ∈ l, Fits s.selected c := by
  constructor
  · intro hlt
    by_contra hnone
    rw [h.foldl_none fun d hd hfits => hnone ⟨d, hd, hfits⟩] at hlt
    exact lt_irrefl _ hlt
  · intro hsome
    obtain ⟨skipped, c, rest, rfl, hskipped, hc⟩ := exists_first hsome
    obtain ⟨hselected, hcounted⟩ := h.offer_of_fits hc
    have hle := (hcounted.foldl (hselected ▸ hspread.append hc) rest).2.2.length_le
    rw [hselected, length_append, length_singleton] at hle
    rw [h.foldl_first hskipped, foldl_cons]
    omega

variable {a b : Candidate}

theorem fits_singleton_iff : Fits [a] b ↔ a.apart b := by
  refine ⟨fun h => h.1 a (mem_singleton_self a), fun h => ⟨fun d hd => ?_, ?_⟩⟩
  · obtain rfl := mem_singleton.1 hd
    exact h
  · have hle := countP_le_length (p := fun d : Candidate => decide (d.transport = b.transport))
      (l := [a])
    rw [length_singleton] at hle
    omega

theorem fits_pair_iff {c : Candidate} (hab : a.apart b) : Fits [a, b] c ↔ Triple a b c := by
  have hcount : [a, b].countP (fun d => d.transport = c.transport) < 2 ↔
      ¬ (a.transport = b.transport ∧ b.transport = c.transport) := by
    by_cases ha : a.transport = c.transport
    · by_cases hb : b.transport = c.transport
      · simp [ha, hb]
      · simp [ha, hb]
    · by_cases hb : b.transport = c.transport
      · simp [ha, hb]
      · simp [ha, hb]
  constructor
  · rintro ⟨hapart, htransport⟩
    exact ⟨hab, hapart a (by simp), hapart b (by simp), hcount.1 htransport⟩
  · rintro ⟨-, hac, hbc, htransport⟩
    refine ⟨fun d hd => ?_, hcount.2 htransport⟩
    rcases mem_cons.1 hd with rfl | hd
    · exact hac
    · exact mem_singleton.1 hd ▸ hbc

theorem apart_irrefl (a : Candidate) : ¬ a.apart a := fun h => h.1 rfl

theorem before_antisymm (hids : (l.map Candidate.peerId).Nodup) (ha : a ∈ l) (hb : b ∈ l)
    (hab : a.before b) (hba : b.before a) : a = b := by
  refine inj_on_of_nodup_map hids ha hb ?_
  rcases hab with hlt | ⟨heq, hle⟩
  · rcases hba with hlt' | ⟨heq', -⟩
    · omega
    · omega
  · rcases hba with hlt' | ⟨-, hle'⟩
    · omega
    · exact le_antisymm hle hle'

theorem counted_none : Counted Selection.none := ⟨Counts.empty, Counts.empty, Counts.empty⟩

theorem spread_none : Spread Selection.none.selected := ⟨Pairwise.nil, fun _ => Nat.zero_le _⟩

theorem before_refl (a : Candidate) : a.before a := .inr ⟨rfl, le_refl _⟩

theorem first_pick (a : Candidate) : (Selection.none.offer a).selected = [a] ∧
    Counted (Selection.none.offer a) ∧ Spread (Selection.none.offer a).selected := by
  have hfits : Fits Selection.none.selected a :=
    ⟨fun d hd => absurd hd not_mem_nil, Nat.zero_lt_two⟩
  obtain ⟨hselected, hcounted⟩ := counted_none.offer_of_fits hfits
  exact ⟨hselected, hcounted, hselected ▸ spread_none.append hfits⟩

/-- The first candidate apart from it is the second one, and a third is found if there is one. -/
theorem three_le_after_first {post : List Candidate} (hskipped : ∀ d ∈ skipped, ¬ a.apart d)
    (hab : a.apart b) :
    3 ≤ ((skipped ++ b :: post).foldl Selection.offer (Selection.none.offer a)).selected.length ↔
      ∃ c ∈ post, Triple a b c := by
  obtain ⟨hselected, hcounted, hspread⟩ := first_pick a
  have hfits : Fits (Selection.none.offer a).selected b := by
    exact fits_singleton_iff.2 hab
  obtain ⟨hselected₂, hcounted₂⟩ := hcounted.offer_of_fits hfits
  have hspread₂ : Spread ((Selection.none.offer a).offer b).selected :=
    hselected₂ ▸ hspread.append hfits
  rw [hcounted.foldl_first (fun d hd hd' => hskipped d hd (fits_singleton_iff.1 (hselected ▸ hd'))),
    foldl_cons]
  have hlt := hcounted₂.lt_length_foldl_iff (l := post) hspread₂
  rw [hselected₂, hselected] at hlt
  refine Iff.trans ?_ (hlt.trans (exists_congr fun c => and_congr_right fun _ => fits_pair_iff hab))
  exact Iff.rfl

/-- The pass over the sorted candidates finds three peers exactly when its first two picks belong to
a triple. -/
theorem three_le_selected_iff (hids : (l.map Candidate.peerId).Nodup)
    (hsorted : l.Pairwise Candidate.before) :
    3 ≤ (l.foldl Selection.offer Selection.none).selected.length ↔ LeadsToTriple l := by
  cases l with
  | nil =>
    refine ⟨fun h => absurd h (by decide), ?_⟩
    rintro ⟨a, ha, -⟩
    exact absurd ha not_mem_nil
  | cons a rest =>
    have hbefore : ∀ d ∈ a :: rest, a.before d :=
      forall_mem_cons.2 ⟨before_refl a, (pairwise_cons.1 hsorted).1⟩
    have hrest : ∀ d ∈ a :: rest, a.apart d → d ∈ rest := fun d hd hapart =>
      (mem_cons.1 hd).resolve_left fun hda => apart_irrefl a (hda ▸ hapart)
    have hfirst : ∀ a' ∈ a :: rest, (∀ d ∈ a :: rest, a'.before d) → a' = a := fun a' ha' hle =>
      before_antisymm hids ha' mem_cons_self (hle a mem_cons_self) (hbefore a' ha')
    rw [foldl_cons]
    by_cases hsome : ∃ b ∈ rest, a.apart b
    · obtain ⟨skipped, b, post, rfl, hskipped, hab⟩ := exists_first hsome
      have hb : b ∈ a :: (skipped ++ b :: post) := by simp
      -- whatever is apart from `a` comes at `b` or later
      have hpost : ∀ d ∈ a :: (skipped ++ b :: post), a.apart d → d = b ∨ d ∈ post := by
        intro d hd hapart
        rcases mem_append.1 (hrest d hd hapart) with hmem | hmem
        · exact absurd hapart (hskipped d hmem)
        · exact mem_cons.1 hmem
      have hsecond : ∀ d ∈ a :: (skipped ++ b :: post), a.apart d → b.before d := by
        intro d hd hapart
        rcases hpost d hd hapart with rfl | hmem
        · exact before_refl d
        · have hsuffix := (pairwise_append.1 (pairwise_cons.1 hsorted).2).2.1
          exact (pairwise_cons.1 hsuffix).1 d hmem
      rw [three_le_after_first hskipped hab]
      constructor
      · rintro ⟨c, hc, htriple⟩
        exact ⟨a, mem_cons_self, b, hb, c, by simp [hc], hbefore, hsecond, htriple⟩
      · rintro ⟨a', ha', b', hb', c, hc, hle, hle', htriple⟩
        obtain rfl := hfirst a' ha' hle
        obtain rfl := before_antisymm hids hb' hb (hle' b hb hab) (hsecond b' hb' htriple.first)
        refine ⟨c, (hpost c hc htriple.second).resolve_left fun hcb => ?_, htriple⟩
        exact apart_irrefl _ (hcb ▸ htriple.third)
    · obtain ⟨hselected, hcounted, -⟩ := first_pick a
      rw [hcounted.foldl_none fun d hd hfits =>
        hsome ⟨d, hd, fits_singleton_iff.1 (hselected ▸ hfits)⟩,
        hselected]
      refine ⟨fun h => absurd h (by simp), ?_⟩
      rintro ⟨a', ha', b', hb', c, hc, hle, -, htriple⟩
      obtain rfl := hfirst a' ha' hle
      exact absurd ⟨b', hrest b' hb' htriple.first, htriple.first⟩ hsome

/-! ## The result of the selection -/

theorem Spread.nodup_map (h : Spread selected) {f : Candidate → Text}
    (hf : ∀ a b : Candidate, a.apart b → f a ≠ f b) : (selected.map f).Nodup :=
  pairwise_map.2 (h.apart.imp fun hab => hf _ _ hab)

/-- Three spread peers have three networks, three operator groups and two transports. -/
theorem Counted.sizes (h : Counted s) (hspread : Spread s.selected)
    (hthree : 3 ≤ s.selected.length) :
    3 ≤ s.prefixes.size ∧ 3 ≤ s.operators.size ∧ 2 ≤ s.transports.size := by
  refine ⟨?_, ?_, ?_⟩
  · refine hthree.trans ?_
    have hle := h.prefixes.length_le_size (hspread.nodup_map fun _ _ hab => hab.1) fun _ hk => hk
    rwa [length_map] at hle
  · refine hthree.trans ?_
    have hle := h.operators.length_le_size (hspread.nodup_map fun _ _ hab => hab.2) fun _ hk => hk
    rwa [length_map] at hle
  · -- not all of the three are of the first one's transport
    match hselected : s.selected, hthree with
    | a :: rest, hthree =>
      have hcount := hspread.transport a.transport
      rw [hselected] at hcount
      have hother : ∃ b ∈ a :: rest, b.transport ≠ a.transport := by
        by_contra hall
        have hfull : (a :: rest).countP (fun d => d.transport = a.transport) =
            (a :: rest).length := by
          refine countP_eq_length.2 fun b hb => decide_eq_true ?_
          by_contra hne
          exact hall ⟨b, hb, hne⟩
        omega
      obtain ⟨b, hb, hne⟩ := hother
      have hnodup : [a.transport, b.transport].Nodup :=
        nodup_cons.2 ⟨by simpa using Ne.symm hne, nodup_singleton _⟩
      refine h.transports.length_le_size hnodup fun k hk => ?_
      rw [hselected]
      rcases mem_cons.1 hk with rfl | hk
      · exact mem_map_of_mem mem_cons_self
      · exact mem_singleton.1 hk ▸ mem_map_of_mem hb

theorem Counted.finish_eq_error_iff (h : Counted s) (hspread : Spread s.selected) :
    (∃ detail, s.finish = .error ⟨"insufficient_peer_diversity", detail⟩) ↔
      ¬ 3 ≤ s.selected.length := by
  unfold Selection.finish minDiversePeers minDistinctPrefixes minDistinctOperatorGroups
    minDistinctTransports
  by_cases hthree : 3 ≤ s.selected.length
  · obtain ⟨hprefixes, hoperators, htransports⟩ := h.sizes hspread hthree
    rw [require_of_pos (by omega), ok_bind]
    refine ⟨?_, fun hnot => absurd hthree hnot⟩
    rintro ⟨detail, hdetail⟩
    cases hdetail
  · rw [require_of_neg (by omega), error_bind]
    exact ⟨fun _ => hthree, fun _ => ⟨_, rfl⟩⟩

instance : IsTrans Candidate Candidate.before where
  trans a b c hab hbc := by
    unfold Candidate.before at hab hbc ⊢
    rcases hab with hlt | ⟨heq, hle⟩
    · exact .inl (by omega)
    · rcases hbc with hlt' | ⟨heq', hle'⟩
      · exact .inl (by omega)
      · exact .inr ⟨heq.trans heq', le_trans hle hle'⟩

instance : Std.Total Candidate.before where
  total a b := by
    unfold Candidate.before
    rcases lt_trichotomy a.priority b.priority with hlt | heq | hgt
    · exact .inl (.inl hlt)
    · rcases le_total a.peerId b.peerId with hle | hle
      · exact .inl (.inr ⟨heq, hle⟩)
      · exact .inr (.inr ⟨heq.symm, hle⟩)
    · exact .inr (.inl hgt)

theorem LeadsToTriple.perm {l l' : List Candidate} (hperm : l.Perm l') (h : LeadsToTriple l) :
    LeadsToTriple l' := by
  obtain ⟨a, ha, b, hb, c, hc, hle, hle', htriple⟩ := h
  exact ⟨a, hperm.mem_iff.1 ha, b, hperm.mem_iff.1 hb, c, hperm.mem_iff.1 hc,
    fun d hd => hle d (hperm.mem_iff.2 hd), fun d hd => hle' d (hperm.mem_iff.2 hd), htriple⟩

theorem selectFrom_eq_error_iff (hids : (l.map Candidate.peerId).Nodup) :
    (∃ detail, selectFrom l = .error ⟨"insufficient_peer_diversity", detail⟩) ↔
      ¬ LeadsToTriple l := by
  have hperm := perm_insertionSort Candidate.before l
  have hiff := three_le_selected_iff ((hperm.map Candidate.peerId).nodup_iff.2 hids)
    (pairwise_insertionSort Candidate.before l)
  have hleads : LeadsToTriple (l.insertionSort Candidate.before) ↔ LeadsToTriple l :=
    ⟨LeadsToTriple.perm hperm, LeadsToTriple.perm hperm.symm⟩
  obtain ⟨hcounted, hspread, -⟩ :=
    counted_none.foldl spread_none (l.insertionSort Candidate.before)
  rw [← hleads, ← hiff]
  exact hcounted.finish_eq_error_iff hspread

/-! ## Diverse sets -/

theorem two_le_countP {p : α → Bool} {l : List α} {a b : α} (hne : a ≠ b) (ha : a ∈ l) (hb : b ∈ l)
    (hpa : p a) (hpb : p b) : 2 ≤ l.countP p := by
  have hsub : [a, b] ⊆ l.filter p := by
    intro d hd
    rcases mem_cons.1 hd with rfl | hd
    · exact mem_filter.2 ⟨ha, hpa⟩
    · exact mem_singleton.1 hd ▸ mem_filter.2 ⟨hb, hpb⟩
  have hnodup : [a, b].Nodup := nodup_cons.2 ⟨by simpa using hne, nodup_singleton b⟩
  have hle := (subperm_of_subset hnodup hsub).length_le
  rwa [← countP_eq_length_filter] at hle

theorem Diverse.apart {peers : List Candidate} (h : Diverse peers) (ha : a ∈ peers) (hb : b ∈ peers)
    (hne : a ≠ b) : a.apart b := by
  refine ⟨fun heq => ?_, fun heq => ?_⟩
  · have htwo := two_le_countP (p := fun c => c.network = b.network) hne ha hb (by simpa using heq)
      (by simp)
    have hone := h.network b.network
    omega
  · have htwo := two_le_countP (p := fun c => c.operatorGroup = b.operatorGroup) hne ha hb
      (by simpa using heq) (by simp)
    have hone := h.operatorGroup b.operatorGroup
    omega

theorem exists_diverse_iff : (∃ peers, (∀ p ∈ peers, p ∈ l) ∧ Diverse peers) ↔
    ∃ a ∈ l, ∃ b ∈ l, ∃ c ∈ l, Triple a b c := by
  constructor
  · rintro ⟨peers, hsub, h⟩
    obtain ⟨a, ha, b, hb, hab⟩ := h.twoTransports
    have hne : a ≠ b := fun heq => hab (congrArg Candidate.transport heq)
    -- a third peer, because the set has three
    have hthird : ∃ c ∈ peers, c ≠ a ∧ c ≠ b := by
      by_contra hnone
      have hsub' : peers ⊆ [a, b] := fun c hc => by
        by_contra hc'
        exact hnone ⟨c, hc, fun h => hc' (by simp [h]), fun h => hc' (by simp [h])⟩
      have hle := (subperm_of_subset h.nodup hsub').length_le
      have hthree := h.three
      simp only [length_cons, length_nil] at hle
      omega
    obtain ⟨c, hc, hca, hcb⟩ := hthird
    exact ⟨a, hsub a ha, b, hsub b hb, c, hsub c hc, h.apart ha hb hne, h.apart ha hc (Ne.symm hca),
      h.apart hb hc (Ne.symm hcb), fun heq => hab heq.1⟩
  · rintro ⟨a, ha, b, hb, c, hc, hab, hac, hbc, htransports⟩
    refine ⟨[a, b, c], by simp [ha, hb, hc], ?_, fun network => ?_, fun group =>
      ?_, fun transport => ?_,
      le_refl 3, ?_⟩
    · have hne : ∀ {x y : Candidate}, x.apart y → x ≠ y := fun hxy heq => hxy.1 (heq ▸ rfl)
      simp [hne hab, hne hac, hne hbc]
    · rw [← count_map_eq_countP]
      exact nodup_iff_count_le_one.1 (by simp [hab.1, hac.1, hbc.1]) network
    · rw [← count_map_eq_countP]
      exact nodup_iff_count_le_one.1 (by simp [hab.2, hac.2, hbc.2]) group
    · by_contra hmore
      have hle := countP_le_length (p := fun d : Candidate => decide (d.transport = transport))
        (l := [a, b, c])
      have hall := countP_eq_length.1 (le_antisymm hle (not_le.1 hmore))
      have htransport : ∀ d ∈ [a, b, c], d.transport = transport := fun d hd =>
        of_decide_eq_true (hall d hd)
      refine htransports ⟨?_, ?_⟩
      · rw [htransport a (by simp), htransport b (by simp)]
      · rw [htransport b (by simp), htransport c (by simp)]
    · by_cases heq : a.transport = b.transport
      · exact ⟨b, by simp, c, by simp, fun heq' => htransports ⟨heq, heq'⟩⟩
      · exact ⟨a, by simp, b, by simp, heq⟩

/-! ## Completeness -/

theorem nodup_of_normalize {candidates : List Json} {normalized : List Candidate}
    (h : normalize candidates = .ok normalized) : (normalized.map Candidate.peerId).Nodup := by
  have hnil : (([] : List Candidate).map Candidate.peerId).Nodup := nodup_nil
  refine foldlM_eq_ok (P := fun _ (cs : List Candidate) => (cs.map Candidate.peerId).Nodup)
    hnil (fun _ cs candidate cs' hcs hstep => ?_) h
  simp only [normalizeNext, bind_eq_ok, require_eq_ok] at hstep
  obtain ⟨_, -, r, -, peerId, -, _, hnew, _, -, _, -, _, -, _, -, hstep⟩ := hstep
  obtain rfl := Except.ok.inj hstep
  rw [map_append, map_singleton]
  refine nodup_append.2 ⟨hcs, nodup_singleton _, fun id hid id' hid' => ?_⟩
  obtain ⟨c, hc, rfl⟩ := mem_map.1 hid
  obtain rfl := mem_singleton.1 hid'
  exact of_decide_eq_true (all_eq_true.1 hnew c hc)

/-- **When diversity is found.** For well-formed candidates, the selector reports insufficient
diversity only where there is no diverse set, if and only if the first candidate and the first one
apart from it belong to a triple whenever any three candidates are one. -/
theorem diverse_peers_found_iff (candidates : List Json) (normalized : List Candidate)
    (h : normalize candidates = .ok normalized) :
    ((∃ detail, selectDiversePeers candidates = .error ⟨"insufficient_peer_diversity", detail⟩) →
        ¬ ∃ peers, (∀ p ∈ peers, p ∈ normalized) ∧ Diverse peers) ↔
      ((∃ a ∈ normalized, ∃ b ∈ normalized, ∃ c ∈ normalized, Triple a b c) →
        LeadsToTriple normalized) := by
  have hselect : selectDiversePeers candidates = selectFrom normalized := by
    rw [selectDiversePeers, h, ok_bind]
  rw [hselect, selectFrom_eq_error_iff (nodup_of_normalize h), exists_diverse_iff]
  exact ⟨fun hfound htriple => not_not.1 fun hnot => hfound hnot htriple,
    fun hleads hnot htriple => hnot (hleads htriple)⟩

namespace Sample

def candidateJson (peerId address group transport : String) (priority : Int) : Json :=
  Json.ofRecord (F := CandidateField) fun
    | .peerId => .str (ascii peerId)
    | .address => .str (ascii address)
    | .operatorGroup => .str (ascii group)
    | .transport => .str (ascii transport)
    | .priority => .int priority

/-- Three candidates that will do, and a first one that shares its network with one of them and its
operator group with another. -/
def shutOut : List Json :=
  [candidateJson "peer-a" "192.0.2.1" "group-1" "tcp" 0,
    candidateJson "peer-b" "192.0.2.2" "group-2" "tcp" 1,
    candidateJson "peer-c" "198.51.100.1" "group-1" "tcp" 2,
    candidateJson "peer-d" "203.0.113.1" "group-3" "quic" 3]

/-- The three that will do. -/
def diverse : List Candidate :=
  [⟨ascii "peer-b", ascii "192.0.2.2", ascii "group-2", ascii "tcp", 1, ascii "192.0.2.0/24"⟩,
    ⟨ascii "peer-c", ascii "198.51.100.1", ascii "group-1", ascii "tcp", 2,
      ascii "198.51.100.0/24"⟩,
    ⟨ascii "peer-d", ascii "203.0.113.1", ascii "group-3", ascii "quic", 3, ascii "203.0.113.0/24"⟩]

/-- The same candidates without the first. -/
def unobstructed : List Json := shutOut.drop 1

end Sample

open Sample

theorem diverse_peers_found_unobstructed :
    normalize unobstructed = .ok diverse ∧ LeadsToTriple diverse := by
  have hnormalize : normalize unobstructed = .ok diverse := by decide +kernel
  have hselects : (selectDiversePeers unobstructed).isOk := by decide +kernel
  refine ⟨hnormalize, (diverse_peers_found_iff _ _ hnormalize).1 ?_ ?_⟩
  · rintro ⟨detail, herror⟩
    simp [herror, Except.isOk, Except.toBool] at hselects
  · refine ⟨_, .head _, _, .tail _ (.head _), _, .tail _ (.tail _ (.head _)), ?_, ?_,
      ?_, by decide +kernel⟩
    all_goals
      unfold Candidate.apart
      decide +kernel

/-- The first candidate shuts out two of the three peers that would have done. -/
theorem diversity_missed : ∃ normalized, normalize shutOut = .ok normalized ∧
    (∃ detail, selectDiversePeers shutOut =
      .error ⟨"insufficient_peer_diversity", detail⟩) ∧
    ∃ peers, (∀ p ∈ peers, p ∈ normalized) ∧ Diverse peers := by
  refine ⟨⟨ascii "peer-a", ascii "192.0.2.1", ascii "group-1", ascii "tcp", 0,
    ascii "192.0.2.0/24"⟩ ::
    diverse, by decide +kernel,
    ⟨"candidate set cannot satisfy the frozen diversity floor", by decide +kernel⟩, ?_⟩
  refine exists_diverse_iff.2 ⟨_, mem_cons_of_mem _ mem_cons_self, _,
    mem_cons_of_mem _ (mem_cons_of_mem _ mem_cons_self), _,
    mem_cons_of_mem _ (mem_cons_of_mem _ (mem_cons_of_mem _ mem_cons_self)), ?_⟩
  exact ⟨⟨by decide, by decide⟩, ⟨by decide, by decide⟩, ⟨by decide, by decide⟩, by decide⟩

end Soveroot.Multihost
