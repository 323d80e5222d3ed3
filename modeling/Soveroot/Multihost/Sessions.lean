import Soveroot.Multihost.Rates

/-!
# Open sessions and bounded state

The counters of `AdmissionController` are the multiset of open sessions, once by identity and once
by source network (`Counts`), as long as a session is closed with the identity and the network it
was opened with. Every table stays within its limit (`Held`), and a handshake that is not admitted
only moves the clock (`ensures_refused`).
-/

namespace Soveroot.Multihost

open Py Check Stateful List Dict

/-! ## Counters -/

/-- A table that counts how often each key occurs, without zeros. -/
def Counts (d : Dict Text Int) (keys : List Text) : Prop :=
  ∀ k, d.get? k = if keys.count k = 0 then none else some (keys.count k : Int)

namespace Counts

variable {d : Dict Text Int} {keys : List Text} {k : Text}

theorem empty : Counts Dict.empty [] := fun _ => rfl

theorem getD_eq (h : Counts d keys) (k : Text) : (d.get? k).getD 0 = keys.count k := by
  rw [h k]
  split_ifs with h0
  · rw [h0]
    rfl
  · rfl

theorem bump (h : Counts d keys) (k : Text) : Counts (bump d k) (k :: keys) := by
  intro j
  rw [Multihost.bump, get?_set, h.getD_eq]
  by_cases hj : j = k
  · subst hj
    rw [if_pos rfl, count_cons_self, if_neg (Nat.succ_ne_zero _)]
    rfl
  · rw [if_neg hj, count_cons_of_ne (Ne.symm hj), h j]

theorem perm {keys' : List Text} (h : Counts d keys) (hperm : keys.Perm keys') :
    Counts d keys' := by
  intro k
  rw [h k, hperm.count_eq]

theorem release (h : Counts d (k :: keys)) : Counts (release d k) keys := by
  intro j
  rw [Multihost.release, h.getD_eq, count_cons_self, if_pos (by omega)]
  have hj := h j
  by_cases hjk : j = k
  · subst hjk
    by_cases hone : keys.count j = 0
    · rw [if_pos (by omega), get?_erase, if_pos rfl, if_pos hone]
    · rw [if_neg (by omega), get?_set_self, if_neg hone]
      congr 1
      omega
  · rw [count_cons_of_ne (Ne.symm hjk)] at hj
    rw [← hj]
    split_ifs
    · rw [get?_erase, if_neg hjk]
    · rw [get?_set_of_ne _ hjk]

section

variable (h : Counts d keys)
include h

theorem entry {e : Text × Int} (he : e ∈ d.entries) :
    e.1 ∈ keys ∧ e.2 = keys.count e.1 := by
  have hget := get?_eq_some_iff.2 he
  rw [h e.1] at hget
  split_ifs at hget with h0
  exact ⟨count_pos_iff.1 (Nat.pos_of_ne_zero h0), (Option.some.inj hget).symm⟩

theorem mem_keys_iff : k ∈ d.keys ↔ k ∈ keys := by
  rw [Dict.mem_keys_iff, h k]
  by_cases hk : keys.count k = 0
  · simp [hk, count_eq_zero.1 hk]
  · simp [hk, count_pos_iff.1 (Nat.pos_of_ne_zero hk)]

theorem length_le_size {some : List Text} (hnodup : some.Nodup)
    (hsub : ∀ k ∈ some, k ∈ keys) : some.length ≤ d.size := by
  have hle := (subperm_of_subset hnodup fun k hk => h.mem_keys_iff.2 (hsub k hk)).length_le
  rwa [Dict.keys, length_map] at hle

theorem size_le : d.size ≤ keys.length := by
  have hsub : d.keys ⊆ keys := fun k hk => by
    obtain ⟨e, he, rfl⟩ := mem_map.1 hk
    exact (h.entry he).1
  have hle := (subperm_of_subset d.nodup hsub).length_le
  rwa [length_map] at hle

end

theorem sum_release (h : Counts d (k :: keys)) : (Multihost.release d k).sum = d.sum - 1 := by
  have hcount := h.getD_eq k
  rw [count_cons_self] at hcount
  rw [Multihost.release, hcount, if_pos (by omega)]
  split_ifs
  · rw [Dict.sum_erase, hcount]
    omega
  · rw [Dict.sum_set, hcount]
    omega

/-- The counts add up to the number of keys: taking one key out takes one off the sum. -/
theorem sum_eq (h : Counts d keys) : d.sum = keys.length := by
  induction keys generalizing d with
  | nil =>
    have hnil : d.entries = [] := eq_nil_iff_forall_not_mem.2 fun e he =>
      absurd (h.entry he).1 not_mem_nil
    rw [Dict.sum, hnil]
    rfl
  | cons k keys ih =>
    have hsum := h.sum_release
    rw [ih h.release] at hsum
    rw [length_cons]
    omega

end Counts

/-! ## The state is bounded -/

/-- A bucket table as it is kept. -/
def KeptBuckets (table : Dict Text Bucket) : Prop :=
  table.size ≤ maxAdmissionBuckets ∧ ∀ e ∈ table.entries, 0 ≤ e.2.tick

/-- A table of at most `limit` expiry ticks. -/
def KeptTicks (limit : Nat) (d : Dict Text Int) : Prop :=
  d.size ≤ limit ∧ ∀ e ∈ d.entries, 0 ≤ e.2

/-- A state with the given open sessions, each with its identity and source network. -/
structure Held (sessions : List (Text × Text)) (c : Controller) : Prop where
  tick_nonneg : 0 ≤ c.tick
  buckets : ∀ family, KeptBuckets (c.table family)
  replayNonces : KeptTicks maxReplayNonces c.replayNonces
  quarantines : KeptTicks maxQuarantines c.quarantines
  identities : Counts c.activeIdentity (sessions.map Prod.fst)
  networks : Counts c.activePrefix (sessions.map Prod.snd)
  sessions_le : (sessions.length : Int) ≤ maxActiveSessions
  identity_le : ∀ peerId, ((sessions.map Prod.fst).count peerId : Int) ≤ maxSessionsPerIdentity
  network_le : ∀ network, ((sessions.map Prod.snd).count network : Int) ≤ maxSessionsPerSourcePrefix
  rejections : ∀ e ∈ c.rejections.entries, (∃ reason ∈ reasons, e.1 = ascii reason) ∧ 0 ≤ e.2

variable {table : Dict Text Bucket}

theorem KeptBuckets.discard (h : KeptBuckets table) (rate : Bucket.Rate) (tick : Int) :
    KeptBuckets (Bucket.discard rate table tick) :=
  ⟨(table.size_filter_le _).trans h.1, fun e he => h.2 e (mem_of_mem_filter he)⟩

variable {key : Text}

theorem KeptBuckets.set (h : KeptBuckets table) {b : Bucket}
    (hroom : ¬ (table.contains key = false ∧ maxAdmissionBuckets ≤ table.size)) (hb : 0 ≤ b.tick) :
    KeptBuckets (table.set key b) := by
  refine ⟨?_, fun e he => ?_⟩
  · rw [size_set]
    split_ifs with hkey
    · exact h.1
    · have hlt : ¬ maxAdmissionBuckets ≤ table.size := fun hfull =>
        hroom ⟨contains_eq_false_iff.2 hkey, hfull⟩
      omega
  · rcases mem_entries_set.1 he with rfl | he
    · exact hb
    · exact h.2 e he.1

theorem KeptBuckets.consume (h : KeptBuckets table) (rate : Bucket.Rate) (key : Text) {tick : Int}
    (htick : 0 ≤ tick) (cost : Int) :
    KeptBuckets (Bucket.consume rate maxAdmissionBuckets table key tick cost).2 := by
  unfold Bucket.consume
  by_cases hroom : table.contains key = false ∧ maxAdmissionBuckets ≤ table.size
  · rw [if_pos hroom]
    exact h
  · rw [if_neg hroom]
    dsimp only
    split_ifs
    · exact h.set hroom htick
    · exact h.set hroom htick

variable {limit : Nat} {d : Dict Text Int}

theorem KeptTicks.filter (h : KeptTicks limit d) (p : Text → Int → Bool) :
    KeptTicks limit (d.filter p) :=
  ⟨(d.size_filter_le p).trans h.1, fun e he => h.2 e (mem_of_mem_filter he)⟩

theorem KeptTicks.set (h : KeptTicks limit d) {value : Int}
    (hroom : ¬ (key ∉ d.keys ∧ limit ≤ d.size)) (hvalue : 0 ≤ value) :
    KeptTicks limit (d.set key value) := by
  refine ⟨?_, fun e he => ?_⟩
  · rw [size_set]
    split_ifs with hkey
    · exact h.1
    · have hlt : ¬ limit ≤ d.size := fun hfull => hroom ⟨hkey, hfull⟩
      omega
  · rcases mem_entries_set.1 he with rfl | he
    · exact hvalue
    · exact h.2 e he.1

namespace Held

variable {sessions : List (Text × Text)} {c : Controller} {tick : Int}

theorem fresh : Held [] .fresh := by
  refine ⟨le_refl 0, fun family => ?_, ?_, ?_, Counts.empty, Counts.empty, by decide,
    fun _ => zero_le_two, fun _ => zero_le_four, fun e he => absurd he not_mem_nil⟩
  · cases family <;> exact ⟨Nat.zero_le _, fun e he => absurd he not_mem_nil⟩
  · exact ⟨Nat.zero_le _, fun e he => absurd he not_mem_nil⟩
  · exact ⟨Nat.zero_le _, fun e he => absurd he not_mem_nil⟩

variable (h : Held sessions c)
include h

theorem reject {reason : String} (hreason : reason ∈ reasons) :
    Held sessions (c.rejected reason) := by
  refine ⟨h.tick_nonneg, fun family => ?_, h.replayNonces, h.quarantines, h.identities, h.networks,
    h.sessions_le, h.identity_le, h.network_le, fun e he => ?_⟩
  · cases family
    · exact h.buckets .handshake
    · exact h.buckets .message
  · rcases mem_entries_set.1 he with rfl | he
    · refine ⟨⟨reason, hreason, rfl⟩, ?_⟩
      cases hget : c.rejections.get? (ascii reason) with
      | none => exact Int.one_nonneg
      | some n =>
        have hn := (h.rejections _ (get?_eq_some_iff.1 hget)).2
        rw [Option.getD_some]
        omega
    · exact h.rejections e he.1

theorem consume (family : Family) (key : Text) (cost : Int) :
    Held sessions (c.setTable family
      (Bucket.consume family.rate maxAdmissionBuckets (c.table family) key c.tick cost).2) := by
  have hkept := (h.buckets family).consume family.rate key h.tick_nonneg cost
  cases family <;> refine ⟨h.tick_nonneg, fun family => ?_, h.replayNonces, h.quarantines,
    h.identities, h.networks, h.sessions_le, h.identity_le, h.network_le, h.rejections⟩ <;>
    cases family
  · exact hkept
  · exact h.buckets .message
  · exact h.buckets .handshake
  · exact hkept

theorem advanced (htick : c.tick ≤ tick) :
    Held sessions (c.advanced Bucket.discard tick) := by
  refine ⟨h.tick_nonneg.trans htick, fun family => ?_, h.replayNonces.filter _,
    h.quarantines.filter _,
    h.identities, h.networks, h.sessions_le, h.identity_le, h.network_le, h.rejections⟩
  rw [Controller.table_advanced]
  exact (h.buckets family).discard _ _

end Held

/-! ## The methods -/

/-- The state during a method at `tick`. -/
def HeldAt (sessions : List (Text × Text)) (tick : Int) (c : Controller) : Prop :=
  Held sessions c ∧ c.tick = tick

variable {sessions : List (Text × Text)} {c : Controller}

theorem HeldAt.consume {tick : Int} (h : HeldAt sessions tick c) (family : Family) (key : Text)
    (cost : Int) : HeldAt sessions tick (c.setTable family
      (Bucket.consume family.rate maxAdmissionBuckets (c.table family) key tick cost).2) := by
  obtain ⟨hheld, rfl⟩ := h
  exact ⟨hheld.consume family key cost, c.tick_setTable _ _⟩

theorem checked_held (sessions : List (Text × Text)) :
    Checked (Held sessions) fun _ => Held sessions :=
  ⟨fun _ hc _ hreason _ => hc.reject hreason, fun _ hc _ => hc⟩

theorem Held.ensures_advance (sessions : List (Text × Text)) (tick : Int) :
    Ensures (Held sessions) (advanceWith Bucket.discard tick) (fun _ => HeldAt sessions tick)
      fun _ => Held sessions :=
  ensures_advanceWith (fun _ hc _ => hc.reject (by decide)) fun _ hc htick =>
    ⟨hc.advanced htick, rfl⟩

variable {peerId network : Text}

theorem HeldAt.admitted {nonce : Text} {tick : Int} (h : HeldAt sessions tick c)
    (hnonces : c.replayNonces.size < maxReplayNonces)
    (hsum : c.activeIdentity.sum < maxActiveSessions)
    (hidentity : (c.activeIdentity.get? peerId).getD 0 < maxSessionsPerIdentity)
    (hnetwork : (c.activePrefix.get? network).getD 0 < maxSessionsPerSourcePrefix) :
    Held ((peerId, network) :: sessions) (c.admitted peerId network nonce tick) := by
  obtain ⟨hheld, rfl⟩ := h
  rw [hheld.identities.sum_eq, length_map] at hsum
  rw [hheld.identities.getD_eq] at hidentity
  rw [hheld.networks.getD_eq] at hnetwork
  refine ⟨hheld.tick_nonneg, fun family => ?_, ?_, hheld.quarantines, hheld.identities.bump peerId,
    hheld.networks.bump network, ?_, fun p => ?_, fun n => ?_, hheld.rejections⟩
  · cases family
    · exact hheld.buckets .handshake
    · exact hheld.buckets .message
  · refine hheld.replayNonces.set (fun hfull => absurd hfull.2 (not_le.2 hnonces)) ?_
    have htick := hheld.tick_nonneg
    unfold helloLifetimeTicks
    omega
  · rw [length_cons]
    omega
  · rw [map_cons]
    by_cases hp : p = peerId
    · rw [hp, count_cons_self]
      omega
    · rw [count_cons_of_ne (Ne.symm hp)]
      exact hheld.identity_le p
  · rw [map_cons]
    by_cases hn : n = network
    · rw [hn, count_cons_self]
      omega
    · rw [count_cons_of_ne (Ne.symm hn)]
      exact hheld.network_le n

/-- The state between the checks of a handshake, with room for its nonce. -/
def HeldRoom (sessions : List (Text × Text)) (tick : Int) (c : Controller) : Prop :=
  HeldAt sessions tick c ∧ c.replayNonces.size < maxReplayNonces

variable {reason : String}

section

variable (sessions : List (Text × Text))

theorem HeldRoom.ensures_pay (tick : Int) (key : Text)
    (full : String) (hreason : reason ∈ reasons) (detail : String) :
    Ensures (HeldRoom sessions tick) (pay .handshake key tick 1 full reason detail)
      (fun _ => HeldRoom sessions tick) fun _ => Held sessions :=
  Checked.ensures_pay (R := fun _ => HeldRoom sessions tick)
    (fun _ => (checked_held sessions).mono fun _ hc => hc.1.1) full hreason detail
    fun _ hc => ⟨hc.1.consume .handshake key 1, hc.2⟩

theorem Held.ensures_admitHandshake (peerId sourceIp : Text)
    (nonceHex : Json) (tick : Int) :
    Ensures (Held sessions) (admitHandshakeWith Bucket.discard peerId sourceIp nonceHex tick)
      (fun network => Held ((peerId, network) :: sessions)) fun _ => Held sessions := by
  have hchecked : Checked (HeldAt sessions tick) fun _ => Held sessions :=
    (checked_held sessions).mono fun _ hc => hc.1
  refine (Held.ensures_advance sessions tick).bind fun _ => ?_
  refine (hchecked.ensures_check _).bind fun _ => ?_
  refine ((hchecked.mono fun _ hc => hc.1).ensures_check _).bind fun nonce => ?_
  refine ((hchecked.mono fun _ hc => hc.1.1).ensures_check _).bind fun network => ?_
  refine ((hchecked.mono fun _ hc => hc.1.1.1).ensures_screen _ _ _).bind fun _ => ?_
  refine Ensures.imp ?_ (fun c hc => (⟨hc.1.1.1.1, hc.2.2⟩ : HeldRoom sessions tick c))
    (fun _ _ hc => hc) fun _ _ hc => hc
  refine (HeldRoom.ensures_pay sessions tick _ _ (by decide) _).bind fun _ => ?_
  refine (HeldRoom.ensures_pay sessions tick _ _ (by decide) _).bind fun _ => ?_
  refine ((hchecked.mono fun _ hc => hc.1).ensures_screenSessions peerId network).bind fun _ => ?_
  refine Ensures.bind (.update fun c hc => ?_) fun _ => .pure fun _ hc => hc
  exact hc.1.1.admitted hc.1.2 hc.2.1 hc.2.2.1 hc.2.2.2

theorem Held.ensures_admitMessage (peerId : Text)
    (frameBytes tick : Int) :
    Ensures (Held sessions) (admitMessageWith Bucket.discard peerId frameBytes tick)
      (fun _ => Held sessions) fun _ => Held sessions := by
  have hchecked : Checked (HeldAt sessions tick) fun _ => Held sessions :=
    (checked_held sessions).mono fun _ hc => hc.1
  refine (Held.ensures_advance sessions tick).bind fun _ => ?_
  refine (hchecked.ensures_rejectIf _ (by decide) _).bind fun _ => ?_
  refine (Checked.ensures_pay (R := fun _ => HeldAt sessions tick) (fun _ =>
    hchecked) _ (by decide) _
    fun _ hc => hc.1.consume .message peerId _).bind fun _ => ?_
  exact .pure fun _ hc => hc.1

theorem Held.ensures_quarantine (peerId : Text) (tick : Int) :
    Ensures (Held sessions) (quarantineWith Bucket.discard peerId tick) (fun _ => Held sessions)
      fun _ => Held sessions := by
  refine (Held.ensures_advance sessions tick).bind fun _ => ?_
  refine .read_bind fun c hc => ?_
  have hchecked : Checked (· = c) fun _ => Held sessions :=
    (checked_held sessions).mono fun s hs => hs ▸ hc.1
  refine (hchecked.ensures_rejectIf _ (by decide) _).bind fun _ => .update fun s hs => ?_
  obtain ⟨rfl, hroom⟩ := hs
  obtain ⟨hheld, rfl⟩ := hc
  refine ⟨hheld.tick_nonneg, fun family => ?_, hheld.replayNonces, ?_, hheld.identities,
    hheld.networks, hheld.sessions_le, hheld.identity_le, hheld.network_le, hheld.rejections⟩
  · cases family
    · exact hheld.buckets .handshake
    · exact hheld.buckets .message
  · refine hheld.quarantines.set (fun hfull => hroom ?_) ?_
    · exact ⟨contains_eq_false_iff.2 hfull.1, hfull.2⟩
    · have htick := hheld.tick_nonneg
      unfold quarantineTicks
      omega

end

theorem Held.ensures_closeSession {sourceIp : Text}
    (hnetwork : sourcePrefix (.str sourceIp) = .ok network) (hopen : (peerId, network) ∈ sessions) :
    Ensures (Held sessions) (closeSession peerId sourceIp)
      (fun _ => Held (sessions.erase (peerId, network))) fun _ => Held sessions := by
  refine ((checked_held sessions).ensures_check _).bind fun network' => .update fun c hc => ?_
  obtain ⟨hheld, hnetwork'⟩ := hc
  obtain rfl := Except.ok.inj (hnetwork.symm.trans hnetwork')
  have hperm := perm_cons_erase hopen
  have hidentities := hperm.map Prod.fst
  have hnetworks := hperm.map Prod.snd
  refine ⟨hheld.tick_nonneg, fun family => ?_, hheld.replayNonces, hheld.quarantines,
    (hheld.identities.perm hidentities).release, (hheld.networks.perm hnetworks).release,
    le_trans ?_ hheld.sessions_le, fun p => le_trans ?_ (hheld.identity_le p),
    fun n => le_trans ?_ (hheld.network_le n), hheld.rejections⟩
  · cases family
    · exact hheld.buckets .handshake
    · exact hheld.buckets .message
  · rw [hperm.length_eq, length_cons]
    omega
  · rw [hidentities.count_eq p]
    exact Int.ofNat_le.2 count_le_count_cons
  · rw [hnetworks.count_eq n]
    exact Int.ofNat_le.2 count_le_count_cons

/-! ## Refused handshakes -/

/-- The sessions and nonces of a state that has only moved its clock since `c₀`. -/
structure Frozen (c₀ : Controller) (tick : Int) (c : Controller) : Prop where
  tick_le : c₀.tick ≤ tick
  activeIdentity : c.activeIdentity = c₀.activeIdentity
  activePrefix : c.activePrefix = c₀.activePrefix
  replayNonces : c.replayNonces = c₀.replayNonces.filter fun _ expiry => tick ≤ expiry

/-- A handshake at `tick` was refused in `c₀`: no session is opened or closed, no nonce is added,
and the nonces that have expired are gone unless the tick itself was refused. -/
def Refused (c₀ : Controller) (tick : Int) (c : Controller) : Prop :=
  c.activeIdentity = c₀.activeIdentity ∧ c.activePrefix = c₀.activePrefix ∧
    c.replayNonces =
      if c₀.tick ≤ tick then c₀.replayNonces.filter fun _ expiry =>
        tick ≤ expiry else c₀.replayNonces

variable {c₀ : Controller} {tick : Int} (c₀ : Controller)

theorem checked_frozen (tick : Int) :
    Checked (Frozen c₀ tick) fun _ => Refused c₀ tick := by
  have hrefused : ∀ c, Frozen c₀ tick c → Refused c₀ tick c := fun c hc =>
    ⟨hc.activeIdentity, hc.activePrefix, hc.replayNonces.trans (if_pos hc.tick_le).symm⟩
  exact ⟨fun c hc _ _ _ => hrefused c hc, fun c hc _ => hrefused c hc⟩

theorem Frozen.ensures_pay (tick : Int) (family : Family) (key : Text)
    (cost : Int) (full : String) (hreason : reason ∈ reasons) (detail : String) :
    Ensures (Frozen c₀ tick) (pay family key tick cost full reason detail) (fun _ => Frozen c₀ tick)
      fun _ => Refused c₀ tick := by
  refine Checked.ensures_pay (R := fun _ => Frozen c₀ tick) (fun _ => checked_frozen c₀ tick) full
    hreason detail fun c hc => ?_
  cases family <;> exact ⟨hc.tick_le, hc.activeIdentity, hc.activePrefix, hc.replayNonces⟩

theorem ensures_refused (peerId sourceIp : Text) (nonceHex : Json) (tick : Int) :
    Ensures (· = c₀) (admitHandshakeWith Bucket.discard peerId sourceIp nonceHex tick)
      (fun _ _ => True) fun _ => Refused c₀ tick := by
  have hchecked := checked_frozen c₀ tick
  refine Ensures.bind (Q := fun _ => Frozen c₀ tick) ?_ fun _ => ?_
  · intro c hc
    subst hc
    rcases lt_or_ge tick c.tick with htick | htick
    · rw [advanceWith_of_lt _ htick]
      exact ⟨rfl, rfl, (if_neg (not_le.2 htick)).symm⟩
    · rw [advanceWith_of_le _ htick]
      exact ⟨htick, rfl, rfl, rfl⟩
  refine (hchecked.ensures_check _).bind fun _ => ?_
  refine ((hchecked.mono fun _ hc => hc.1).ensures_check _).bind fun nonce => ?_
  refine ((hchecked.mono fun _ hc => hc.1.1).ensures_check _).bind fun network => ?_
  refine ((hchecked.mono fun _ hc => hc.1.1.1).ensures_screen _ _ _).bind fun _ => ?_
  refine Ensures.imp ?_ (fun _ hc => hc.1.1.1.1) (fun _ _ hc => hc) fun _ _ hc => hc
  refine (Frozen.ensures_pay c₀ tick _ _ _ _ (by decide) _).bind fun _ => ?_
  refine (Frozen.ensures_pay c₀ tick _ _ _ _ (by decide) _).bind fun _ => ?_
  refine (hchecked.ensures_screenSessions peerId network).bind fun _ => ?_
  exact Ensures.bind (Q := fun _ _ => True) (.update fun _ _ => trivial) fun _ =>
    .pure fun _ _ => trivial

/-! ## Quarantines -/

/-- The identity has been quarantined at the tick `since`. -/
def Barred (peerId : Text) (since : Int) (c : Controller) : Prop :=
  since ≤ c.tick ∧ (c.tick ≤ since + quarantineTicks →
    ∃ expiry, c.quarantines.get? peerId = some expiry ∧ since + quarantineTicks ≤ expiry)

variable {peerId : Text} {since : Int} {c : Controller}

theorem Barred.advanced (h : Barred peerId since c) (hle : c.tick ≤ tick) :
    Barred peerId since (c.advanced Bucket.discard tick) := by
  refine ⟨h.1.trans hle, fun hnow => ?_⟩
  obtain ⟨expiry, hget, hexpiry⟩ := h.2 (hle.trans hnow)
  have hkept : tick ≤ expiry := hnow.trans hexpiry
  exact ⟨expiry, by simp [Controller.advanced, Dict.get?_filter, hget, hkept], hexpiry⟩

theorem ensures_advance_barred (tick : Int) : Ensures (Barred peerId since)
    (advanceWith Bucket.discard tick) (fun _ c => Barred peerId since c ∧ c.tick = tick)
    fun _ => Barred peerId since :=
  ensures_advanceWith (fun _ hc _ => hc) fun _ hc hle => ⟨hc.advanced hle, rfl⟩

theorem ensures_perform_barred (op : Op) : Ensures (Barred peerId since) (perform op)
    (fun _ => Barred peerId since) fun _ => Barred peerId since := by
  have hchecked : Checked (Barred peerId since) fun _ => Barred peerId since :=
    ⟨fun _ hc _ _ _ => hc, fun _ hc _ => hc⟩
  have hpay :
    ∀ (family : Family) (key : Text) (tick cost : Int) (full detail : String) {reason : String},
      reason ∈ reasons → Ensures (Barred peerId since) (pay family key tick cost full reason detail)
        (fun _ => Barred peerId since) fun _ => Barred peerId since :=
    fun family _ _ _ full detail _ hreason =>
      Checked.ensures_pay (R := fun _ => Barred peerId since)
      (fun _ => hchecked) full hreason detail fun _ hc => by cases family <;> exact hc
  cases op with
  | handshake peer sourceIp nonceHex tick =>
    refine Ensures.bind ((ensures_advance_barred tick).bind fun _ => ?_) fun _ =>
      .pure fun _ hc => hc
    refine ((hchecked.mono fun _ hc => hc.1).ensures_check _).bind fun _ => ?_
    refine ((hchecked.mono fun _ hc => hc.1.1).ensures_check _).bind fun nonce => ?_
    refine ((hchecked.mono fun _ hc => hc.1.1.1).ensures_check _).bind fun network => ?_
    refine ((hchecked.mono fun _ hc => hc.1.1.1.1).ensures_screen _ _ _).bind fun _ => ?_
    refine Ensures.imp ?_ (fun _ hc => hc.1.1.1.1.1) (fun _ _ hc => hc) fun _ _ hc => hc
    refine (hpay _ _ _ _ _ _ (by decide)).bind fun _ =>
      (hpay _ _ _ _ _ _ (by decide)).bind fun _ => ?_
    refine (hchecked.ensures_screenSessions peer network).bind fun _ => ?_
    exact Ensures.bind (.update fun _ hc => hc.1) fun _ => .pure fun _ hc => hc
  | close peer sourceIp =>
    refine Ensures.bind ((hchecked.ensures_check _).bind fun _ => ?_) fun _ => .pure fun _ hc => hc
    exact .update fun _ hc => hc.1
  | message peer frameBytes tick =>
    refine Ensures.bind ((ensures_advance_barred tick).bind fun _ => ?_) fun _ =>
      .pure fun _ hc => hc
    refine ((hchecked.mono fun _ hc => hc.1).ensures_rejectIf _ (by decide) _).bind fun _ => ?_
    refine Ensures.imp ?_ (fun _ hc => hc.1.1) (fun _ _ hc => hc) fun _ _ hc => hc
    exact (hpay _ _ _ _ _ _ (by decide)).bind fun _ => .pure fun _ hc => hc
  | quarantine peer tick =>
    refine Ensures.bind ((ensures_advance_barred tick).bind fun _ => ?_) fun _ =>
      .pure fun _ hc => hc
    refine Ensures.bind (Q := fun _ c => Barred peerId since c ∧
      c.tick = tick) (.read fun _ hc => hc)
      fun _ => ?_
    refine ((hchecked.mono fun _ hc => hc.1).ensures_rejectIf _ (by decide) _).bind fun _ => ?_
    refine .update fun c hc => ⟨hc.1.1.1, fun hnow => ?_⟩
    -- the clock has not gone back, so a second quarantine ends no earlier
    by_cases hpeer : peer = peerId
    · have htick := hc.1.1.1
      have hsince := hc.1.2
      exact ⟨_, by rw [hpeer]; exact Dict.get?_set_self _ _ _, by omega⟩
    · obtain ⟨expiry, hget, hexpiry⟩ := hc.1.1.2 hnow
      exact ⟨expiry, (Dict.get?_set_of_ne _ (Ne.symm hpeer) _).trans hget, hexpiry⟩

theorem Barred.refused (h : Barred peerId since c) (htick : tick ≤ since + quarantineTicks)
    (sourceIp : Text) (nonceHex : Json) :
    ∃ e, (perform (.handshake peerId sourceIp nonceHex tick) c).1 = .error e := by
  have hensures : Ensures (Barred peerId since) (perform (.handshake peerId sourceIp nonceHex tick))
      (fun _ _ => False) fun _ _ => True := by
    refine Ensures.bind (Q := fun _ _ => False) ((ensures_advanceWith (R := fun c => ∃ expiry,
      c.quarantines.get? peerId = some expiry ∧ tick ≤ expiry) (fun _ _ _ => trivial)
        fun c hc hle => ?_).bind fun _ => ?_) fun _ _ hfalse => hfalse.elim
    · obtain ⟨expiry, hget, hexpiry⟩ := (hc.advanced hle).2 htick
      exact ⟨expiry, hget, htick.trans hexpiry⟩
    · refine Ensures.bind (.check (fun _ _ _ hc => hc) fun _ _ _ => trivial) fun _ => ?_
      refine Ensures.bind (.check (fun _ _ _ hc => hc) fun _ _ _ => trivial) fun _ => ?_
      refine Ensures.bind (.check (fun _ _ _ hc => hc) fun _ _ _ => trivial) fun _ => ?_
      refine Ensures.bind (Q := fun _ _ => False) (.read_bind fun c hc => ?_) fun _ _ hfalse =>
        hfalse.elim
      obtain ⟨expiry, hget, hle⟩ := hc
      refine Ensures.bind (Q := fun _ _ => False) (ensures_rejectIf (fun _ _ _ => trivial)
        fun hnot _ _ => hnot ?_) fun _ _ hfalse => hfalse.elim
      rwa [hget]
  have hc := hensures c h
  match hperform : perform (.handshake peerId sourceIp nonceHex tick) c with
  | (.ok grant, c') =>
    rw [hperform] at hc
    exact hc.elim
  | (.error e, c') => exact ⟨e, rfl⟩

/-- **Quarantines hold.** Once a call of `quarantine` has returned, in whatever state, every
handshake of the identity up to 32 ticks later is refused, whatever calls come in between. -/
theorem quarantine_holds {peerId : Text} {since : Int} {c c' : Controller} {grant : Grant}
    (h : perform (.quarantine peerId since) c = (.ok grant, c')) (between : List Op) {tick : Int}
    (htick : tick ≤ since + 32) (sourceIp : Text) (nonceHex : Json) :
    ∃ e, (perform (.handshake peerId sourceIp nonceHex tick)
      (between.foldl (fun c op => (perform op c).2) c')).1 = .error e := by
  have hfirst : Ensures (fun _ => True) (perform (.quarantine peerId since))
      (fun _ => Barred peerId since) fun _ _ => True := by
    refine Ensures.bind ((ensures_advanceWith (R := fun c => c.tick = since) (fun _ _ _ => trivial)
      fun _ _ _ => rfl).bind fun _ => ?_) fun _ => .pure fun _ hc => hc
    refine .read_bind fun c hc => Ensures.bind (Q := fun _ => (· = c))
      (ensures_rejectIf (fun _ _ _ => trivial) fun _ _ hs => hs) fun _ => ?_
    exact .update fun _ hs => ⟨(hs ▸ hc).ge, fun _ => ⟨_, Dict.get?_set_self _ _ _, le_refl _⟩⟩
  have hbarred : Barred peerId since c' := by
    have hc := hfirst c trivial
    rwa [h] at hc
  refine Barred.refused ?_ htick sourceIp nonceHex
  clear h
  induction between generalizing c' with
  | nil => exact hbarred
  | cons op between ih => exact ih ((ensures_perform_barred op).after hbarred)

theorem quarantine_holds_peer :
    ∃ c, perform (.quarantine (ascii "peer") 1) .fresh = (.ok .done, c) ∧
    ∃ e, (perform (.handshake (ascii "peer") (ascii "::1") (.str (.replicate 64 48)) 33)
      ([.message (ascii "peer") 1 2].foldl (fun c op => (perform op c).2) c)).1 = .error e :=
  ⟨_, rfl, @quarantine_holds _ 1 .fresh _ _ rfl _ _ (by decide) _ _⟩

end Soveroot.Multihost
