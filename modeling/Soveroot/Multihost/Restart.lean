import Soveroot.Multihost.Sessions

/-!
# Snapshots and restarts

`snapshot` writes the tables out in sorted order and `_restore` reads them back after checking every
limit. What comes back differs in the order of the tables only (`Twin`), and no method looks at that
order.
-/

namespace Soveroot.Multihost

open Py Check Stateful List

/-! ## Reading a snapshot back -/

theorem exists_restored {α : Type} {write : α → Json} (restoreRow : Json → Except SafetyError α)
    {d : Dict Text α} {limit : Nat} (error : SafetyError) (hsize : d.size ≤ limit)
    (hrow : ∀ e ∈ d.entries, restoreRow (write e.2) = .ok e.2) :
    ∃ d' : Dict Text α, ((do
      let rows ← orRaise ((sortedJson write d).asObj.filter fun rows => rows.length ≤ limit) error
      let entries ← rows.mapM fun e => do return (e.1, ← restoreRow e.2)
      pure (Dict.ofList entries)) : Except SafetyError (Dict Text α)) = .ok d' ∧ d.Same d' := by
  have hperm : (d.entries.insertionSort fun a b => a.1 ≤ b.1).Perm d.entries :=
    perm_insertionSort _ _
  generalize hsorted : (d.entries.insertionSort fun a b => a.1 ≤ b.1) = sorted at hperm
  have hnodup : (sorted.map Prod.fst).Nodup := (hperm.map Prod.fst).nodup_iff.2 d.nodup
  have hlength : (sorted.map fun e => (e.1, write e.2)).length ≤ limit := by
    rw [length_map, hperm.length_eq]
    exact hsize
  have hrows : (sorted.map fun e => (e.1, write e.2)).mapM
      (fun e => do return (e.1, ← restoreRow e.2)) = .ok sorted := by
    rw [mapM_map, mapM_eq_ok_map (g := id) fun e he => ?_, map_id]
    simp only [Function.comp_apply, hrow e (hperm.mem_iff.1 he), ok_bind, pure_eq_ok, id_eq]
  refine ⟨Dict.ofList sorted, ?_, ?_⟩
  · simp only [sortedJson, hsorted, Json.asObj, Option.filter_some, hlength, decide_true, if_true,
      orRaise_some, ok_bind, hrows]
    rfl
  · unfold Dict.Same
    rw [Dict.entries_ofList hnodup]
    exact hperm.symm

theorem restoreBuckets_sortedJson {rate : Bucket.Rate} {now : Int} {table : Dict Text Bucket}
    (hkept : KeptBuckets table) (hw : Bucket.WellFormed rate table now) :
    ∃ table', restoreBuckets rate.capacity now (sortedJson bucketJson table) = .ok table' ∧
      table.Same table' := by
  refine exists_restored (restoreBucket rate.capacity now) _ hkept.1 fun e he => ?_
  obtain ⟨h0, hcapacity, hnow⟩ := hw e.1 e.2 (Dict.get?_eq_some_iff.2 he)
  have htick := hkept.2 e he
  simp [restoreBucket, bucketJson, Json.asIntOrBool, Option.filter_some, h0, hcapacity, hnow, htick]

theorem restoreCounts_sortedJson (name : String) {limit : Nat} {d : Dict Text Int}
    (hkept : KeptTicks limit d) :
    ∃ d', restoreCounts name limit (sortedJson .int d) = .ok d' ∧ d.Same d' := by
  refine exists_restored (fun value => orRaise (value.asIntOrBool.filter fun n => 0 ≤ n)
    (stateError s!"{name} snapshot is invalid")) _ hkept.1 fun e he => ?_
  simp [Json.asIntOrBool, Option.filter_some, hkept.2 e he]

/-- Two states that differ in the order of their tables only. -/
structure Twin (c d : Controller) : Prop where
  tick : c.tick = d.tick
  tables : ∀ family, (c.table family).Same (d.table family)
  replayNonces : c.replayNonces.Same d.replayNonces
  quarantines : c.quarantines.Same d.quarantines
  activeIdentity : c.activeIdentity.Same d.activeIdentity
  activePrefix : c.activePrefix.Same d.activePrefix
  rejections : c.rejections.Same d.rejections

variable {sessions : List (Text × Text)} {c d : Controller}

theorem Held.rejections_kept (h : Held sessions c) : KeptTicks 64 c.rejections := by
  refine ⟨?_, fun e he => (h.rejections e he).2⟩
  have hsub : c.rejections.keys ⊆ reasons.map ascii := fun k hk => by
    obtain ⟨e, he, rfl⟩ := mem_map.1 hk
    obtain ⟨reason, hreason, hkey⟩ := (h.rejections e he).1
    exact hkey ▸ mem_map_of_mem hreason
  have hle := (subperm_of_subset c.rejections.nodup hsub).length_le
  rw [length_map] at hle
  exact hle.trans (by decide)

theorem Counts.kept {counts : Dict Text Int} {keys : List Text} (h : Counts counts keys)
    {limit : Nat}
    (hlimit : keys.length ≤ limit) : KeptTicks limit counts :=
  ⟨h.size_le.trans hlimit, fun _ he => (h.entry he).2 ▸ Int.natCast_nonneg _⟩

theorem exists_restore (h : Held sessions c) (hc : c.InOrder) :
    ∃ c', restore c.snapshot = .ok c' ∧ Twin c c' := by
  have hlength : sessions.length ≤ 16 := by
    have hle := h.sessions_le
    unfold maxActiveSessions at hle
    omega
  obtain ⟨handshakes, hhandshakes, hhandshakes'⟩ : ∃ t, restoreBuckets handshakeRate.capacity c.tick
        (sortedJson bucketJson c.handshakeBuckets) = .ok t ∧
        c.handshakeBuckets.Same t :=
    restoreBuckets_sortedJson (h.buckets .handshake) (hc .handshake)
  obtain ⟨messages, hmessages, hmessages'⟩ : ∃ t,
      restoreBuckets messageRate.capacity c.tick (sortedJson bucketJson c.messageBuckets) = .ok t ∧
        c.messageBuckets.Same t :=
    restoreBuckets_sortedJson (h.buckets .message) (hc .message)
  obtain ⟨nonces, hnonces, hnonces'⟩ := restoreCounts_sortedJson "replay_nonces" h.replayNonces
  obtain ⟨quarantines, hquarantines, hquarantines'⟩ :=
    restoreCounts_sortedJson "quarantines" h.quarantines
  obtain ⟨identities, hidentities, hidentities'⟩ := restoreCounts_sortedJson "active_identity"
    (h.identities.kept ((length_map _).trans_le hlength))
  obtain ⟨networks, hnetworks, hnetworks'⟩ := restoreCounts_sortedJson "active_prefix"
    (h.networks.kept ((length_map _).trans_le hlength))
  obtain ⟨rejections, hrejections, hrejections'⟩ :=
    restoreCounts_sortedJson "rejections" h.rejections_kept
  have hsum : identities.sum ≤ maxActiveSessions ∧ networks.sum ≤ maxActiveSessions := by
    rw [← hidentities'.sum, ← hnetworks'.sum, h.identities.sum_eq, h.networks.sum_eq, length_map,
      length_map]
    exact ⟨h.sessions_le, h.sessions_le⟩
  have hidentity : identities.entries.all (fun e => e.2 ≤ maxSessionsPerIdentity) = true := by
    refine all_eq_true.2 fun e he => decide_eq_true ?_
    rw [(h.identities.entry (hidentities'.mem_iff.2 he)).2]
    exact h.identity_le e.1
  have hnetwork : networks.entries.all (fun e => e.2 ≤ maxSessionsPerSourcePrefix) = true := by
    refine all_eq_true.2 fun e he => decide_eq_true ?_
    rw [(h.networks.entry (hnetworks'.mem_iff.2 he)).2]
    exact h.network_le e.1
  refine ⟨⟨c.tick, handshakes, messages, nonces, quarantines, identities, networks, rejections⟩, ?_,
    rfl, fun family => ?_, hnonces', hquarantines', hidentities', hnetworks', hrejections'⟩
  · have htick : ((Json.int c.tick).asIntOrBool.filter fun n => 0 ≤ n) = some c.tick := by
      simp [Json.asIntOrBool, Option.filter_some, h.tick_nonneg]
    have hformat : (Json.str protocol).isText protocol = true := Json.isText_iff.2 rfl
    simp only [restore, Controller.snapshot, Json.record?_ofRecord, Option.filter_some, hformat,
      if_true, orRaise_some, ok_bind, htick, hhandshakes, hmessages, hnonces, hquarantines,
        hidentities, hnetworks, hrejections, require_of_pos hsum, require_of_pos hidentity,
        require_of_pos hnetwork,
      pure_eq_ok]
  · cases family
    · exact hhandshakes'
    · exact hmessages'

/-! ## No method looks at the order of a table -/

namespace Twin

theorem rejected (h : Twin c d) (reason : String) : Twin (c.rejected reason)
    (d.rejected reason) := by
  refine ⟨h.tick, fun family => ?_, h.replayNonces, h.quarantines, h.activeIdentity,
    h.activePrefix, ?_⟩
  · cases family
    · exact h.tables .handshake
    · exact h.tables .message
  · unfold Controller.rejected bump
    rw [h.rejections.get?]
    exact h.rejections.set _ _

theorem advanced (h : Twin c d) (tick : Int) :
    Twin (c.advanced Bucket.discard tick) (d.advanced Bucket.discard tick) := by
  refine ⟨rfl, fun family => ?_, h.replayNonces.filter _, h.quarantines.filter _, h.activeIdentity,
    h.activePrefix, h.rejections⟩
  rw [Controller.table_advanced, Controller.table_advanced]
  exact (h.tables family).filter _

theorem setTable (h : Twin c d) (family : Family) {t u : Dict Text Bucket} (htable : t.Same u) :
    Twin (c.setTable family t) (d.setTable family u) := by
  cases family <;> refine ⟨h.tick, fun f => ?_, h.replayNonces, h.quarantines, h.activeIdentity,
    h.activePrefix, h.rejections⟩ <;> cases f
  · exact htable
  · exact h.tables .message
  · exact h.tables .handshake
  · exact htable

end Twin

theorem same_bump {d e : Dict Text Int} (h : d.Same e) (key : Text) :
    (bump d key).Same (bump e key) := by
  unfold bump
  rw [h.get?]
  exact h.set _ _

theorem same_release {d e : Dict Text Int} (h : d.Same e) (key : Text) :
    (release d key).Same (release e key) := by
  unfold release
  rw [h.get?]
  dsimp only
  split_ifs
  · exact h.erase key
  · exact h.set _ _
  · exact h

theorem same_consume {t u : Dict Text Bucket} (h : t.Same u) (rate : Bucket.Rate) (limit : Nat)
    (key : Text) (tick cost : Int) :
    (Bucket.consume rate limit t key tick cost).1 = (Bucket.consume rate limit u key tick cost).1 ∧
      (Bucket.consume rate limit t key tick cost).2.Same
        (Bucket.consume rate limit u key tick cost).2 := by
  unfold Bucket.consume
  rw [h.contains, h.size, h.get?]
  dsimp only
  split_ifs
  · exact ⟨rfl, h⟩
  · exact ⟨rfl, h.set _ _⟩
  · exact ⟨rfl, h.set _ _⟩

/-- No exception is excused. -/
def never : SafetyError → Prop := fun _ => False

theorem twin_rejectIf (condition : Prop) [Decidable condition] (reason detail : String) :
    Agree never Twin (rejectIf condition reason detail) (rejectIf condition reason detail) :=
  agree_rejectIf (fun _ _ reason h => h.rejected reason) _ _ _ _

theorem twin_advance (tick : Int) :
    Agree never Twin (advanceWith Bucket.discard tick) (advanceWith Bucket.discard tick) := by
  refine .read_bind fun c d h => ?_
  rw [h.tick]
  exact (twin_rejectIf _ _ _).bind fun _ => .update fun _ _ h => h.advanced tick

theorem twin_screen (peerId nonce : Text) (tick : Int) :
    Agree never Twin (screen peerId nonce tick) (screen peerId nonce tick) := by
  refine .read_bind fun c d h => ?_
  rw [h.quarantines.get?, h.replayNonces.contains, h.replayNonces.size]
  exact .bind (twin_rejectIf _ _ _) fun _ => .bind (twin_rejectIf _ _ _) fun _ =>
    twin_rejectIf _ _ _

theorem twin_screenSessions (peerId network : Text) :
    Agree never Twin (screenSessions peerId network) (screenSessions peerId network) := by
  refine .read_bind fun c d h => ?_
  rw [h.activeIdentity.sum, h.activeIdentity.get?, h.activePrefix.get?]
  exact .bind (twin_rejectIf _ _ _) fun _ => .bind (twin_rejectIf _ _ _) fun _ =>
    twin_rejectIf _ _ _

theorem twin_pay (family : Family) (key : Text) (tick cost : Int) (full reason detail : String) :
    Agree never Twin (pay family key tick cost full reason detail)
      (pay family key tick cost full reason detail) := by
  refine Agree.bind (fun c d h => .inr ?_) fun result =>
    .bind (twin_rejectIf _ _ _) fun _ => twin_rejectIf _ _ _
  obtain ⟨hresult, htable⟩ :=
    same_consume (h.tables family) family.rate maxAdmissionBuckets key tick cost
  exact ⟨congrArg Except.ok hresult, h.setTable family htable⟩

theorem twin_perform (op : Op) : Agree never Twin (perform op) (perform op) := by
  cases op with
  | handshake peerId sourceIp nonceHex tick =>
    refine Agree.bind ?_ fun _ => .pure _
    refine (twin_advance tick).bind fun _ => (Agree.check _).bind fun _ =>
      (Agree.check _).bind fun nonce => (Agree.check _).bind fun network => ?_
    refine (twin_screen peerId nonce tick).bind fun _ => ?_
    refine (twin_pay _ _ _ _ _ _ _).bind fun _ => (twin_pay _ _ _ _ _ _ _).bind fun _ => ?_
    refine (twin_screenSessions peerId network).bind fun _ => ?_
    refine (Agree.update fun c d h => ?_).bind fun _ => .pure network
    refine ⟨h.tick, fun family => ?_, h.replayNonces.set _ _, h.quarantines,
      same_bump h.activeIdentity peerId, same_bump h.activePrefix network, h.rejections⟩
    cases family
    · exact h.tables .handshake
    · exact h.tables .message
  | close peerId sourceIp =>
    refine Agree.bind ((Agree.check _).bind fun network => ?_) fun _ => .pure _
    refine Agree.update fun c d h => ?_
    refine ⟨h.tick, fun family => ?_, h.replayNonces, h.quarantines,
      same_release h.activeIdentity peerId, same_release h.activePrefix network, h.rejections⟩
    cases family
    · exact h.tables .handshake
    · exact h.tables .message
  | message peerId frameBytes tick =>
    refine Agree.bind ((twin_advance tick).bind fun _ => ?_) fun _ => .pure _
    exact (twin_rejectIf _ _ _).bind fun _ => (twin_pay _ _ _ _ _ _ _).bind fun _ => .pure _
  | quarantine peerId tick =>
    refine Agree.bind ((twin_advance tick).bind fun _ => ?_) fun _ => .pure _
    refine .read_bind fun c d h => ?_
    rw [h.quarantines.contains, h.quarantines.size]
    refine (twin_rejectIf _ _ _).bind fun _ => Agree.update fun c d h => ?_
    refine ⟨h.tick, fun family => ?_, h.replayNonces, h.quarantines.set _ _, h.activeIdentity,
      h.activePrefix, h.rejections⟩
    cases family
    · exact h.tables .handshake
    · exact h.tables .message

theorem trace_eq_of_twin (ops : List Op) (h : Twin c d) : trace ops c = trace ops d := by
  induction ops generalizing c d with
  | nil => rfl
  | cons op ops ih =>
    rcases twin_perform op c d h with ⟨e, -, hfalse⟩ | ⟨hsame, htwin⟩
    · exact hfalse.elim
    · have htail := ih htwin
      unfold trace at htail ⊢
      unfold perform at hsame htail
      rw [traceWith, traceWith, hsame, htail]

/-! ## Runs -/

/-- The session a call has opened. -/
def opened : Op → Except SafetyError Grant → List (Text × Text)
  | .handshake peerId _ _ _, .ok (.network network) => [(peerId, network)]
  | _, _ => []

/-- A run of a controller, with the identity and the source network of every open session. A session
is closed with its identity and an address of its network; the controller may be restarted from its
snapshot at any time. -/
inductive Run : List (Text × Text) → Controller → Prop
  | fresh : Run [] .fresh
  | call {sessions : List (Text × Text)} {c : Controller} (op : Op)
      (hop : ∀ peerId sourceIp, op ≠ .close peerId sourceIp) (h : Run sessions c) :
      Run (opened op (perform op c).1 ++ sessions) (perform op c).2
  | close {sessions : List (Text × Text)} {c : Controller} {peerId sourceIp network : Text}
      (hnetwork : sourcePrefix (.str sourceIp) = .ok network)
      (hopen : (peerId, network) ∈ sessions) (h : Run sessions c) :
      Run (sessions.erase (peerId, network)) (perform (.close peerId sourceIp) c).2
  | restart {sessions : List (Text × Text)} {c c' : Controller}
      (hrestore : restore c.snapshot = .ok c') (h : Run sessions c) :
      Run sessions c'

/-- A call that is not a close keeps the state within its limits. -/
theorem Held.perform (h : Held sessions c) {op : Op}
    (hop : ∀ peerId sourceIp, op ≠ .close peerId sourceIp) :
    Held (opened op (perform op c).1 ++ sessions) (perform op c).2 := by
  have hensures : Ensures (Held sessions) (Multihost.perform op)
      (fun grant => Held (opened op (.ok grant) ++ sessions)) fun _ => Held sessions := by
    cases op with
    | handshake peerId sourceIp nonceHex tick =>
      refine (Held.ensures_admitHandshake sessions peerId sourceIp nonceHex tick).bind fun _ => ?_
      exact .pure fun _ hc => hc
    | close peerId sourceIp => exact absurd rfl (hop peerId sourceIp)
    | message peerId frameBytes tick =>
      refine (Held.ensures_admitMessage sessions peerId frameBytes tick).bind fun _ => ?_
      exact .pure fun _ hc => hc
    | quarantine peerId tick =>
      refine (Held.ensures_quarantine sessions peerId tick).bind fun _ => ?_
      exact .pure fun _ hc => hc
  have hheld := hensures c h
  match hperform : Multihost.perform op c with
  | (.ok grant, c') =>
    rw [hperform] at hheld
    exact hheld
  | (.error e, c') =>
    rw [hperform] at hheld
    cases op <;> exact hheld

theorem Held.close (h : Held sessions c) {peerId sourceIp network : Text}
    (hnetwork : sourcePrefix (.str sourceIp) = .ok network) (hopen : (peerId, network) ∈ sessions) :
    Held (sessions.erase (peerId, network)) (Multihost.perform (.close peerId sourceIp) c).2 := by
  have hclose : closeSession peerId sourceIp c = (.ok (), { c with
      activeIdentity := release c.activeIdentity peerId
      activePrefix := release c.activePrefix network }) := by
    unfold closeSession
    rw [hnetwork]
    rfl
  have hheld := Held.ensures_closeSession hnetwork hopen c h
  have hperform : (Multihost.perform (.close peerId sourceIp) c).2 =
      (closeSession peerId sourceIp c).2 := by
    show (Stateful.next _ (closeSession peerId sourceIp c)).2 = _
    rw [hclose]
    rfl
  rw [hclose] at hheld
  rw [hperform, hclose]
  exact hheld

theorem Held.of_twin (h : Held sessions c) (htwin : Twin c d) : Held sessions d := by
  refine ⟨htwin.tick ▸ h.tick_nonneg, fun family => ?_, ?_, ?_, fun k => ?_, fun k => ?_,
    h.sessions_le, h.identity_le, h.network_le, fun e he => ?_⟩
  · have hsame := htwin.tables family
    exact ⟨hsame.size ▸ (h.buckets family).1, fun e he =>
      (h.buckets family).2 e (hsame.mem_iff.2 he)⟩
  · have hsame := htwin.replayNonces
    exact ⟨hsame.size ▸ h.replayNonces.1, fun e he => h.replayNonces.2 e (hsame.mem_iff.2 he)⟩
  · have hsame := htwin.quarantines
    exact ⟨hsame.size ▸ h.quarantines.1, fun e he => h.quarantines.2 e (hsame.mem_iff.2 he)⟩
  · rw [← htwin.activeIdentity.get?]
    exact h.identities k
  · rw [← htwin.activePrefix.get?]
    exact h.networks k
  · exact h.rejections e (htwin.rejections.mem_iff.2 he)

theorem Run.held (h : Run sessions c) : Held sessions c ∧ c.InOrder := by
  induction h with
  | fresh => exact ⟨Held.fresh, (Started.inOrder (.inl rfl)).1⟩
  | call op hop _ ih => exact ⟨ih.1.perform hop, (perform_later ih.2 op).wellFormed⟩
  | close hnetwork hopen _ ih =>
    exact ⟨ih.1.close hnetwork hopen, (perform_later ih.2 _).wellFormed⟩
  | restart hrestore _ ih =>
    obtain ⟨c'', hrestore', htwin⟩ := exists_restore ih.1 ih.2
    obtain rfl := Except.ok.inj (hrestore.symm.trans hrestore')
    exact ⟨ih.1.of_twin htwin, (restore_inOrder hrestore).1⟩

/-- **The state is bounded and a restart is not noticed.** In every run at most 16 sessions are
open, two for each identity and four for each source network, and the tables stay within their
limits. A handshake that is refused leaves the counters as they are and adds no nonce. The
controller restored from a snapshot gives the same outcomes on every continuation. -/
theorem admission_state (sessions : List (Text × Text)) (c : Controller) (h : Run sessions c) :
    (sessions.length ≤ 16 ∧ (∀ peerId, (sessions.map Prod.fst).count peerId ≤ 2) ∧
      ∀ network, (sessions.map Prod.snd).count network ≤ 4) ∧
    (c.activeIdentity.sum = sessions.length ∧ c.activePrefix.sum = sessions.length ∧
      (∀ peerId, (c.activeIdentity.get? peerId).getD 0 = (sessions.map Prod.fst).count peerId) ∧
      ∀ network, (c.activePrefix.get? network).getD 0 = (sessions.map Prod.snd).count network) ∧
    (c.replayNonces.size ≤ 256 ∧ c.quarantines.size ≤ 128 ∧ c.handshakeBuckets.size ≤ 512 ∧
      c.messageBuckets.size ≤ 512) ∧
    (∀ peerId sourceIp nonceHex tick e,
      (perform (.handshake peerId sourceIp nonceHex tick) c).1 = .error e →
        Refused c tick (perform (.handshake peerId sourceIp nonceHex tick) c).2) ∧
    ∃ c', restore c.snapshot = .ok c' ∧ ∀ ops, trace ops c' = trace ops c := by
  obtain ⟨hheld, hinOrder⟩ := h.held
  have hsessions := hheld.sessions_le
  unfold maxActiveSessions at hsessions
  refine ⟨⟨by omega, fun p => ?_, fun n => ?_⟩, ⟨?_, ?_, hheld.identities.getD_eq,
    hheld.networks.getD_eq⟩,
      ⟨hheld.replayNonces.1, hheld.quarantines.1, (hheld.buckets .handshake).1,
    (hheld.buckets .message).1⟩, fun peerId sourceIp nonceHex tick e herror => ?_, ?_⟩
  · exact Int.ofNat_le.1 (hheld.identity_le p)
  · exact Int.ofNat_le.1 (hheld.network_le n)
  · rw [hheld.identities.sum_eq, length_map]
  · rw [hheld.networks.sum_eq, length_map]
  · have hrefused : Ensures (· = c) (perform (.handshake peerId sourceIp nonceHex tick))
        (fun _ _ => True) fun _ => Refused c tick :=
      (ensures_refused c peerId sourceIp nonceHex tick).bind fun _ => .pure fun _ _ => trivial
    have hc := hrefused c rfl
    match hperform : perform (.handshake peerId sourceIp nonceHex tick) c with
    | (.ok grant, c') =>
      rw [hperform] at herror
      cases herror
    | (.error e', c') =>
      rw [hperform] at hc
      exact hc
  · obtain ⟨c', hrestore, htwin⟩ := exists_restore hheld hinOrder
    exact ⟨c', hrestore, fun ops => (trace_eq_of_twin ops htwin).symm⟩

namespace Sample

def nonce : Text := replicate 64 48

def hello : Op := .handshake (ascii "peer-a") (ascii "198.51.100.7") (.str nonce) 0

def greeted : Controller := (perform hello .fresh).2

def quarantined : Controller := (perform (.quarantine (ascii "peer-b") 1) greeted).2

theorem run_greeted : Run [(ascii "peer-a", ascii "198.51.100.0/24")] greeted := by
  have hopened : opened hello (perform hello .fresh).1 ++ [] =
      [(ascii "peer-a", ascii "198.51.100.0/24")] := by decide +kernel
  have hrun := Run.call hello (fun _ _ h => by cases h) Run.fresh
  rwa [hopened] at hrun

theorem run_quarantined : Run [(ascii "peer-a", ascii "198.51.100.0/24")] quarantined :=
  Run.call (.quarantine (ascii "peer-b") 1) (fun _ _ h => by cases h) run_greeted

end Sample

open Sample

theorem admission_state_greeted :
    greeted.activeIdentity.sum = 1 ∧
      ∃ c', restore greeted.snapshot = .ok c' ∧ ∀ ops, trace ops c' = trace ops greeted :=
  ⟨(admission_state _ _ run_greeted).2.1.1, (admission_state _ _ run_greeted).2.2.2.2⟩

/-- The nonces are not always what they were before a refused handshake: the quarantined identity
comes back seventeen ticks after the first handshake, whose nonce has expired by then. -/
theorem refused_handshake_drops_nonce : ∃ sessions c, Run sessions c ∧
    ∃ peerId sourceIp nonceHex tick e,
      (perform (.handshake peerId sourceIp nonceHex tick) c).1 = .error e ∧
        (perform (.handshake peerId sourceIp nonceHex tick) c).2.replayNonces ≠ c.replayNonces :=
  ⟨_, _, run_quarantined, ascii "peer-b", ascii "203.0.113.9", .str nonce, 17,
    ⟨"quarantined_identity", "identity is locally quarantined"⟩,
    by decide +kernel, by decide +kernel⟩

end Soveroot.Multihost
