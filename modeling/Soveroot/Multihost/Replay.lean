import Soveroot.Multihost.Hello
import Soveroot.Multihost.Restart

/-!
# A hello is accepted at most once

An admitted handshake leaves its nonce behind until sixteen ticks later, and a hello is valid for
sixteen ticks after it was issued. So when the nonce of an accepted hello is forgotten, the hello
has expired (`Remembers`). Saving and restarting keep the nonces, and the state is saved before the
hello is verified.
-/

namespace Soveroot.Multihost

open Py Check Stateful List Option Json

/-- The nonce is remembered until `deadline`, or `now` is past it. -/
def Remembers (nonce : Text) (deadline now : Int) (c : Controller) : Prop :=
  deadline < now ∨ ∃ expiry, c.replayNonces.get? nonce = some expiry ∧ deadline ≤ expiry

variable {nonce : Text} {deadline now tick : Int} {c : Controller} {c' : Controller}

theorem Remembers.of_nonces (h : Remembers nonce deadline now c)
    (hnonces : c'.replayNonces = c.replayNonces) : Remembers nonce deadline now c' := by
  unfold Remembers
  rwa [hnonces]

theorem Remembers.mono {later : Int} (h : Remembers nonce deadline now c) (hle : now ≤ later) :
    Remembers nonce deadline later c :=
  h.imp_left fun hlt => hlt.trans_le hle

theorem Remembers.advanced (h : Remembers nonce deadline now c) (hle : now ≤ tick) :
    Remembers nonce deadline tick (c.advanced Bucket.discard tick) := by
  rcases h with hlt | ⟨expiry, hget, hexpiry⟩
  · exact .inl (hlt.trans_le hle)
  · by_cases hkept : tick ≤ expiry
    · refine .inr ⟨expiry, ?_, hexpiry⟩
      rw [Controller.advanced, Dict.get?_filter, hget, filter_some, if_pos (decide_eq_true hkept)]
    · exact .inl (hexpiry.trans_lt (not_le.1 hkept))

theorem checked_remembers (nonce : Text) (deadline now : Int) :
    Checked (Remembers nonce deadline now) fun _ => Remembers nonce deadline now :=
  ⟨fun _ hc _ _ _ => hc.of_nonces rfl, fun _ hc _ => hc⟩

theorem ensures_advance_remembers (hle : now ≤ tick) :
    Ensures (Remembers nonce deadline now) (advanceWith Bucket.discard tick)
      (fun _ => Remembers nonce deadline tick) fun _ => Remembers nonce deadline tick :=
  ensures_advanceWith (fun _ hc _ => (hc.mono hle).of_nonces rfl) fun _ hc _ => hc.advanced hle

theorem ensures_pay_remembers (nonce : Text) (deadline now : Int) (family : Family) (key : Text)
    (tick cost : Int) (full : String) {reason : String} (hreason : reason ∈ reasons)
    (detail : String) :
    Ensures (Remembers nonce deadline now) (pay family key tick cost full reason detail)
      (fun _ => Remembers nonce deadline now) fun _ => Remembers nonce deadline now :=
  Checked.ensures_pay (R := fun _ => Remembers nonce deadline now)
    (fun _ => checked_remembers nonce deadline now) full hreason detail fun c hc =>
      hc.of_nonces (by cases family <;> rfl)

/-- A handshake with a remembered nonce is admitted after the deadline only. -/
theorem ensures_admitHandshake_remembers (hle : now ≤ tick) (peerId sourceIp : Text)
    (nonceHex : Json) :
    Ensures (Remembers nonce deadline now)
    (admitHandshakeWith Bucket.discard peerId sourceIp nonceHex tick)
      (fun _ c => Remembers nonce deadline tick c ∧ (nonceHex = .str nonce → deadline < tick))
      fun _ => Remembers nonce deadline tick := by
  have hchecked := checked_remembers nonce deadline tick
  refine (ensures_advance_remembers hle).bind fun _ => ?_
  refine (hchecked.ensures_check _).bind fun _ => ?_
  refine ((hchecked.mono fun _ hc => hc.1).ensures_check _).bind fun text => ?_
  refine ((hchecked.mono fun _ hc => hc.1.1).ensures_check _).bind fun network => ?_
  refine ((hchecked.mono fun _ hc => hc.1.1.1).ensures_screen _ _ _).bind fun _ => ?_
  -- the screen has looked the nonce up, so it is not the remembered one before the deadline
  refine Ensures.imp (P := fun c => Remembers nonce deadline tick c ∧ nonceHex = .str text ∧
    (text = nonce → deadline < tick)) ?_ (fun c hc => ?_) (fun _ _ hc => hc) fun _ _ hc => hc
  · by_cases hfresh : nonceHex = .str text ∧ (text = nonce → deadline < tick)
    · refine Ensures.imp ?_ (fun _ hc => hc.1) (fun _ _ hc => hc) fun _ _ hc => hc
      refine (ensures_pay_remembers _ _ _ _ _ _ _ _ (by decide) _).bind fun _ => ?_
      refine (ensures_pay_remembers _ _ _ _ _ _ _ _ (by decide) _).bind fun _ => ?_
      refine (hchecked.ensures_screenSessions peerId network).bind fun _ => ?_
      refine Ensures.bind (.update fun c hc => ?_) fun _ => .pure fun _ hc => hc
      refine ⟨?_, fun hnonce => hfresh.2 (Json.str.inj (hfresh.1.symm.trans hnonce))⟩
      by_cases htext : text = nonce
      · exact .inl (hfresh.2 htext)
      · refine hc.1.imp_right ?_
        rintro ⟨expiry, hget, hexpiry⟩
        refine ⟨expiry, ?_, hexpiry⟩
        rw [Controller.admitted, Dict.get?_set_of_ne _ (Ne.symm htext), hget]
    · exact fun c hc => absurd hc.2 hfresh
  · obtain ⟨⟨⟨⟨hc, -⟩, hhex⟩, -⟩, hnew, -⟩ := hc
    refine ⟨hc, requireHex_eq_ok hhex, ?_⟩
    rintro rfl
    refine hc.resolve_right ?_
    rintro ⟨expiry, hget, -⟩
    exact hnew (Dict.mem_keys_iff.2 ⟨expiry, hget⟩)

theorem ensures_admitHandshake_nonce (peerId sourceIp : Text) (nonceHex : Json) (tick : Int) :
    Ensures (fun _ => True) (admitHandshakeWith Bucket.discard peerId sourceIp nonceHex tick)
      (fun _ c => ∀ nonce, nonceHex = .str nonce →
        Remembers nonce (tick + helloLifetimeTicks) tick c)
      fun _ _ => True := by
  have hchecked : Checked (fun _ => True) fun _ _ => True :=
    ⟨fun _ _ _ _ _ => trivial, fun _ _ _ => trivial⟩
  have hpay : ∀ (family : Family) (key : Text) (cost : Int) (full reason detail : String),
      reason ∈ reasons → Ensures (fun _ => True) (pay family key tick cost full reason detail)
        (fun _ _ => True) fun _ _ => True := fun _ _ _ full _ detail hreason =>
    Checked.ensures_pay (R := fun _ _ => True) (fun _ => hchecked) full hreason detail
      fun _ _ => trivial
  refine (ensures_advanceWith (R := fun _ => True) (fun _ _ _ => trivial) fun _ _ _ => trivial).bind
    fun _ => ?_
  refine (hchecked.ensures_check _).bind fun _ => ?_
  refine ((hchecked.mono fun _ hc => hc.1).ensures_check _).bind fun text => ?_
  by_cases htext : nonceHex = .str text
  · refine Ensures.imp ?_ (fun _ _ => trivial) (fun _ _ hc => hc) fun _ _ hc => hc
    refine (hchecked.ensures_check _).bind fun network => ?_
    refine ((hchecked.mono fun _ hc => hc.1).ensures_screen _ _ _).bind fun _ => ?_
    refine Ensures.imp ?_ (fun _ _ => trivial) (fun _ _ hc => hc) fun _ _ hc => hc
    refine (hpay _ _ _ _ _ _ (by decide)).bind fun _ =>
      (hpay _ _ _ _ _ _ (by decide)).bind fun _ => ?_
    refine (hchecked.ensures_screenSessions peerId network).bind fun _ => ?_
    refine Ensures.bind (.update fun c _ => ?_) fun _ => .pure fun _ hc => hc
    intro nonce hnonce
    obtain rfl := Json.str.inj (htext.symm.trans hnonce)
    exact .inr ⟨_, Dict.get?_set_self _ _ _, le_refl _⟩
  · exact fun c hc => absurd (requireHex_eq_ok hc.2) htext

theorem perform_remembers {op : Op} (h : Remembers nonce deadline now c)
    (hle : ∀ t, op.tick? = some t → now ≤ t) :
    Remembers nonce deadline (op.tick?.getD now) (perform op c).2 := by
  cases op with
  | handshake peerId sourceIp nonceHex tick =>
    have hensures : Ensures (Remembers nonce deadline now)
        (perform (.handshake peerId sourceIp nonceHex tick)) (fun _ =>
          Remembers nonce deadline tick)
        fun _ => Remembers nonce deadline tick :=
      (ensures_admitHandshake_remembers (hle tick rfl) peerId sourceIp nonceHex).bind fun _ =>
        .pure fun _ hc => hc.1
    exact hensures.after h
  | close peerId sourceIp =>
    have hensures : Ensures (Remembers nonce deadline now) (perform (.close peerId sourceIp))
        (fun _ => Remembers nonce deadline now) fun _ => Remembers nonce deadline now := by
      refine Ensures.bind (((checked_remembers _ _ _).ensures_check _).bind fun _ => ?_) fun _ =>
        .pure fun _ hc => hc
      exact .update fun _ hc => hc.1.of_nonces rfl
    exact hensures.after h
  | message peerId frameBytes tick =>
    have hensures :
      Ensures (Remembers nonce deadline now) (perform (.message peerId frameBytes tick))
        (fun _ => Remembers nonce deadline tick) fun _ => Remembers nonce deadline tick := by
      refine Ensures.bind ((ensures_advance_remembers (hle tick rfl)).bind fun _ => ?_) fun _ =>
        .pure fun _ hc => hc
      refine ((checked_remembers _ _ _).ensures_rejectIf _ (by decide) _).bind fun _ => ?_
      refine Ensures.imp ?_ (fun _ hc => hc.1) (fun _ _ hc => hc) fun _ _ hc => hc
      exact (ensures_pay_remembers _ _ _ _ _ _ _ _ (by decide) _).bind fun _ => .pure fun _ hc => hc
    exact hensures.after h
  | quarantine peerId tick =>
    have hensures : Ensures (Remembers nonce deadline now) (perform (.quarantine peerId tick))
        (fun _ => Remembers nonce deadline tick) fun _ => Remembers nonce deadline tick := by
      refine Ensures.bind ((ensures_advance_remembers (hle tick rfl)).bind fun _ => ?_) fun _ =>
        .pure fun _ hc => hc
      refine Ensures.bind (.read fun _ hc => hc) fun _ => ?_
      refine ((checked_remembers _ _ _).ensures_rejectIf _ (by decide) _).bind fun _ => ?_
      exact .update fun _ hc => hc.1.of_nonces rfl
    exact hensures.after h

/-! ## Saving and restarting -/

theorem same_of_restoreCounts {name : String} {limit : Nat} {d d' : Dict Text Int}
    (h : restoreCounts name limit (sortedJson .int d) = .ok d') : d.Same d' := by
  simp only [restoreCounts, bind_eq_ok, orRaise_eq_ok, sortedJson, Json.asObj,
    filter_eq_some_iff, Option.some.injEq] at h
  obtain ⟨rows, ⟨rfl, -⟩, entries, hentries, h⟩ := h
  have hrow : ∀ e e' : Text × Int, ((do
      let value ← orRaise ((Json.int e.2).asIntOrBool.filter fun n => 0 ≤ n)
        (stateError s!"{name} snapshot is invalid")
      pure (e.1, value)) : Except SafetyError (Text × Int)) = .ok e' ↔ e' = e ∧ 0 ≤ e.2 := by
    intro e e'
    simp only [bind_eq_ok, orRaise_eq_ok, Json.asIntOrBool, filter_eq_some_iff,
      Option.some.injEq, decide_eq_true_eq, pure_eq_ok, Except.ok.injEq]
    constructor
    · rintro ⟨_, ⟨rfl, hnonneg⟩, rfl⟩
      exact ⟨rfl, hnonneg⟩
    · rintro ⟨rfl, hnonneg⟩
      exact ⟨_, ⟨rfl, hnonneg⟩, rfl⟩
  obtain ⟨rfl, -⟩ := (mapM_map_eq_ok hrow).1 hentries
  obtain rfl := Except.ok.inj h
  have hperm := perm_insertionSort (fun a b : Text × Int => a.1 ≤ b.1) d.entries
  unfold Dict.Same
  rw [Dict.entries_ofList ((hperm.map Prod.fst).nodup_iff.2 d.nodup)]
  exact hperm.symm

theorem same_of_load (h : load (some c.snapshot) = .ok c') :
    c.replayNonces.Same c'.replayNonces := by
  simp only [load, restore, Controller.snapshot, bind_eq_ok, orRaise_eq_ok, filter_eq_some_iff,
    record?_ofRecord, Option.some.injEq] at h
  obtain ⟨_, ⟨_, ⟨rfl, -⟩, _, -, _, -, _, -, nonces, hnonces, _, -, _, -, _, -, _, -, _, -,
    _, -, _, -,
    hc⟩, h⟩ := h
  obtain rfl := Except.ok.inj hc
  obtain rfl := Except.ok.inj h
  exact same_of_restoreCounts hnonces

theorem Remembers.load (h : Remembers nonce deadline now c)
    (hload : load (some c.snapshot) = .ok c') : Remembers nonce deadline now c' := by
  refine h.imp_right fun ⟨expiry, hget, hexpiry⟩ => ⟨expiry, ?_, hexpiry⟩
  rw [← (same_of_load hload).get?, hget]

/-- The node remembers the nonce, and will after a restart. -/
def Node.Remembers (nonce : Text) (deadline now : Int) (node : Node) : Prop :=
  Multihost.Remembers nonce deadline now node.live ∧
    ∀ c, Multihost.load node.saved = .ok c → Multihost.Remembers nonce deadline now c

theorem Node.Remembers.save {node : Node} (h : Multihost.Remembers nonce deadline now node.live) :
    node.save.Remembers nonce deadline now :=
  ⟨h, fun _ hload => h.load hload⟩

theorem ensures_onLive {α : Type} {method : Method α} {P : Controller → Prop}
    {Q : α → Controller → Prop} {E : Controller → Prop} {S : Option Json → Prop}
    (h : Ensures P method Q fun _ => E) :
    Ensures (fun node : Node => P node.live ∧ S node.saved) (onLive method)
      (fun a node => Q a node.live ∧ S node.saved) fun _ node => E node.live ∧ S node.saved := by
  rintro node ⟨hlive, hsaved⟩
  have hmethod := h node.live hlive
  unfold onLive
  match hresult : method node.live with
  | (.ok a, c') =>
    rw [hresult] at hmethod
    exact ⟨hmethod, hsaved⟩
  | (.error e, c') =>
    rw [hresult] at hmethod
    exact ⟨hmethod, hsaved⟩

/-! ## Hellos -/

section

variable (identityVerify : Text → Bytes → Text → Bool) (peers : Text → Option Peer)
  (hello : List (Text × Json)) (sourceIp : Text)

/-- The nonce that is admitted. -/
def nonceOf (hello : List (Text × Json)) : Json :=
  (Json.member hello (ascii "nonce_hex")).getD .null

theorem nonceOf_eq {hello : List (Text × Json)} {r : HelloField → Json}
    (h : record? HelloField (.obj hello) = some r) : nonceOf hello = r .nonceHex := by
  obtain ⟨fields, hfields, -, hmember⟩ := record?_eq_some_iff.1 h
  obtain rfl := Json.obj.inj hfields
  exact congrArg (Option.getD · Json.null) (hmember .nonceHex)

/-- A hello whose nonce is remembered is not accepted before the deadline. -/
theorem ensures_handlePeerSession (hle : now ≤ tick) :
    Ensures (Node.Remembers nonce deadline now)
      (handlePeerSession identityVerify peers hello sourceIp tick)
      (fun _ node => node.Remembers nonce deadline tick ∧
        (nonceOf hello = .str nonce → deadline < tick))
      fun _ => Node.Remembers nonce deadline tick := by
  have hlater : ∀ node : Node, node.Remembers nonce deadline now →
      node.Remembers nonce deadline tick :=
    fun node h => ⟨h.1.mono hle, fun c hload => (h.2 c hload).mono hle⟩
  have hcheck : ∀ {α : Type} (x : Except SessionError α),
    Ensures (Node.Remembers nonce deadline now)
      (check x) (fun _ => Node.Remembers nonce deadline now) fun _ =>
        Node.Remembers nonce deadline tick :=
    fun x => .check (fun _ _ _ h => h) fun _ node h => hlater node h
  refine (hcheck _).bind fun peerId => (hcheck _).bind fun peer => (hcheck _).bind fun _ => ?_
  refine Ensures.bind (Q := fun _ node => (Multihost.Remembers nonce deadline tick node.live ∧
    (nonceOf hello = .str nonce → deadline < tick)) ∧ ∀ c, load node.saved = .ok c →
      Multihost.Remembers nonce deadline tick c) ?_ fun _ => ?_
  · refine (ensures_onLive (S := fun saved => ∀ c, load saved = .ok c →
      Multihost.Remembers nonce deadline tick c)
      (ensures_admitHandshake_remembers hle peerId sourceIp _)).imp (fun node h =>
        ⟨h.1, (hlater node h).2⟩) (fun _ _ h => h) fun _ _ h => h
  · refine Ensures.bind (Q := fun _ node => node.Remembers nonce deadline tick ∧
      (nonceOf hello = .str nonce → deadline < tick)) (.update fun node h => ?_) fun _ => ?_
    · exact ⟨Node.Remembers.save h.1.1, h.1.2⟩
    · exact .check (fun _ _ _ h => h) fun _ _ h => h.1

/-- A hello that is accepted is valid, and its nonce is remembered as long as it is. -/
theorem ensures_handlePeerSession_accepted (tick : Int) :
    Ensures (fun _ => True) (handlePeerSession identityVerify peers hello sourceIp tick)
      (fun _ node => ∃ r nonce issued, record? HelloField (.obj hello) = some r ∧
        r .nonceHex = .str nonce ∧ r .issuedTick = .int issued ∧ issued ≤ tick ∧
        tick ≤ issued + helloLifetimeTicks ∧ node.Remembers nonce (tick + helloLifetimeTicks) tick)
      fun _ _ => True := by
  have hcheck : ∀ {α : Type} (x : Except SessionError α), Ensures (fun _ : Node => True) (check x)
      (fun _ _ => True) fun _ _ => True :=
        fun x => .check (fun _ _ _ _ => trivial) fun _ _ _ => trivial
  refine (hcheck _).bind fun peerId => (hcheck _).bind fun peer => (hcheck _).bind fun _ => ?_
  refine Ensures.bind (Q := fun _ node => ∀ nonce, nonceOf hello = .str nonce →
    Multihost.Remembers nonce (tick + helloLifetimeTicks) tick node.live) ?_ fun _ => ?_
  · refine (ensures_onLive (S := fun _ => True) (ensures_admitHandshake_nonce peerId sourceIp
      (nonceOf hello) tick)).imp (fun _ _ => ⟨trivial, trivial⟩) (fun _ _ h =>
        h.1) fun _ _ _ => trivial
  · refine Ensures.bind (Q := fun _ node => ∀ nonce, nonceOf hello = .str nonce →
      node.Remembers nonce (tick + helloLifetimeTicks) tick) (.update fun node h nonce hnonce => ?_)
      fun _ => ?_
    · exact Node.Remembers.save (h nonce hnonce)
    · refine .check (fun verified hverified node h => ?_) fun _ _ _ => trivial
      obtain ⟨r, nonce, issued, hr, hnonce, hissued, hle, hge⟩ :=
        verifyHello_eq_ok identityVerify (mapError_eq_ok.1 hverified)
      exact ⟨r, nonce, issued, hr, hnonce, hissued, hle, hge,
        h nonce ((nonceOf_eq hr).trans hnonce)⟩

end

/-! ## Runs -/

section

variable (identityVerify : Text → Bytes → Text → Bool) {node : Node} {event : Event} {node' : Node}

/-- One event keeps the nonce remembered, and accepts no hello with it before the deadline. -/
theorem step_remembers {accepted : Accepted} (h : node.Remembers nonce deadline now)
    (hle : ∀ t, event.tick? = some t → now ≤ t)
    (hstep : node.step identityVerify event = some (accepted, node')) :
    node'.Remembers nonce deadline (event.tick?.getD now) ∧
      ∀ hello r issued, accepted = some hello → record? HelloField (.obj hello) = some r →
        r .nonceHex = .str nonce → r .issuedTick = .int issued →
          deadline < issued + helloLifetimeTicks := by
  cases event with
  | hello peers hello sourceIp tick =>
    have hkept :=
      ensures_handlePeerSession identityVerify peers hello sourceIp (hle tick rfl) node h
    have hvalid := ensures_handlePeerSession_accepted identityVerify peers hello sourceIp tick node
      trivial
    unfold Node.step at hstep
    match hsession : handlePeerSession identityVerify peers hello sourceIp tick node with
    | (.ok verified, node'') =>
      simp only [hsession] at hstep hkept hvalid
      obtain ⟨rfl, rfl⟩ := Prod.mk.inj (Option.some.inj hstep)
      obtain ⟨hkept, hdeadline⟩ := hkept
      obtain ⟨r, _, issued, hr, -, hissued, -, hlifetime, -⟩ := hvalid
      refine ⟨hkept, fun hello' r' issued' hhello hr' hnonce hissued' => ?_⟩
      obtain rfl := Option.some.inj hhello
      obtain rfl := Option.some.inj (hr.symm.trans hr')
      obtain rfl := Json.int.inj (hissued.symm.trans hissued')
      exact (hdeadline ((nonceOf_eq hr).trans hnonce)).trans_le hlifetime
    | (.error e, node'') =>
      simp only [hsession] at hstep hkept
      obtain ⟨rfl, rfl⟩ := Prod.mk.inj (Option.some.inj hstep)
      refine ⟨hkept, ?_⟩
      rintro hello r issued ⟨⟩
  | call op =>
    obtain ⟨rfl, rfl⟩ := Prod.mk.inj (Option.some.inj hstep)
    have hmono : now ≤ op.tick?.getD now := by
      cases ht : op.tick? with
      | none => exact le_refl now
      | some t => exact hle t ht
    refine ⟨⟨perform_remembers h.1 hle, fun c hload => (h.2 c hload).mono hmono⟩, ?_⟩
    rintro hello r issued ⟨⟩
  | save =>
    obtain ⟨rfl, rfl⟩ := Prod.mk.inj (Option.some.inj hstep)
    refine ⟨Node.Remembers.save h.1, ?_⟩
    rintro hello r issued ⟨⟩
  | restart =>
    obtain ⟨c, hload, hnode⟩ := map_eq_some_iff.1 hstep
    obtain ⟨rfl, rfl⟩ := Prod.mk.inj hnode
    refine ⟨⟨h.2 c (toOption_eq_some.1 hload), h.2⟩, ?_⟩
    rintro hello r issued ⟨⟩

/-- The ticks of a run from `now` on: none goes back. -/
def Forward (now : Int) (events : List Event) : Prop :=
  (now :: events.filterMap Event.tick?).Pairwise (· ≤ ·)

variable {events : List Event}

theorem Forward.head (h : Forward now (event :: events)) : ∀ t, event.tick? = some t → now ≤ t := by
  intro t ht
  rw [Forward, filterMap_cons, ht] at h
  exact (pairwise_cons.1 h).1 t mem_cons_self

theorem Forward.tail (h : Forward now (event :: events)) :
    Forward (event.tick?.getD now) events := by
  cases ht : event.tick? with
  | none => rwa [Forward, filterMap_cons, ht] at h
  | some t =>
    rw [Forward, filterMap_cons, ht] at h
    exact (pairwise_cons.1 h).2

variable {hello : List (Text × Json)}

/-- As long as the nonce is remembered no hello with it is accepted that was issued before. -/
theorem not_accepted_again (h : node.Remembers nonce deadline now) (hticks : Forward now events)
    (hmem : some hello ∈ node.run identityVerify events) {r : HelloField → Json} {issued : Int}
    (hr : record? HelloField (.obj hello) = some r) (hnonce : r .nonceHex = .str nonce)
    (hissued : r .issuedTick = .int issued) : deadline < issued + helloLifetimeTicks := by
  induction events generalizing node now with
  | nil => exact absurd hmem not_mem_nil
  | cons event events ih =>
    rw [Node.run] at hmem
    match hstep : node.step identityVerify event with
    | none =>
      rw [hstep] at hmem
      exact absurd hmem not_mem_nil
    | some (accepted, node') =>
      rw [hstep] at hmem
      obtain ⟨hkept, hrefused⟩ := step_remembers identityVerify h hticks.head hstep
      rcases mem_cons.1 hmem with haccepted | hlater
      · exact hrefused hello r issued haccepted.symm hr hnonce hissued
      · exact ih hkept hticks.tail hlater

theorem step_accepted (hstep : node.step identityVerify event = some (some hello, node')) :
    ∃ tick r nonce issued, event.tick? = some tick ∧
      record? HelloField (.obj hello) = some r ∧ r .nonceHex = .str nonce ∧
      r .issuedTick = .int issued ∧ issued ≤ tick ∧
      node'.Remembers nonce (tick + helloLifetimeTicks) tick := by
  cases event with
  | hello peers hello' sourceIp tick =>
    have hvalid := ensures_handlePeerSession_accepted identityVerify peers hello' sourceIp tick node
      trivial
    unfold Node.step at hstep
    match hsession : handlePeerSession identityVerify peers hello' sourceIp tick node with
    | (.ok verified, node'') =>
      simp only [hsession] at hstep hvalid
      obtain ⟨haccepted, rfl⟩ := Prod.mk.inj (Option.some.inj hstep)
      obtain rfl := Option.some.inj haccepted
      obtain ⟨r, nonce, issued, hr, hnonce, hissued, hle, -, hremembers⟩ := hvalid
      exact ⟨tick, r, nonce, issued, rfl, hr, hnonce, hissued, hle, hremembers⟩
    | (.error e, node'') =>
      simp only [hsession] at hstep
      cases hstep
  | call op => cases hstep
  | save => cases hstep
  | restart =>
    obtain ⟨c, -, hnode⟩ := map_eq_some_iff.1 hstep
    cases hnode

/-- **A signed hello is accepted at most once.** Whatever a node starts with, and in whatever order
hellos, calls of the admission controller, saves and restarts come: if no admission tick is smaller
than one before it, no two accepted hellos are the same. -/
theorem hello_accepted_once (node : Node) (events : List Event)
    (hticks : (events.filterMap Event.tick?).Pairwise (· ≤ ·)) :
    (node.run identityVerify events).Pairwise fun a b => ∀ hello hello', a = some hello →
      b = some hello' →
        record? HelloField (.obj hello) ≠ record? HelloField (.obj hello') := by
  induction events generalizing node with
  | nil => exact Pairwise.nil
  | cons event events ih =>
    have htail : (events.filterMap Event.tick?).Pairwise (· ≤ ·) :=
      hticks.sublist ((sublist_cons_self _ _).filterMap _)
    rw [Node.run]
    match hstep : node.step identityVerify event with
    | none => exact Pairwise.nil
    | some (accepted, node') =>
      refine pairwise_cons.2 ⟨fun b hb hello hello' ha hb' hsame => ?_, ih node' htail⟩
      subst ha hb'
      obtain ⟨tick, r, nonce, issued, htick, hr, hnonce, hissued, hle, hremembers⟩ :=
        step_accepted identityVerify hstep
      have hforward : Forward tick events := by
        rw [filterMap_cons, htick] at hticks
        exact hticks
      have hdeadline := not_accepted_again identityVerify hremembers hforward hb
        (hsame.symm.trans hr) hnonce hissued
      omega

end

namespace Sample

def peers : Text → Option Peer := fun peerId =>
  if peerId = ascii "peer-a" then
    some ⟨ascii "198.51.100.7", replicate 64 97, ascii "group-a", ascii "tcp",
      ascii "198.51.100.7:18444"⟩
  else none

def signedHello : List (Text × Json) :=
  [(ascii "format", .str protocol), (ascii "message_type", .str (ascii "session_hello")),
    (ascii "network_id", .str networkId), (ascii "role", .str (ascii "initiator")),
    (ascii "peer_id", .str (ascii "peer-a")), (ascii "identity_algorithm", .str identityAlgorithm),
    (ascii "identity_public_key_hex", .str (replicate 64 97)),
    (ascii "operator_group", .str (ascii "group-a")), (ascii "transport", .str (ascii "tcp")),
    (ascii "endpoint", .str (ascii "198.51.100.7:18444")),
    (ascii "ephemeral_algorithm", .str ephemeralAlgorithm),
    (ascii "ephemeral_public_key_hex", .str (replicate 64 98)),
      (ascii "nonce_hex", .str Sample.nonce),
    (ascii "issued_tick", .int 100), (ascii "expires_tick", .int 116),
    (ascii "signature_hex", .str (replicate 128 99))]

/-- The hello comes at once, again after a restart, and once more when its nonce is forgotten. -/
def replays : List Event :=
  [.hello peers signedHello (ascii "198.51.100.7") 100, .restart,
    .hello peers signedHello (ascii "198.51.100.7") 116,
    .hello peers signedHello (ascii "198.51.100.7") 117]

end Sample

/-- A node that takes every signature for valid accepts the hello, and refuses it from then on. -/
theorem hello_accepted_once_replays :
    ((Node.mk .fresh none).run (fun _ _ _ => true) Sample.replays).map Option.isSome =
        [true, false, false, false] ∧
      ((Node.mk .fresh none).run (fun _ _ _ => true) Sample.replays).Pairwise fun a b =>
        ∀ hello hello', a = some hello → b = some hello' →
          record? HelloField (.obj hello) ≠ record? HelloField (.obj hello') :=
  ⟨by decide +kernel, hello_accepted_once _ _ Sample.replays (by decide)⟩

end Soveroot.Multihost
