import Soveroot.Multihost.Admission

/-!
# Rules for the methods

The checks of a method read the state, count a rejection and raise, or pass. `Checked P E` says that
`E` holds when a check is made in `P` and fails; from it come the rules for each piece that the
methods of `AdmissionController` are made of, with what a passed check has found out.
-/

namespace Soveroot.Multihost

open Py Check Stateful

/-- The reasons `_reject` is called with. -/
def reasons : List String :=
  ["admission_tick", "quarantined_identity", "replayed_handshake", "replay_state_limit",
    "admission_bucket_limit", "identity_handshake_rate", "prefix_handshake_rate",
    "active_session_limit", "identity_session_limit", "prefix_session_limit", "frame_size",
    "message_rate", "quarantine_limit"]

/-- The state after `_reject`. -/
def Controller.rejected (reason : String) (c : Controller) : Controller :=
  { c with rejections := bump c.rejections (ascii reason) }

/-- A check that fails in `P` ends in `E`, whether the rejection is counted or not. -/
structure Checked (P : Controller → Prop) (E : SafetyError → Controller → Prop) : Prop where
  rejected : ∀ c, P c → ∀ reason ∈ reasons, ∀ detail, E ⟨reason, detail⟩ (c.rejected reason)
  raised : ∀ c, P c → ∀ e, E e c

variable {P : Controller → Prop} {E : SafetyError → Controller → Prop}

theorem ensures_rejectIf {Q : Unit → Controller → Prop} {condition : Prop} [Decidable condition]
    {reason detail : String}
    (herror : condition → ∀ c, P c → E ⟨reason, detail⟩ (c.rejected reason))
    (hok : ¬ condition → ∀ c, P c → Q () c) : Ensures P (rejectIf condition reason detail) Q E := by
  refine .ite (fun hc => ?_) fun hc => .pure (hok hc)
  exact (Ensures.update fun c hP => herror hc c hP).bind fun _ => .raise fun _ h => h

/-- `_advance`: the clock has moved and what has expired is gone, or the tick is refused. -/
theorem ensures_advanceWith {R : Controller → Prop} {sweep : Sweep} {tick : Int}
    (hreject : ∀ c, P c → ∀ detail, E ⟨"admission_tick", detail⟩ (c.rejected "admission_tick"))
    (hadvance : ∀ c, P c → c.tick ≤ tick → R (c.advanced sweep tick)) :
    Ensures P (advanceWith sweep tick) (fun _ => R) E := by
  intro c hc
  rcases lt_or_ge tick c.tick with htick | htick
  · rw [advanceWith_of_lt _ htick]
    exact hreject c hc _
  · rw [advanceWith_of_le _ htick]
    exact hadvance c hc htick

namespace Checked

variable {P : Controller → Prop} {E : SafetyError → Controller → Prop}

theorem mono {P' : Controller → Prop} (h : Checked P E) (hP : ∀ c, P' c → P c) : Checked P' E :=
  ⟨fun c hc => h.rejected c (hP c hc), fun c hc => h.raised c (hP c hc)⟩

variable {reason : String}

theorem ensures_rejectIf (h : Checked P E) (condition : Prop) [Decidable condition]
    (hreason : reason ∈ reasons) (detail : String) :
    Ensures P (rejectIf condition reason detail) (fun _ c => P c ∧ ¬ condition) E :=
  Multihost.ensures_rejectIf (fun _ c hc => h.rejected c hc reason hreason detail)
    fun hnot _ hc => ⟨hc, hnot⟩

theorem ensures_check {α : Type} (h : Checked P E) (x : Except SafetyError α) :
    Ensures P (check x) (fun a c => P c ∧ x = .ok a) E :=
  .check (fun _ ha _ hc => ⟨hc, ha⟩) fun e c hc => h.raised c hc e

/-- A handshake that passes has a nonce that is not remembered, and there is room for it. -/
theorem ensures_screen (h : Checked P E) (peerId nonce : Text) (tick : Int) :
    Ensures P (screen peerId nonce tick)
      (fun _ c => P c ∧ nonce ∉ c.replayNonces.keys ∧ c.replayNonces.size < maxReplayNonces) E := by
  refine .read_bind fun c hc => ?_
  have hc : Checked (· = c) E := h.mono fun s hs => hs ▸ hc
  refine (hc.ensures_rejectIf _ (by decide) _).bind fun _ => ?_
  refine ((hc.mono fun s hs => hs.1).ensures_rejectIf _ (by decide) _).bind fun _ => ?_
  refine ((hc.mono fun s hs => hs.1.1).ensures_rejectIf _ (by decide) _).imp (fun _ hs => hs)
    (fun _ s hs => ?_) fun _ _ he => he
  obtain ⟨⟨⟨rfl, -⟩, hnonce⟩, hsize⟩ := hs
  exact ⟨‹P _›, fun hmem => hnonce (Dict.contains_iff.2 hmem), not_le.1 hsize⟩

theorem ensures_screenSessions (h : Checked P E) (peerId network : Text) :
    Ensures P (screenSessions peerId network)
      (fun _ c => P c ∧ c.activeIdentity.sum < maxActiveSessions ∧
        (c.activeIdentity.get? peerId).getD 0 < maxSessionsPerIdentity ∧
        (c.activePrefix.get? network).getD 0 < maxSessionsPerSourcePrefix) E := by
  refine .read_bind fun c hc => ?_
  have hc : Checked (· = c) E := h.mono fun s hs => hs ▸ hc
  refine (hc.ensures_rejectIf _ (by decide) _).bind fun _ => ?_
  refine ((hc.mono fun s hs => hs.1).ensures_rejectIf _ (by decide) _).bind fun _ => ?_
  refine ((hc.mono fun s hs => hs.1.1).ensures_rejectIf _ (by decide) _).imp (fun _ hs => hs)
    (fun _ s hs => ?_) fun _ _ he => he
  obtain ⟨⟨⟨rfl, hsum⟩, hidentity⟩, hnetwork⟩ := hs
  exact ⟨‹P _›, not_le.1 hsum, not_le.1 hidentity, not_le.1 hnetwork⟩

theorem ensures_pay {R : Option Bool → Controller → Prop} (h : ∀ result, Checked (R result) E)
    {family : Family} {key : Text} {tick cost : Int} (full : String) (hreason : reason ∈ reasons)
    (detail : String)
    (hconsume : ∀ c, P c →
      R (Bucket.consume family.rate maxAdmissionBuckets (c.table family) key tick cost).1
        (c.setTable family
          (Bucket.consume family.rate maxAdmissionBuckets (c.table family) key tick cost).2)) :
    Ensures P (pay family key tick cost full reason detail) (fun _ => R (some true)) E := by
  refine Ensures.bind (Q := R) (fun c hc => hconsume c hc) fun result => ?_
  refine ((h result).ensures_rejectIf _ (by decide) _).bind fun _ => ?_
  refine (((h result).mono fun c hc => hc.1).ensures_rejectIf _ hreason _).imp (fun _ hc => hc)
    (fun _ c hc => ?_) fun _ _ he => he
  obtain ⟨⟨hc, hnone⟩, hfalse⟩ := hc
  match result, hc, hnone, hfalse with
  | none, _, hnone, _ => exact absurd rfl hnone
  | some false, _, _, hfalse => exact absurd rfl hfalse
  | some true, hc, _, _ => exact hc

end Checked

end Soveroot.Multihost
