import Soveroot.TxRequest.Rows

/-!
# Passing time

`SetTimePoint` takes the first announcement of the index by time as long as its time has come, and
then, for a clock that went back, the last one as long as its time has not come. Each turn leaves
one announcement less of the kind the loop is about. Afterwards what waits is in the future and what
is selectable is not (`PostGetRequestableSanityCheck`).
-/

namespace Soveroot.TxRequest.Tracker

open SortedView

variable {computer : Computer} {t : Tracker} {now : Int}

/-! ## The index by time -/

theorem byTime_le {a b : Announcement} (h : byTime a ≤ byTime b) :
    waitState a ≤ waitState b ∧ (waitState a = waitState b → a.time ≤ b.time) := by
  rw [byTime, byTime, Prod.Lex.toLex_le_toLex] at h
  grind

theorem waitState_spec (a : Announcement) :
    waitState a ≤ 2 ∧ (waitState a = 0 ↔ a.IsWaiting) ∧ (waitState a = 2 ↔ a.IsSelectable) := by
  cases hs : a.state <;> simp [waitState, Announcement.IsWaiting, Announcement.IsSelectable, hs]

/-! ## What has come -/

/-- No announcement waits for a time that has come. -/
def Waits (now : Int) (t : Tracker) : Prop := ∀ a ∈ t.index, a.IsWaiting → now < a.time

theorem waits_of_passTime {s : Tracker × List (NodeId × GenTxid)}
    (h : passTime computer now s = none) :
    s.1.Waits now := by
  intro x hx hwait
  cases hfirst : first byTime s.1.index with
  | none => grind [first_eq_none.1 hfirst]
  | some it =>
    have hle := byTime_le ((first_spec hfirst).2 x hx)
    simp only [passTime, hfirst] at h
    grind [waitState_spec it, waitState_spec x]

theorem passTime_spec {s s' : Tracker × List (NodeId × GenTxid)} (hi : Inv computer s.1)
    (h : passTime computer now s = some s') :
    Inv computer s'.1 ∧ s'.1.currentSequence = s.1.currentSequence ∧
      (∀ h, (rows s'.1.index h).failing (fun _ e => e.Expired now) =
        (rows s.1.index h).failing fun _ e => e.Expired now) ∧
      s'.1.index.countP (fun a => decide a.IsWaiting) < s.1.index.countP fun a =>
        decide a.IsWaiting := by
  cases hfirst : first byTime s.1.index with
  | none => simp [passTime, hfirst] at h
  | some it =>
    have hit := (first_spec hfirst).1
    simp only [passTime, hfirst] at h
    split at h
    · rename_i hdelayed
      obtain ⟨hi', hsequence, hrows, hcount⟩ := promoteCandidateReady_spec hi hit hdelayed.1
      rw [← Option.some.inj h]
      exact ⟨hi', hsequence, fun h => by rw [hrows], hcount⟩
    · split at h
      · rename_i hrequested
        obtain ⟨left, t', hmade, hstep, -, -, -, hcount⟩ := makeCompleted_spec hi hit (by grind)
        rw [hmade, Option.some.injEq] at h
        rw [← h]
        refine ⟨hstep.inv, hstep.sequence, fun h => ?_, hcount (Or.inl hrequested.1)⟩
        by_cases hh : h = it.hash
        · rw [hh]
          show (rows t'.index it.hash).failing _ = _
          rw [hstep.row, Row.failing_failing]
          grind [rows_of_mem hi.sane.unique hit]
        · exact congrArg _ (hstep.rows_of_ne hi hh)
      · cases h

/-! ## What has not come -/

theorem selectable_of_turnBack (h : turnBack computer now t = none) :
    ∀ a ∈ t.index, a.IsSelectable → a.time ≤ now := by
  intro x hx hsel
  cases hlast : last byTime t.index with
  | none => grind [last_eq_none.1 hlast]
  | some it =>
    have hle := byTime_le ((last_spec hlast).2 x hx)
    simp only [turnBack, hlast] at h
    grind [waitState_spec it, waitState_spec x]

theorem turnBack_spec {t' : Tracker} (hi : Inv computer t) (hwaits : t.Waits now)
    (h : turnBack computer now t = some t') :
    Inv computer t' ∧ t'.Waits now ∧ t'.currentSequence = t.currentSequence ∧
      rows t'.index = rows t.index ∧
      t'.index.countP (fun a => decide a.IsSelectable) < t.index.countP fun a =>
        decide a.IsSelectable := by
  cases hlast : last byTime t.index with
  | none => simp [turnBack, hlast] at h
  | some it =>
    have hit := (last_spec hlast).1
    simp only [turnBack, hlast] at h
    split at h
    · rename_i hcond
      obtain ⟨hstep, -, hmem, hcount⟩ :=
        changeAndReselect_spec hi hit (Or.inr rfl) (Or.inl (by decide))
      rw [Option.some.inj h] at hstep hmem hcount
      refine ⟨hstep.inv, ?_, hstep.sequence, funext fun h => ?_, ?_⟩
      · grind [Waits]
      · by_cases hh : h = it.hash
        · rw [hh, hstep.row, Announcement.entry_setState (by grind) (by decide)]
          grind [rows_of_mem hi.sane.unique hit]
        · exact hstep.rows_of_ne hi hh
      · grind [hcount (fun a => decide a.IsSelectable) fun a => by simp [Announcement.IsSelectable]]
    · cases h

/-! ## Both -/

/-- `SetTimePoint` ends; what shows is that requests whose expiry has come have failed. -/
theorem setTimePoint_spec (hi : Inv computer t) (now : Int) : ∃ t' expired,
    t.setTimePoint computer now = some (t', expired) ∧ Inv computer t' ∧
      t'.currentSequence = t.currentSequence ∧
      (∀ h, rows t'.index h = (rows t.index h).failing fun _ e => e.Expired now) ∧
      t'.Waits now ∧ ∀ a ∈ t'.index, a.IsSelectable → a.time ≤ now := by
  obtain ⟨⟨t₁, expired⟩, hrun₁, ⟨hi₁, hseq₁, hrows₁⟩, hend₁⟩ :=
    While.run_ends (passTime computer now)
    (t.index.length + 1) (t, [])
    (fun s : Tracker × List (NodeId × GenTxid) => Inv computer s.1 ∧
      s.1.currentSequence = t.currentSequence ∧
      ∀ h, (rows s.1.index h).failing (fun _ e => e.Expired now) =
        (rows t.index h).failing fun _ e => e.Expired now)
    (fun s => s.1.index.countP fun a => decide a.IsWaiting)
    (fun s s' hs h => by grind [passTime_spec hs.1 h]) ⟨hi, rfl, fun _ => rfl⟩
    (Nat.lt_succ_of_le List.countP_le_length)
  have hwaits₁ : t₁.Waits now := waits_of_passTime hend₁
  obtain ⟨t₂, hrun₂, ⟨hi₂, hwaits₂, hseq₂, hrows₂⟩, hend₂⟩ := While.run_ends (turnBack computer now)
    (t₁.index.length + 1) t₁
    (fun t => Inv computer t ∧ t.Waits now ∧ t.currentSequence = t₁.currentSequence ∧
      rows t.index = rows t₁.index)
    (fun t => t.index.countP fun a => decide a.IsSelectable)
    (fun s s' hs h => by grind [turnBack_spec hs.1 hs.2.1 h]) ⟨hi₁, hwaits₁, rfl, rfl⟩
    (Nat.lt_succ_of_le List.countP_le_length)
  refine ⟨t₂, expired, by simp [setTimePoint, hrun₁, hrun₂], hi₂, hseq₂.trans hseq₁, fun h =>
    ?_, hwaits₂,
    selectable_of_turnBack hend₂⟩
  rw [hrows₂, ← hrows₁ h, Row.failing_of_none, hi₁.settle]
  intro p e hrow
  obtain ⟨a, ha, -, -, rfl⟩ := (rows_eq_some hi₁.sane.unique).1 hrow
  grind [Waits]

end Soveroot.TxRequest.Tracker
