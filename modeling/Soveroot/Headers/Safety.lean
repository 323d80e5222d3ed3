import Soveroot.Headers.Phases

/-!
# No unproven header is released

Over every sequence of calls: what a sync has released is a chain on its start, the beginning of
what it redownloaded, and was released only when the first phase had seen enough work and enough
headers had been redownloaded. As long as the heights of the first phase fit an `int`, these had the
bits it committed to; past `INT_MAX` the two phases commit to different heights.
-/

namespace Soveroot.Headers

open Py Loop List

/-- One call of `ProcessNextHeaders`. -/
structure Call where
  headers : List CBlockHeader
  full : Bool

/-- The headers received in the two phases, and those released. -/
structure Log where
  presync : List CBlockHeader
  redownload : List CBlockHeader
  released : List CBlockHeader
  deriving DecidableEq

/-- What a call in a phase adds. -/
def Log.add (log : Log) (phase : DownloadState) (headers released : List CBlockHeader) : Log :=
  match phase with
  | .presync => { log with presync := log.presync ++ headers }
  | .redownload =>
    { log with redownload := log.redownload ++ headers, released := log.released ++ released }
  | .final => log

namespace Setup

variable (cfg : Setup)

def record (x : SyncState × Log) (call : Call) : SyncState × Log :=
  let r := cfg.processNextHeaders x.1 call.headers call.full
  (r.2, x.2.add x.1.downloadState call.headers r.1.powValidatedHeaders)

/-- A sequence of calls on a new sync. -/
def play (calls : List Call) : SyncState × Log := calls.foldl cfg.record (cfg.initial, ⟨[], [], []⟩)

/-- The headers of a message connect to each other; the caller has checked it. -/
def Continuous : List CBlockHeader → Prop
  | [] => True
  | h :: hs => cfg.Linked (cfg.hashOf h) hs

instance : (hs : List CBlockHeader) → Decidable (cfg.Continuous hs)
  | [] => inferInstanceAs (Decidable True)
  | h :: hs => inferInstanceAs (Decidable (cfg.Linked (cfg.hashOf h) hs))

/-- Some header of a chain on the start brings the work to the minimum. -/
def Reaches (hs : List CBlockHeader) : Prop :=
  ∃ n < hs.length, cfg.minimumRequiredWork ≤ cfg.workOf (hs.take (n + 1))

/-- The redownloaded headers before the minimum agree with the first phase in the bits it committed
to. -/
def Agrees (presync redownload : List CBlockHeader) : Prop :=
  ∀ (j : Nat) (r : CBlockHeader), redownload[j]? = some r →
    cfg.isCommitted (cfg.chainStart.height + 1 + j) = true →
      ¬ cfg.Reaches (redownload.take (j + 1)) →
    ∃ p, presync[j]? = some p ∧ cfg.commitment p = cfg.commitment r

/-- What may be said of the headers released; of their salted bits, provided that `fits` holds. -/
structure Safe (fits : Prop) (log : Log) : Prop where
  released_prefix : log.released <+: log.redownload
  linked : cfg.Linked cfg.startHash log.released
  proven : log.released ≠ [] →
    cfg.Linked cfg.startHash log.presync ∧ cfg.minimumRequiredWork ≤ cfg.workOf log.presync
  /-- When the header at `i` was released, `n` headers had been redownloaded. -/
  ready : ∀ i < log.released.length, ∃ n, i < n ∧ n ≤ log.redownload.length ∧
    (cfg.Reaches (log.redownload.take n) ∨ i + 1 + cfg.redownloadBufferSize ≤ n) ∧
    (fits → cfg.Agrees log.presync (log.redownload.take n))

variable {cfg} {s : SyncState} {log : Log} {P released held R : List CBlockHeader}

theorem below_ne_iff (work : BitVec 256) (hs : List CBlockHeader) :
    cfg.below work hs ≠ hs ↔ ∃ n < hs.length, cfg.minimumRequiredWork ≤
      (hs.take (n + 1)).foldl (fun work h => work + getBitsProof h.nBits) work := by
  induction hs generalizing work with
  | nil => simp [below]
  | cons h hs ih =>
    rw [below]
    split_ifs with hreach
    · exact iff_of_true (by simp) ⟨0, Nat.succ_pos _, hreach⟩
    · rw [ne_eq, cons_inj_right, ← ne_eq, ih]
      constructor
      · rintro ⟨n, hn, hwork⟩
        exact ⟨n + 1, Nat.succ_lt_succ hn, hwork⟩
      · rintro ⟨n, hn, hwork⟩
        cases n with
        | zero => exact absurd hwork hreach
        | succ n => exact ⟨n, Nat.lt_of_succ_lt_succ hn, hwork⟩

theorem unproven_ne_iff (hs : List CBlockHeader) : cfg.unproven hs ≠ hs ↔ cfg.Reaches hs :=
  below_ne_iff _ hs

/-- The commitments compared so far make the redownloaded headers agree with the first phase. -/
theorem agrees_of_bits {rest : List Bool} (h : cfg.bits (cfg.unproven R) ++ rest = cfg.bits P) :
    cfg.Agrees P R := by
  intro j r hr hj hnot
  -- the header is among those before the minimum
  have hun : cfg.unproven (R.take (j + 1)) = R.take (j + 1) := by
    by_contra hne
    exact hnot ((unproven_ne_iff _).1 hne)
  have hget : (cfg.unproven R)[j]? = some r := by
    have hsplit : cfg.unproven R = R.take (j + 1) ++
        cfg.below (cfg.workOf (R.take (j + 1))) (R.drop (j + 1)) := by
      conv_lhs => rw [← take_append_drop (j + 1) R]
      rw [unproven_append, if_pos hun]
    have hlt : j < (R.take (j + 1)).length := by
      rw [length_take]
      have := (List.getElem?_eq_some_iff.1 hr).1
      omega
    rw [hsplit, List.getElem?_append_left hlt, List.getElem?_take_of_lt (Nat.lt_succ_self j), hr]
  exact commitment_eq_of_bitsFrom h hget hj

/-! ## One call -/

variable {headers : List CBlockHeader} {s' : SyncState}

theorem InPresync.stored (hs : cfg.InPresync s P) (hcontinuous : cfg.Continuous headers)
    (hne : headers ≠ [])
    (h : cfg.validateAndStoreHeadersCommitments s headers = (true, s')) :
    ∃ s₁, cfg.InPresync s₁ (P ++ headers) ∧
      s' = if s₁.currentChainWork ≥ cfg.minimumRequiredWork then
        cfg.startRedownload s₁ else s₁ := by
  cases headers with
  | nil => exact absurd rfl hne
  | cons first rest =>
    rw [validateAndStoreHeadersCommitments, if_neg (not_not.2 hs.state),
      hs.last, ← endHash_start] at h
    by_cases hfirst : first.hashPrevBlock = cfg.endHash cfg.startHash P
    swap
    · rw [if_pos hfirst] at h
      simp at h
    rw [if_neg (not_not.2 hfirst)] at h
    split at h
    · simp at h
    · rename_i s₁ hloop
      refine ⟨s₁, ?_, (Prod.mk.inj h).2.symm⟩
      -- the headers to come stay linked to those taken
      have := untilRefused_ok (fun done rest s => cfg.InPresync s (P ++ done) ∧
          cfg.Linked (cfg.endHash cfg.startHash (P ++ done)) rest) ?_
        [] ⟨by rwa [append_nil], ?_⟩ hloop
      · simpa using this.1
      · rintro done a rest s s' ⟨hs, hlink, hrest⟩ hstep
        have hs' := hs.taken hlink hstep
        rw [append_assoc] at hs'
        exact ⟨hs', by rwa [← append_assoc, endHash_concat]⟩
      · rw [append_nil]
        exact ⟨hfirst, hcontinuous⟩

theorem InRedownload.stored (hs : cfg.InRedownload s P released held)
    (h : untilRefused cfg.validateAndStoreRedownloadedHeader headers s = (true, s')) :
    cfg.InRedownload s' P released (held ++ headers) := by
  have := untilRefused_ok (fun done _ s => cfg.InRedownload s P released (held ++ done))
    (fun done a _ s s' hs hstep => by rw [← append_assoc]; exact hs.taken hstep)
    [] (by rwa [append_nil]) h
  rwa [nil_append] at this

/-! ## Sequences of calls -/

variable {fits : Prop}

theorem Safe.of_released_nil (h : log.released = []) : cfg.Safe fits log where
  released_prefix := by rw [h]; exact nil_prefix
  linked := by rw [h]; trivial
  proven hne := absurd h hne
  ready i hi := by rw [h] at hi; exact absurd hi (Nat.not_lt_zero i)

/-- Headers that are received and not released change nothing. -/
theorem Safe.received (h : cfg.Safe fits log) (headers : List CBlockHeader) :
    cfg.Safe fits { log with redownload := log.redownload ++ headers } where
  released_prefix := h.released_prefix.trans (prefix_append _ _)
  linked := h.linked
  proven := h.proven
  ready i hi := by
    obtain ⟨n, hin, hn, hready⟩ := h.ready i hi
    refine ⟨n, hin, hn.trans (by simp), ?_⟩
    rwa [take_append_of_le_length hn]

/-- The release of the headers that are ready, when `R` is all that was redownloaded. -/
theorem Safe.release (h : cfg.Safe fits log) (hfits : fits → cfg.HeightsFit log.presync)
    (hs : cfg.InRedownload s log.presync log.released held)
    (hlog : log.redownload = log.released ++ held) :
    cfg.Safe fits { log with
      released := log.released ++
        held.take (cfg.readyCount s.processAllRemainingHeaders held.length) } where
  released_prefix := by
    rw [hlog]
    exact (prefix_append_right_inj _).2 (List.take_prefix _ _)
  linked := by
    have hlinked := hs.linked
    rw [← take_append_drop (cfg.readyCount s.processAllRemainingHeaders held.length) held,
      ← append_assoc] at hlinked
    exact (linked_append.1 hlinked).1
  proven _ := hs.proven
  ready i hi := by
    by_cases hold : i < log.released.length
    · exact h.ready i hold
    · refine ⟨log.redownload.length, ?_, le_rfl, ?_, ?_⟩ <;>
        rw [length_append, length_take] at hi
      · rw [hlog, length_append]
        omega
      · rw [take_length, hlog, length_append]
        rw [readyCount] at hi
        split_ifs at hi with hall
        · rw [hs.processAll, decide_eq_true_iff, unproven_ne_iff] at hall
          exact .inl hall
        · exact .inr (by omega)
      · rw [take_length, hlog]
        exact fun hfit => agrees_of_bits (hs.commitments (hfits hfit))

variable (cfg) in
/-- What holds between the calls. -/
structure Inv (s : SyncState) (log : Log) : Prop where
  safe : cfg.Safe (cfg.HeightsFit log.presync) log
  presync : s.downloadState = .presync →
    cfg.InPresync s log.presync ∧ log.redownload = [] ∧ log.released = []
  redownload : s.downloadState = .redownload → s.processAllRemainingHeaders = false ∧
    ∃ held, log.redownload = log.released ++ held ∧ held.length ≤ cfg.redownloadBufferSize ∧
      cfg.InRedownload s log.presync log.released held

theorem inv_finalize (h : cfg.Safe (cfg.HeightsFit log.presync) log) : cfg.Inv (finalize s) log :=
  ⟨h, fun hstate => by simp [finalize] at hstate, fun hstate => by simp [finalize] at hstate⟩

variable {call : Call}

theorem Inv.presync_call (h : cfg.Inv s log) (hstate : s.downloadState = .presync)
    (hne : call.headers ≠ []) (hcontinuous : cfg.Continuous call.headers) :
    cfg.Inv (cfg.processNextHeaders s call.headers call.full).2
      { log with presync := log.presync ++ call.headers } := by
  obtain ⟨hs, hredownload, hreleased⟩ := h.presync hstate
  obtain ⟨success, s', hstore⟩ : ∃ success s',
      cfg.validateAndStoreHeadersCommitments s call.headers = (success, s') := ⟨_, _, rfl⟩
  simp only [processNextHeaders, if_neg hne, hstate, processPresync, hstore]
  split_ifs with hok
  · obtain rfl : success = true := (Bool.and_eq_true_iff.1 hok).1
    obtain ⟨s₁, hs₁, rfl⟩ := hs.stored hcontinuous hne hstore
    split_ifs with hwork
    · refine ⟨.of_released_nil hreleased,
        fun hstate => by simp [startRedownload] at hstate, fun _ =>
        ⟨hs₁.processAll, [], ?_, Nat.zero_le _, ?_⟩⟩
      · rw [hredownload, hreleased]
        rfl
      · rw [hreleased]
        exact hs₁.startRedownload hwork
    · exact ⟨.of_released_nil hreleased, fun _ => ⟨hs₁, hredownload, hreleased⟩, fun hstate => by
        rw [hs₁.state] at hstate
        simp at hstate⟩
  · exact inv_finalize (.of_released_nil hreleased)

theorem Inv.redownload_call (h : cfg.Inv s log) (hstate : s.downloadState = .redownload)
    (hne : call.headers ≠ []) : cfg.Inv (cfg.processNextHeaders s call.headers call.full).2
      { log with
        redownload := log.redownload ++ call.headers
        released := log.released ++
          (cfg.processNextHeaders s call.headers call.full).1.powValidatedHeaders } := by
  obtain ⟨-, held, hlog, -, hs⟩ := h.redownload hstate
  obtain ⟨success, s₁, hloop⟩ : ∃ success s₁, untilRefused cfg.validateAndStoreRedownloadedHeader
      call.headers s = (success, s₁) := ⟨_, _, rfl⟩
  cases success with
  | false =>
    simp only [processNextHeaders, if_neg hne, hstate, processRedownload, hloop, append_nil]
    exact inv_finalize (h.safe.received call.headers)
  | true =>
    have hs₁ := hs.stored hloop
    have hsafe := (h.safe.received call.headers).release id hs₁ (by rw [hlog, append_assoc])
    obtain ⟨s₂, hpop, hflag, hs₂⟩ := hs₁.popped
    simp only [processNextHeaders, if_neg hne, hstate, processRedownload, hloop, hpop]
    split_ifs with hmore
    · -- more is asked for, so not all that was held is released
      have hfalse : s₁.processAllRemainingHeaders = false := by
        by_contra htrue
        rw [Bool.not_eq_false] at htrue
        simp [hs₂.buffer, hflag, htrue, readyCount] at hmore
      refine ⟨hsafe, fun hstate => by rw [hs₂.state] at hstate; simp at hstate, fun _ =>
        ⟨hflag.trans hfalse, _, ?_, ?_, hs₂⟩⟩
      · simp only [hlog, append_assoc, take_append_drop]
      · rw [length_drop, hfalse, readyCount, if_neg Bool.false_ne_true]
        omega
    · exact inv_finalize hsafe

theorem play_concat (calls : List Call) (call : Call) :
    cfg.play (calls ++ [call]) = cfg.record (cfg.play calls) call := foldl_append

theorem Inv.record (h : cfg.Inv s log) (hcontinuous : cfg.Continuous call.headers) :
    cfg.Inv (cfg.record (s, log) call).1 (cfg.record (s, log) call).2 := by
  simp only [Setup.record]
  by_cases hne : call.headers = []
  · have hsame : cfg.processNextHeaders s call.headers call.full = (⟨[], false, false⟩, s) :=
      if_pos hne
    rw [hsame, hne]
    cases s.downloadState <;> simpa [Log.add] using h
  · cases hstate : s.downloadState with
    | presync => exact h.presync_call hstate hne hcontinuous
    | redownload => exact h.redownload_call hstate hne
    | final =>
      have hsame : (cfg.processNextHeaders s call.headers call.full).2 = s := by
        rw [processNextHeaders, if_neg hne, hstate]
      rw [hsame]
      exact h

theorem inv_play {calls : List Call} (hcontinuous : ∀ call ∈ calls, cfg.Continuous call.headers) :
    cfg.Inv (cfg.play calls).1 (cfg.play calls).2 := by
  induction calls using reverseRecOn with
  | nil =>
    exact ⟨.of_released_nil rfl, fun _ => ⟨inPresync_initial, rfl, rfl⟩, fun hstate => by
      simp [play, initial] at hstate⟩
  | append_singleton calls call ih =>
    rw [play_concat]
    exact (ih fun c hc => hcontinuous c (mem_append_left _ hc)).record (hcontinuous call (by simp))

/-! ## What is stored -/

variable (cfg) in
/-- What is stored between the calls. -/
structure Small (s : SyncState) : Prop where
  commitments : s.headerCommitments.length ≤ cfg.maxCommitments
  buffer : s.redownloadedHeaders.length ≤ cfg.redownloadBufferSize

variable (cfg) in
/-- The states a call passes while it takes the headers. -/
def during (s : SyncState) (headers : List CBlockHeader) : List SyncState :=
  match s.downloadState with
  | .presync => visited cfg.validateAndProcessSingleHeader headers s
  | .redownload => visited cfg.validateAndStoreRedownloadedHeader headers s
  | .final => [s]

section Storage

variable {s' : SyncState} {h : CBlockHeader} {taken : Bool}

theorem presync_step_stores (hs : s.headerCommitments.length ≤ cfg.maxCommitments)
    (hstep : cfg.validateAndProcessSingleHeader s h = (taken, s')) :
    s'.redownloadedHeaders = s.redownloadedHeaders ∧
      s'.headerCommitments.length ≤ cfg.maxCommitments + 1 ∧
      (taken = true → s'.headerCommitments.length ≤ cfg.maxCommitments) := by
  rw [validateAndProcessSingleHeader] at hstep
  dsimp only at hstep
  split_ifs at hstep with hstate hperm hc hmax hmax <;> obtain ⟨rfl, rfl⟩ := Prod.mk.inj hstep
  · exact ⟨rfl, hs.trans (Nat.le_succ _), fun _ => hs⟩
  · exact ⟨rfl, hs.trans (Nat.le_succ _), fun _ => hs⟩
  · refine ⟨rfl, ?_, fun hf => absurd hf Bool.false_ne_true⟩
    rw [length_append, length_singleton]
    omega
  · have hle : (s.headerCommitments ++ [cfg.commitment h]).length ≤ cfg.maxCommitments :=
      Nat.not_lt.1 fun hlt => hmax ⟨hc, hlt⟩
    exact ⟨rfl, hle.trans (Nat.le_succ _), fun _ => hle⟩
  · exact absurd hmax.1 hc
  · exact ⟨rfl, hs.trans (Nat.le_succ _), fun _ => hs⟩

theorem checkCommitment_stores {height : Int}
    (hcheck : cfg.checkCommitment s height h = (taken, s')) :
    s'.downloadState = s.downloadState ∧ s'.redownloadedHeaders = s.redownloadedHeaders ∧
      s'.headerCommitments.length ≤ s.headerCommitments.length := by
  rw [checkCommitment] at hcheck
  split_ifs at hcheck
  · split at hcheck <;> obtain ⟨-, rfl⟩ := Prod.mk.inj hcheck
    · exact ⟨rfl, rfl, le_rfl⟩
    · rename_i hcons
      rw [hcons]
      exact ⟨rfl, rfl, Nat.le_succ _⟩
  · obtain ⟨-, rfl⟩ := Prod.mk.inj hcheck
    exact ⟨rfl, rfl, le_rfl⟩

theorem redownload_step_stores (hstep : cfg.validateAndStoreRedownloadedHeader s h = (taken, s')) :
    s'.downloadState = s.downloadState ∧
      s'.redownloadedHeaders.length ≤ s.redownloadedHeaders.length + 1 ∧
      s'.headerCommitments.length ≤ s.headerCommitments.length := by
  rw [validateAndStoreRedownloadedHeader] at hstep
  dsimp only at hstep
  iterate 3
    split at hstep
    · obtain ⟨-, rfl⟩ := Prod.mk.inj hstep
      exact ⟨rfl, Nat.le_succ _, le_rfl⟩
  split at hstep <;> rename_i s₁ hcheck <;> obtain ⟨-, rfl⟩ := Prod.mk.inj hstep <;>
    obtain ⟨hstate, hbuffer, hcommitments⟩ := checkCommitment_stores hcheck
  · exact ⟨hstate, by rw [hbuffer]; exact Nat.le_succ _, hcommitments⟩
  · refine ⟨hstate, ?_, hcommitments⟩
    simp only [storeHeader, length_append, length_singleton, hbuffer]
    exact le_rfl

theorem popHeaders_stores (s : SyncState) (buffer : List CompressedHeader) (prev : Digest) :
    (cfg.popHeaders s buffer prev).2.redownloadedHeaders.length ≤ cfg.redownloadBufferSize ∧
      (cfg.popHeaders s buffer prev).2.headerCommitments = s.headerCommitments := by
  induction buffer generalizing prev with
  | nil => exact ⟨Nat.zero_le _, rfl⟩
  | cons h rest ih =>
    rw [popHeaders]
    split_ifs with hready
    · exact ih _
    · refine ⟨?_, rfl⟩
      rw [not_or, Nat.not_lt] at hready
      exact hready.1

theorem small_finalize : cfg.Small (finalize s) := ⟨Nat.zero_le _, Nat.zero_le _⟩

variable {headers : List CBlockHeader}

theorem Small.storeCommitments (hs : cfg.Small s)
    (h : cfg.validateAndStoreHeadersCommitments s headers = (true, s')) : cfg.Small s' := by
  cases headers with
  | nil =>
    obtain ⟨-, rfl⟩ := Prod.mk.inj h
    exact hs
  | cons first rest =>
    rw [validateAndStoreHeadersCommitments] at h
    split_ifs at h
    · simp at h
    · simp at h
    · split at h
      · simp at h
      · rename_i s₁ hloop
        obtain ⟨-, rfl⟩ := Prod.mk.inj h
        have hs₁ : cfg.Small s₁ := untilRefused_ok (fun _ _ s => cfg.Small s) (by
          intro _ _ _ s s' hs hstep
          obtain ⟨hbuffer, -, hcommitments⟩ := presync_step_stores hs.commitments hstep
          exact ⟨hcommitments rfl, by rw [hbuffer]; exact hs.buffer⟩) [] hs hloop
        split_ifs
        · exact ⟨hs₁.commitments, Nat.zero_le _⟩
        · exact hs₁

theorem Small.redownloaded (hs : cfg.Small s) (hstate : s.downloadState = .redownload) {full : Bool}
    (h : (cfg.processRedownload s headers full).1.success = true) :
    cfg.Small (cfg.processRedownload s headers full).2 := by
  obtain ⟨success, s₁, hloop⟩ : ∃ success s₁, untilRefused cfg.validateAndStoreRedownloadedHeader
      headers s = (success, s₁) := ⟨_, _, rfl⟩
  cases success with
  | false => simp [processRedownload, hloop] at h
  | true =>
    obtain ⟨hstate₁, hcommitments⟩ := untilRefused_ok
      (fun _ _ s => s.downloadState = .redownload ∧ s.headerCommitments.length ≤ cfg.maxCommitments)
      (fun _ _ _ s s' hs hstep => by
        obtain ⟨hstate, -, hcommitments⟩ := redownload_step_stores hstep
        exact ⟨hstate.trans hs.1, hcommitments.trans hs.2⟩) [] ⟨hstate, hs.commitments⟩ hloop
    simp only [processRedownload, hloop, popHeadersReadyForAcceptance, if_neg (not_not.2 hstate₁)]
    obtain ⟨hbuffer, hsame⟩ := popHeaders_stores s₁ s₁.redownloadedHeaders
      s₁.redownloadBufferFirstPrevHash
    exact ⟨by rw [hsame]; exact hcommitments, hbuffer⟩

theorem Small.processNextHeaders (hs : cfg.Small s) (headers : List CBlockHeader) (full : Bool) :
    cfg.Small (cfg.processNextHeaders s headers full).2 := by
  rw [Setup.processNextHeaders]
  split_ifs with hne
  · exact hs
  · split
    case h_1 => exact hs
    case h_2 =>
      dsimp only
      split_ifs with hok
      · exact hs.storeCommitments (Prod.ext (Bool.and_eq_true_iff.1 hok).1 rfl)
      · exact small_finalize
    case h_3 hstate =>
      dsimp only
      split_ifs with hok
      · exact hs.redownloaded hstate (Bool.and_eq_true_iff.1 hok).1
      · exact small_finalize

theorem small_play (calls : List Call) : cfg.Small (cfg.play calls).1 := by
  induction calls using reverseRecOn with
  | nil => exact ⟨Nat.zero_le _, Nat.zero_le _⟩
  | append_singleton calls call ih =>
    rw [play_concat]
    exact ih.processNextHeaders _ _

/-- While a call takes headers there is at most one commitment too many, and the headers of the call
beside those of the buffer. -/
theorem Small.during (hs : cfg.Small s) (headers : List CBlockHeader) :
    ∀ s' ∈ cfg.during s headers, s'.headerCommitments.length ≤ cfg.maxCommitments + 1 ∧
      s'.redownloadedHeaders.length ≤ cfg.redownloadBufferSize + headers.length := by
  rw [Setup.during]
  split
  case h_1 =>
    refine forall_visited (fun _ s => cfg.Small s) _ (fun n s hs _ => ?_)
      (fun n s a s' hs hstep => ?_)
      (fun n s a s' hs _ hstep => ?_) hs
    · exact ⟨hs.commitments.trans (Nat.le_succ _), hs.buffer.trans (Nat.le_add_right _ _)⟩
    · obtain ⟨hbuffer, -, hcommitments⟩ := presync_step_stores hs.commitments hstep
      exact ⟨hcommitments rfl, by rw [hbuffer]; exact hs.buffer⟩
    · obtain ⟨hbuffer, hcommitments, -⟩ := presync_step_stores hs.commitments hstep
      exact ⟨hcommitments, by rw [hbuffer]; exact hs.buffer.trans (Nat.le_add_right _ _)⟩
  case h_2 =>
    refine forall_visited (fun n s => s.headerCommitments.length ≤ cfg.maxCommitments ∧
        s.redownloadedHeaders.length ≤ cfg.redownloadBufferSize + n) _ (fun n s hs hn => ?_)
      (fun n s a s' hs hstep => ?_) (fun n s a s' hs hn hstep => ?_) ⟨hs.commitments, hs.buffer⟩
    · exact ⟨hs.1.trans (Nat.le_succ _), hs.2.trans (Nat.add_le_add_left hn _)⟩
    · obtain ⟨-, hbuffer, hcommitments⟩ := redownload_step_stores hstep
      exact ⟨hcommitments.trans hs.1, by omega⟩
    · obtain ⟨-, hbuffer, hcommitments⟩ := redownload_step_stores hstep
      omega
  case h_3 =>
    intro s' hs'
    obtain rfl := mem_singleton.1 hs'
    exact ⟨hs.commitments.trans (Nat.le_succ _), hs.buffer.trans (Nat.le_add_right _ _)⟩

end Storage

/-- **No unproven header is released**, over every sequence of calls; the salted bits of the second
phase are those of the first as long as the heights of the first phase fit an `int`. And whatever
the calls, at no time is more stored than announced. -/
theorem released_proven (cfg : Setup) (calls : List Call) :
    ((∀ call ∈ calls, cfg.Continuous call.headers) →
      cfg.Safe (cfg.HeightsFit (cfg.play calls).2.presync) (cfg.play calls).2) ∧
      ∀ headers, ∀ s ∈ cfg.during (cfg.play calls).1 headers,
        s.headerCommitments.length ≤ cfg.maxCommitments + 1 ∧
          s.redownloadedHeaders.length ≤ cfg.redownloadBufferSize + headers.length :=
  ⟨fun hcontinuous => (inv_play hcontinuous).safe, (small_play calls).during⟩

end Setup

namespace Sample

def onHash (hashPrevBlock : Digest) (nNonce : UInt32) : CBlockHeader :=
  ⟨1, hashPrevBlock, Setup.nullHash, 0, 0x1d00ffff, nNonce⟩

def root : CBlockHeader := onHash Setup.nullHash 0

def headersOn (prev : CBlockHeader) : List UInt32 → List CBlockHeader
  | [] => []
  | nNonce :: rest =>
    let h := onHash (prev.getHash Sha256.sha256) nNonce
    h :: headersOn h rest

/-- A sync from a root at a given height that asks for the work of three headers, holds back one
header and commits to heights that are 2 more than a multiple of 7. -/
def setupAt (height : Nat) (height_lt : height < 2 ^ 31) : Setup where
  sha256 := Sha256.sha256
  consensus := ⟨BitVec.ofNat 256 (2 ^ 224 - 1), false, 600, 1209600⟩
  commitmentPeriod := 7
  redownloadBufferSize := 1
  commitOffset := 2
  salt := ⟨0, 0⟩
  chainStart := ⟨root, height, 0, height_lt⟩
  minimumRequiredWork := 3 * getBitsProof 0x1d00ffff
  maxCommitments := 10
  commitOffset_lt := by decide

/-- Three headers in the first phase, and two of another chain in the second. -/
def twoChains : List Call :=
  [⟨headersOn root [0, 0, 0], true⟩, ⟨headersOn root [2, 0], true⟩]

def sameChain : List Call :=
  [⟨headersOn root [0, 0, 0], true⟩, ⟨headersOn root [0, 0], true⟩,
    ⟨(headersOn root [0, 0, 0]).drop 2, false⟩]

end Sample

open Headers.Sample

/-- A sync of three headers from the genesis block: all are released, with the bits compared. -/
theorem Setup.released_proven_sameChain :
    ((setupAt 0 (by decide)).play sameChain).2.released = headersOn root [0, 0, 0] ∧
      (setupAt 0 (by decide)).Safe True ((setupAt 0 (by decide)).play sameChain).2 := by
  have hsafe := (Setup.released_proven (setupAt 0 (by decide)) sameChain).1 (by decide +kernel)
  have hlog : ((setupAt 0 (by decide)).play sameChain).2 =
      ⟨headersOn root [0, 0, 0], headersOn root [0, 0, 0], headersOn root [0, 0, 0]⟩ := by
    decide +kernel
  rw [hlog] at hsafe ⊢
  have hfit : (setupAt 0 (by decide)).HeightsFit (headersOn root [0, 0, 0]) := by
    rw [Setup.HeightsFit]
    decide
  rw [eq_true hfit] at hsafe
  exact ⟨rfl, hsafe⟩

/-- At the heights after `INT_MAX` the two phases commit to different headers: one is released that
does not have the bit of the first phase, although its height is committed to. -/
theorem Setup.released_past_int_max :
    (∀ call ∈ twoChains, (setupAt (2 ^ 31 - 1) (by decide)).Continuous call.headers) ∧
      ¬ (setupAt (2 ^ 31 - 1) (by decide)).Safe True
        ((setupAt (2 ^ 31 - 1) (by decide)).play twoChains).2 := by
  refine ⟨by decide +kernel, fun hsafe => ?_⟩
  have hlog : ((setupAt (2 ^ 31 - 1) (by decide)).play twoChains).2 =
      ⟨headersOn root [0, 0, 0], headersOn root [2, 0],
        headersOn root [2]⟩ := by
    decide +kernel
  rw [hlog] at hsafe
  obtain ⟨n, hn, -, -, hagrees⟩ := hsafe.ready 0 (by decide)
  -- the first header of the second phase, against the first of the first
  obtain ⟨p, hp, hbit⟩ := hagrees trivial 0 ((headersOn root [2]).headD root)
    (by rw [getElem?_take_of_lt hn]; rfl) (by decide +kernel) (by
      rintro ⟨m, hm, hwork⟩
      obtain rfl : m = 0 := by
        rw [length_take] at hm
        omega
      rw [take_take, take_take, show min (min (0 + 1) (0 + 1)) n = 1 by omega] at hwork
      revert hwork
      decide +kernel)
  obtain rfl : (headersOn root [0, 0, 0]).headD root = p := Option.some.inj hp
  revert hbit
  decide +kernel

end Soveroot.Headers
