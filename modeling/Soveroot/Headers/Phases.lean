import Soveroot.Headers.Sync

/-!
# What the two phases know

For the headers received so far, each phase keeps the end of the chain, its height, its work and the
committed bits (`InPresync`, `InRedownload`). The lemmas say when a header is taken, from whatever
peer, and that the invariant then holds of one header more. The heights of the first phase go
through an `int` (`HeightsFit`).
-/

namespace Soveroot.Headers

open Py Loop List

namespace Setup

variable (cfg : Setup)

/-! ## Chains -/

/-- Each header names the hash of the one before it, the first the hash `prev`. -/
def Linked : Digest → List CBlockHeader → Prop
  | _, [] => True
  | prev, h :: hs => h.hashPrevBlock = prev ∧ Linked (cfg.hashOf h) hs

instance decidableLinked : (prev : Digest) → (hs : List CBlockHeader) →
    Decidable (cfg.Linked prev hs)
  | _, [] => inferInstanceAs (Decidable True)
  | prev, h :: hs =>
    have := decidableLinked (cfg.hashOf h) hs
    inferInstanceAs (Decidable (h.hashPrevBlock = prev ∧ cfg.Linked (cfg.hashOf h) hs))

/-- The hash at the end of a chain on `prev`. -/
def endHash (prev : Digest) (hs : List CBlockHeader) : Digest :=
  hs.foldl (fun _ h => cfg.hashOf h) prev

def tip (hs : List CBlockHeader) : CBlockHeader := hs.getLast?.getD cfg.chainStart.header

def workOf (hs : List CBlockHeader) : BitVec 256 :=
  hs.foldl (fun work h => work + getBitsProof h.nBits) cfg.chainStart.chainWork

/-- The bits committed to, for headers from a height on. -/
def bitsFrom : Int → List CBlockHeader → List Bool
  | _, [] => []
  | height, h :: hs =>
    if cfg.isCommitted height then cfg.commitment h :: bitsFrom (height + 1) hs
    else bitsFrom (height + 1) hs

/-- The bits committed to by a chain on the start of the sync. -/
def bits (hs : List CBlockHeader) : List Bool := cfg.bitsFrom (cfg.chainStart.height + 1) hs

/-- The headers before the one that brings the work to the minimum. -/
def below : BitVec 256 → List CBlockHeader → List CBlockHeader
  | _, [] => []
  | work, h :: hs =>
    if work + getBitsProof h.nBits ≥ cfg.minimumRequiredWork then []
    else h :: below (work + getBitsProof h.nBits) hs

variable {cfg} {prev : Digest} {hs hs' : List CBlockHeader} {h : CBlockHeader}

@[simp] theorem endHash_nil : cfg.endHash prev [] = prev := rfl

@[simp] theorem endHash_concat : cfg.endHash prev (hs ++ [h]) = cfg.hashOf h := by
  simp [endHash]

theorem endHash_append : cfg.endHash prev (hs ++ hs') = cfg.endHash (cfg.endHash prev hs) hs' :=
  foldl_append

@[simp] theorem tip_concat : cfg.tip (hs ++ [h]) = h := by simp [tip]

theorem endHash_start (hs : List CBlockHeader) :
    cfg.endHash cfg.startHash hs = cfg.hashOf (cfg.tip hs) := by
  induction hs using reverseRecOn with
  | nil => rfl
  | append_singleton hs h _ => rw [endHash_concat, tip_concat]

theorem linked_append :
    cfg.Linked prev (hs ++ hs') ↔ cfg.Linked prev hs ∧ cfg.Linked (cfg.endHash prev hs) hs' := by
  induction hs generalizing prev with
  | nil => simp [Linked]
  | cons h hs ih => rw [cons_append, Linked, ih, Linked, and_assoc]; rfl

theorem Linked.concat (hlinked : cfg.Linked prev hs) (hh : h.hashPrevBlock = cfg.endHash prev hs) :
    cfg.Linked prev (hs ++ [h]) := linked_append.2 ⟨hlinked, hh, trivial⟩

@[simp] theorem workOf_nil : cfg.workOf [] = cfg.chainStart.chainWork := rfl

@[simp] theorem workOf_concat : cfg.workOf (hs ++ [h]) = cfg.workOf hs + getBitsProof h.nBits := by
  simp [workOf]

theorem bitsFrom_append (height : Int) :
    cfg.bitsFrom height (hs ++ hs') = cfg.bitsFrom height hs ++
      cfg.bitsFrom (height + hs.length) hs' := by
  induction hs generalizing height with
  | nil => simp [bitsFrom]
  | cons h hs ih =>
    have hnext : height + 1 + (hs.length : Int) = height + ((h :: hs).length : Int) := by
      rw [length_cons]
      omega
    rw [cons_append, bitsFrom, ih, hnext, bitsFrom]
    split_ifs <;> rfl

theorem bits_append :
    cfg.bits (hs ++ hs') = cfg.bits hs ++
      cfg.bitsFrom (cfg.chainStart.height + 1 + hs.length) hs' :=
  bitsFrom_append _

theorem bits_concat :
    cfg.bits (hs ++ [h]) = cfg.bits hs ++
      if cfg.isCommitted (cfg.chainStart.height + hs.length + 1) then
      [cfg.commitment h] else [] := by
  have hnext : (cfg.chainStart.height : Int) + 1 + hs.length =
      cfg.chainStart.height + hs.length + 1 := by
    omega
  rw [bits_append, hnext, bitsFrom, bitsFrom]

/-- When the bits of one chain start with those of another, the headers agree in their bits at every
committed height of the shorter one. -/
theorem commitment_eq_of_bitsFrom {rest : List Bool} {height : Int} {P R : List CBlockHeader}
    (h : cfg.bitsFrom height R ++ rest = cfg.bitsFrom height P) {j : Nat} {r : CBlockHeader}
    (hr : R[j]? = some r) (hj : cfg.isCommitted (height + j) = true) :
    ∃ p, P[j]? = some p ∧ cfg.commitment p = cfg.commitment r := by
  induction R generalizing height P rest j with
  | nil => simp at hr
  | cons x R ih =>
    cases j with
    | zero =>
      obtain rfl : x = r := by simpa using hr
      rw [Nat.cast_zero, Int.add_zero] at hj
      rw [bitsFrom, if_pos hj] at h
      -- the other chain has a bit at this height, so it has a header here
      cases P with
      | nil => simp [bitsFrom] at h
      | cons y P =>
        rw [bitsFrom, if_pos hj] at h
        exact ⟨y, rfl, (List.cons.inj h).1.symm⟩
    | succ j =>
      have hnext : height + 1 + (j : Int) = height + ((j + 1 : Nat) : Int) := by omega
      cases P with
      | nil =>
        -- no bit is left, so no later height of the first chain is committed
        have hnil : cfg.bitsFrom (height + 1) R ++ [] = cfg.bitsFrom (height + 1) [] := by
          have := append_eq_nil_iff.1 h
          simp only [bitsFrom] at this ⊢
          split_ifs at this <;> simp_all
        obtain ⟨p, hp, -⟩ := ih hnil hr (by rwa [hnext])
        simp at hp
      | cons y P =>
        have htail : cfg.bitsFrom (height + 1) R ++ rest = cfg.bitsFrom (height + 1) P := by
          rw [bitsFrom, bitsFrom] at h
          split_ifs at h
          · exact (List.cons.inj h).2
          · exact h
        simpa using ih htail hr (by rwa [hnext])

theorem below_append (work : BitVec 256) :
    cfg.below work (hs ++ hs') =
      if cfg.below work hs = hs then
        hs ++ cfg.below (hs.foldl (fun work h => work + getBitsProof h.nBits) work) hs'
      else cfg.below work hs := by
  induction hs generalizing work with
  | nil => simp [below]
  | cons h hs ih =>
    rw [cons_append, below, below]
    split_ifs with hreach heq heq
    · simp at heq
    · rfl
    · rw [ih, if_pos (List.cons.inj heq).2]
      rfl
    · rw [ih, if_neg fun htail => heq (by rw [htail])]

theorem below_initial (work : BitVec 256) (hs : List CBlockHeader) : cfg.below work hs <+: hs := by
  induction hs generalizing work with
  | nil => exact prefix_rfl
  | cons h hs ih =>
    rw [below]
    split_ifs
    · exact nil_prefix
    · exact cons_prefix_cons.2 ⟨rfl, ih _⟩

variable (cfg) in
/-- The headers of a chain on the start before the one that brings the work to the minimum. -/
def unproven (hs : List CBlockHeader) : List CBlockHeader := cfg.below cfg.chainStart.chainWork hs

theorem unproven_append :
    cfg.unproven (hs ++ hs') =
      if cfg.unproven hs = hs then hs ++ cfg.below (cfg.workOf hs) hs' else cfg.unproven hs :=
  below_append _

theorem unproven_concat (hun : cfg.unproven hs = hs) :
    cfg.unproven (hs ++ [h]) =
      if cfg.workOf hs + getBitsProof h.nBits ≥ cfg.minimumRequiredWork then hs else hs ++ [h] := by
  rw [unproven_append, if_pos hun, below]
  split_ifs
  · rw [append_nil]
  · rfl

theorem unproven_concat_of_ne (hun : cfg.unproven hs ≠ hs) :
    cfg.unproven (hs ++ [h]) = cfg.unproven hs := by
  rw [unproven_append, if_neg hun]

/-! ## The first phase -/

variable (cfg) in
/-- The heights of a chain on the start are in the range of an `int`. -/
def HeightsFit (hs : List CBlockHeader) : Prop := cfg.chainStart.height + hs.length < 2 ^ 31

variable (cfg) in
/-- What the first phase has counted after the headers `P`. -/
structure Counted (s : SyncState) (P : List CBlockHeader) : Prop where
  height : s.currentHeight = cfg.chainStart.height + P.length
  commitments : s.headerCommitments = cfg.bits P
  bound : (cfg.bits P).length ≤ cfg.maxCommitments

variable (cfg) in
/-- The state of the first phase after the headers `P`. -/
structure InPresync (s : SyncState) (P : List CBlockHeader) : Prop where
  state : s.downloadState = .presync
  linked : cfg.Linked cfg.startHash P
  last : s.lastHeaderReceived = cfg.tip P
  work : s.currentChainWork = cfg.workOf P
  processAll : s.processAllRemainingHeaders = false
  counted : cfg.HeightsFit P → cfg.Counted s P

variable {s s' : SyncState} {P : List CBlockHeader}

theorem inPresync_initial : cfg.InPresync cfg.initial [] where
  state := rfl
  linked := trivial
  last := rfl
  work := rfl
  processAll := rfl
  counted _ := ⟨by simp [initial], rfl, Nat.zero_le _⟩

theorem HeightsFit.init (hfit : cfg.HeightsFit (hs ++ hs')) : cfg.HeightsFit hs := by
  rw [HeightsFit, length_append] at hfit
  rw [HeightsFit]
  omega

section

variable (hp : cfg.InPresync s P) (hfit : cfg.HeightsFit (P ++ [h]))
include hp hfit

theorem InPresync.nextHeight :
    (s.currentHeight + 1).bmod (2 ^ 32) = cfg.chainStart.height + P.length + 1 := by
  rw [(hp.counted hfit.init).height]
  rw [HeightsFit, length_append, length_singleton] at hfit
  exact Int.bmod_eq_of_le (by omega) (by omega)

theorem InPresync.step_eq :
    cfg.validateAndProcessSingleHeader s h =
      if cfg.consensus.permittedDifficultyTransition (cfg.chainStart.height + P.length + 1)
          (cfg.tip P).nBits h.nBits = true then
        if (cfg.bits (P ++ [h])).length ≤ cfg.maxCommitments then
          (true, { s with
            headerCommitments := cfg.bits (P ++ [h])
            currentChainWork := s.currentChainWork + getBitsProof h.nBits
            lastHeaderReceived := h
            currentHeight := cfg.chainStart.height + P.length + 1 })
        else (false, { s with headerCommitments := cfg.bits (P ++ [h]) })
      else (false, s) := by
  have hbits : cfg.bits (P ++ [h]) = _ := bits_concat
  simp only [validateAndProcessSingleHeader, hp.state, ne_eq, not_true_eq_false, if_false,
    hp.nextHeight hfit, hp.last, Bool.not_eq_true']
  cases cfg.consensus.permittedDifficultyTransition (cfg.chainStart.height + P.length + 1)
      (cfg.tip P).nBits h.nBits with
  | false => simp
  | true =>
    by_cases hc : cfg.isCommitted (cfg.chainStart.height + P.length + 1) = true
    · rw [if_pos hc] at hbits
      simp only [hc, (hp.counted hfit.init).commitments, ← hbits, if_true, true_and, reduceCtorEq,
        if_false]
      by_cases hmax : (cfg.bits (P ++ [h])).length ≤ cfg.maxCommitments
      · rw [if_pos hmax, if_neg (Nat.not_lt.2 hmax)]
      · rw [if_neg hmax, if_pos (Nat.lt_of_not_le hmax)]
    · rw [if_neg hc, append_nil] at hbits
      have hmax : (cfg.bits (P ++ [h])).length ≤ cfg.maxCommitments := by
        rw [hbits]
        exact (hp.counted hfit.init).bound
      rw [if_pos rfl, if_pos hmax, hbits, ← (hp.counted hfit.init).commitments]
      simp only [hc, if_false, false_and, reduceCtorEq, hp.state]

end

variable (cfg) in
/-- What is asked of the next header of the first phase. -/
structure PresyncTakes (P : List CBlockHeader) (h : CBlockHeader) : Prop where
  permitted : cfg.consensus.permittedDifficultyTransition (cfg.chainStart.height + P.length + 1)
    (cfg.tip P).nBits h.nBits = true
  bound : (cfg.bits (P ++ [h])).length ≤ cfg.maxCommitments

theorem InPresync.takes (hp : cfg.InPresync s P) (hfit : cfg.HeightsFit (P ++ [h]))
    (htakes : cfg.PresyncTakes P h) :
    ∃ s', cfg.validateAndProcessSingleHeader s h = (true, s') := by
  rw [hp.step_eq hfit, if_pos htakes.permitted, if_pos htakes.bound]
  exact ⟨_, rfl⟩

theorem presync_step_taken (h' : cfg.validateAndProcessSingleHeader s h = (true, s')) :
    s.downloadState = .presync ∧ s'.downloadState = s.downloadState ∧ s'.lastHeaderReceived = h ∧
      s'.currentChainWork = s.currentChainWork + getBitsProof h.nBits ∧
      s'.processAllRemainingHeaders = s.processAllRemainingHeaders := by
  rw [validateAndProcessSingleHeader] at h'
  dsimp only at h'
  split_ifs at h' with hstate <;> obtain ⟨htaken, rfl⟩ := Prod.mk.inj h' <;>
    first
    | exact absurd htaken Bool.false_ne_true
    | exact ⟨not_not.1 hstate, rfl, rfl, rfl, rfl⟩

theorem InPresync.taken (hp : cfg.InPresync s P)
    (hlink : h.hashPrevBlock = cfg.endHash cfg.startHash P)
    (h' : cfg.validateAndProcessSingleHeader s h = (true, s')) : cfg.InPresync s' (P ++ [h]) := by
  obtain ⟨hstate, hstate', hlast, hwork, hall⟩ := presync_step_taken h'
  exact
    { state := hstate'.trans hstate
      linked := hp.linked.concat hlink
      last := hlast.trans tip_concat.symm
      work := by rw [hwork, workOf_concat, hp.work]
      processAll := hall.trans hp.processAll
      counted := fun hfit => by
        rw [hp.step_eq hfit] at h'
        split_ifs at h' with hperm hbound
        · obtain rfl := (Prod.mk.inj h').2
          exact ⟨by rw [length_append, length_singleton]; push_cast; omega, rfl, hbound⟩
        · simp at h'
        · simp at h' }

/-! ## The second phase -/

variable (cfg) in
/-- The state of the second phase after the headers `R`, when the first phase has seen `P`; of `R`
the headers `released` are given away and the headers `held` are in the buffer. -/
structure InRedownload (s : SyncState) (P released held : List CBlockHeader) : Prop where
  state : s.downloadState = .redownload
  proven : cfg.Linked cfg.startHash P ∧ cfg.minimumRequiredWork ≤ cfg.workOf P
  linked : cfg.Linked cfg.startHash (released ++ held)
  height : s.redownloadBufferLastHeight = cfg.chainStart.height + (released ++ held).length
  lastHash : s.redownloadBufferLastHash = cfg.endHash cfg.startHash (released ++ held)
  work : s.redownloadChainWork = cfg.workOf (released ++ held)
  buffer : s.redownloadedHeaders = held.map CBlockHeader.compress
  firstPrevHash : s.redownloadBufferFirstPrevHash = cfg.endHash cfg.startHash released
  processAll :
    s.processAllRemainingHeaders = decide (cfg.unproven (released ++ held) ≠ released ++ held)
  commitments : cfg.HeightsFit P →
    cfg.bits (cfg.unproven (released ++ held)) ++ s.headerCommitments = cfg.bits P

theorem InPresync.startRedownload (hs : cfg.InPresync s P)
    (hwork : cfg.minimumRequiredWork ≤ s.currentChainWork) :
    cfg.InRedownload (cfg.startRedownload s) P [] [] where
  state := rfl
  proven := ⟨hs.linked, by rwa [← hs.work]⟩
  linked := trivial
  height := by simp [Setup.startRedownload]
  lastHash := rfl
  work := rfl
  buffer := rfl
  firstPrevHash := rfl
  processAll := by simpa [Setup.startRedownload, unproven, below] using hs.processAll
  commitments hfit := (hs.counted hfit).commitments

theorem unproven_concat_ne_iff (hs : List CBlockHeader) (h : CBlockHeader) :
    cfg.unproven (hs ++ [h]) ≠ hs ++ [h] ↔
      cfg.unproven hs ≠ hs ∨ cfg.workOf hs + getBitsProof h.nBits ≥ cfg.minimumRequiredWork := by
  by_cases hun : cfg.unproven hs = hs
  · rw [unproven_concat hun]
    split_ifs with hreach
    · simp [hreach]
    · simp [hun, hreach]
  · rw [unproven_concat_of_ne hun]
    have hlength : (cfg.unproven hs).length ≤ hs.length := (below_initial _ hs).length_le
    refine iff_of_true (fun heq => ?_) (.inl hun)
    have := congrArg length heq
    rw [length_append, length_singleton] at this
    exact absurd hlength (by rw [this]; omega)

section Check

variable {R : List CBlockHeader} {height : Int}

/-- The comparison of a commitment keeps what is left of the bits of the first phase in step with
the headers redownloaded. -/
theorem checkCommitment_true
    (hflag : s.processAllRemainingHeaders = decide (cfg.unproven (R ++ [h]) ≠ R ++ [h]))
    (hheight : height = cfg.chainStart.height + R.length + 1)
    (hcheck : cfg.checkCommitment s height h = (true, s')) :
    ∃ commitments, s' = { s with headerCommitments := commitments } ∧
      (cfg.bits (cfg.unproven R) ++ s.headerCommitments = cfg.bits P →
        cfg.bits (cfg.unproven (R ++ [h])) ++ commitments = cfg.bits P) := by
  rw [checkCommitment] at hcheck
  by_cases hun : cfg.unproven (R ++ [h]) = R ++ [h]
  · -- the header is before the minimum, and so are all before it
    have hR : cfg.unproven R = R := by
      by_contra hne
      exact (unproven_concat_ne_iff R h).2 (.inl hne) hun
    rw [hR, hun, bits_concat, ← hheight]
    by_cases hc : cfg.isCommitted height = true
    · rw [if_pos (by simp [hflag, hun, hc])] at hcheck
      rw [if_pos hc]
      split at hcheck
      case h_1 hnil => simp at hcheck
      case h_2 expected rest hcons =>
        obtain ⟨heq, rfl⟩ := Prod.mk.inj hcheck
        refine ⟨rest, rfl, fun hbits => ?_⟩
        rw [← hbits, hcons, ← eq_of_beq heq, append_assoc, singleton_append]
    · rw [if_neg (by simp [hc])] at hcheck
      rw [if_neg hc]
      obtain rfl := (Prod.mk.inj hcheck).2
      exact ⟨_, rfl, fun hbits => by rwa [append_nil]⟩
  · -- nothing is compared any more
    rw [if_neg (by simp [hflag, hun])] at hcheck
    obtain rfl := (Prod.mk.inj hcheck).2
    refine ⟨_, rfl, fun hbits => ?_⟩
    by_cases hR : cfg.unproven R = R
    · have hreach : cfg.workOf R + getBitsProof h.nBits ≥ cfg.minimumRequiredWork :=
        ((unproven_concat_ne_iff R h).1 hun).resolve_left (not_not.2 hR)
      rwa [unproven_concat hR, if_pos hreach, ← hR]
    · rwa [unproven_concat_of_ne hR]

theorem exists_checkCommitment (height : Int) (h : CBlockHeader)
    (hright : s.processAllRemainingHeaders = false → cfg.isCommitted height = true →
      s.headerCommitments.head? = some (cfg.commitment h)) :
    ∃ s', cfg.checkCommitment s height h = (true, s') := by
  rw [checkCommitment]
  split_ifs with hcond
  · rw [Bool.and_eq_true, Bool.not_eq_true'] at hcond
    have hhead := hright hcond.1 hcond.2
    cases hcons : s.headerCommitments with
    | nil => simp [hcons] at hhead
    | cons expected rest =>
      obtain rfl : expected = cfg.commitment h := by simpa [hcons] using hhead
      exact ⟨{ s with headerCommitments := rest }, by simp⟩
  · exact ⟨s, rfl⟩

end Check

section Redownload

variable {released held : List CBlockHeader}

section

variable (hp : cfg.InRedownload s P released held)
include hp

theorem InRedownload.trackWork_processAll (h : CBlockHeader) :
    (cfg.trackWork s h).processAllRemainingHeaders =
      decide (cfg.unproven (released ++ held ++ [h]) ≠ released ++ held ++ [h]) := by
  rw [decide_eq_decide.2 (unproven_concat_ne_iff (released ++ held) h), Bool.decide_or]
  simp only [trackWork, hp.processAll, hp.work]

theorem InRedownload.taken (htaken : cfg.validateAndStoreRedownloadedHeader s h = (true, s')) :
    cfg.InRedownload s' P released (held ++ [h]) := by
  rw [validateAndStoreRedownloadedHeader, if_neg (not_not.2 hp.state)] at htaken
  by_cases hprev : h.hashPrevBlock = s.redownloadBufferLastHash
  swap
  · rw [if_pos hprev] at htaken
    simp at htaken
  rw [if_neg (not_not.2 hprev)] at htaken
  split at htaken
  · simp at htaken
  split at htaken
  · simp at htaken
  · rename_i s₁ hcheck
    obtain rfl := (Prod.mk.inj htaken).2
    obtain ⟨commitments, rfl, hbits⟩ := checkCommitment_true (P := P)
      (hp.trackWork_processAll h) (by rw [hp.height]) hcheck
    have hlength : (released ++ held ++ [h]).length = (released ++ held).length + 1 := length_append
    constructor
    case state => exact hp.state
    case proven => exact hp.proven
    case firstPrevHash => exact hp.firstPrevHash
    case buffer => simp only [storeHeader, trackWork, hp.buffer, map_append, map_singleton]
    all_goals rw [← append_assoc]
    case linked => exact hp.linked.concat (by rw [hprev, hp.lastHash])
    case height => simp only [storeHeader, hp.height, hlength]; push_cast; omega
    case lastHash => exact endHash_concat.symm
    case work => rw [workOf_concat, ← hp.work]; rfl
    case processAll => exact hp.trackWork_processAll h
    case commitments => exact fun hfit => hbits (hp.commitments hfit)

/-- The second phase takes a header that connects, with a permitted difficulty and the bit that was
committed to. -/
theorem InRedownload.takes (hprev : h.hashPrevBlock = cfg.endHash cfg.startHash (released ++ held))
    (hperm : cfg.consensus.permittedDifficultyTransition
      (cfg.chainStart.height + (released ++ held).length + 1) (cfg.previousBits s) h.nBits = true)
    (hbit : cfg.unproven (released ++ held ++ [h]) = released ++ held ++ [h] →
      cfg.isCommitted (cfg.chainStart.height + (released ++ held).length + 1) = true →
      s.headerCommitments.head? = some (cfg.commitment h)) :
    ∃ s', cfg.validateAndStoreRedownloadedHeader s h = (true, s') := by
  have hright : (cfg.trackWork s h).processAllRemainingHeaders = false →
      cfg.isCommitted (s.redownloadBufferLastHeight + 1) = true →
      s.headerCommitments.head? = some (cfg.commitment h) := by
    intro hflag hc
    rw [hp.trackWork_processAll, decide_eq_false_iff_not, not_not] at hflag
    rw [hp.height] at hc
    exact hbit hflag hc
  obtain ⟨s₁, hcheck⟩ := exists_checkCommitment _ h hright
  rw [validateAndStoreRedownloadedHeader, if_neg (not_not.2 hp.state)]
  rw [if_neg (not_not.2 (hprev.trans hp.lastHash.symm)), hp.height, hperm]
  rw [hp.height] at hcheck
  rw [hcheck]
  exact ⟨_, rfl⟩

end

variable (cfg) in
/-- How many of the headers in the buffer are released. -/
def readyCount (processAll : Bool) (length : Nat) : Nat :=
  if processAll then length else length - cfg.redownloadBufferSize

theorem popHeaders_eq (s : SyncState) {H : List CBlockHeader} (hlinked : cfg.Linked prev H) :
    cfg.popHeaders s (H.map CBlockHeader.compress) prev =
      (H.take (cfg.readyCount s.processAllRemainingHeaders H.length),
        { s with
          redownloadedHeaders :=
            (H.drop (cfg.readyCount s.processAllRemainingHeaders H.length)).map
              CBlockHeader.compress
          redownloadBufferFirstPrevHash :=
            cfg.endHash prev
              (H.take (cfg.readyCount s.processAllRemainingHeaders H.length)) }) := by
  induction H generalizing prev with
  | nil => simp [popHeaders]
  | cons h H ih =>
    obtain ⟨rfl, hlinked⟩ := hlinked
    rw [map_cons, popHeaders, CBlockHeader.getFullHeader_compress]
    dsimp only
    rw [ih hlinked, length_map]
    by_cases hready : H.length + 1 > cfg.redownloadBufferSize ∨ s.processAllRemainingHeaders = true
    · have hcount : cfg.readyCount s.processAllRemainingHeaders (h :: H).length =
          cfg.readyCount s.processAllRemainingHeaders H.length + 1 := by
        simp only [readyCount, length_cons]
        split_ifs with hall
        · rfl
        · have := hready.resolve_right hall
          omega
      rw [if_pos hready, hcount]
      rfl
    · have hcount : cfg.readyCount s.processAllRemainingHeaders (h :: H).length = 0 := by
        rw [not_or] at hready
        rw [readyCount, if_neg hready.2, length_cons]
        omega
      rw [if_neg hready, hcount]
      rfl

/-- The headers that are ready are the first of the buffer, as they were received. -/
theorem InRedownload.popped (hs : cfg.InRedownload s P released held) :
    ∃ s', cfg.popHeadersReadyForAcceptance s =
        (held.take (cfg.readyCount s.processAllRemainingHeaders held.length), s') ∧
      s'.processAllRemainingHeaders = s.processAllRemainingHeaders ∧
      cfg.InRedownload s'
        P (released ++ held.take (cfg.readyCount s.processAllRemainingHeaders held.length))
        (held.drop (cfg.readyCount s.processAllRemainingHeaders held.length)) := by
  rw [popHeadersReadyForAcceptance, if_neg (not_not.2 hs.state), hs.buffer, hs.firstPrevHash,
    popHeaders_eq s (linked_append.1 hs.linked).2]
  refine ⟨_, rfl, rfl, ?_⟩
  constructor
  case state => exact hs.state
  case proven => exact hs.proven
  case buffer => rfl
  case firstPrevHash => exact endHash_append.symm
  all_goals rw [append_assoc, take_append_drop]
  case linked => exact hs.linked
  case height => exact hs.height
  case lastHash => exact hs.lastHash
  case work => exact hs.work
  case processAll => exact hs.processAll
  case commitments => exact hs.commitments

end Redownload

end Setup

end Soveroot.Headers
