import Soveroot.Headers.Safety

/-!
# An honest peer is accepted

A peer that serves one chain of permitted difficulty and sufficient work, in any messages, is asked
for more until the minimum is reached again, and all headers up to that point are released. The two
phases cut the chain at different places, but the headers before the minimum in the second phase are
among those of the first.
-/

namespace Soveroot.Headers

open Py Loop List

namespace Setup

variable (cfg : Setup)

/-- Every difficulty is permitted after the one before it. -/
def PermittedFrom : Int → UInt32 → List CBlockHeader → Prop
  | _, _, [] => True
  | height, bits, h :: hs =>
    cfg.consensus.permittedDifficultyTransition height bits h.nBits = true ∧
      PermittedFrom (height + 1) h.nBits hs

instance decidablePermittedFrom : (height : Int) → (bits : UInt32) → (hs : List CBlockHeader) →
    Decidable (cfg.PermittedFrom height bits hs)
  | _, _, [] => inferInstanceAs (Decidable True)
  | height, bits, h :: hs =>
    have := decidablePermittedFrom (height + 1) h.nBits hs
    inferInstanceAs
      (Decidable (cfg.consensus.permittedDifficultyTransition height bits h.nBits = true ∧
      cfg.PermittedFrom (height + 1) h.nBits hs))

def Permitted (hs : List CBlockHeader) : Prop :=
  cfg.PermittedFrom (cfg.chainStart.height + 1) cfg.chainStart.header.nBits hs

instance (hs : List CBlockHeader) : Decidable (cfg.Permitted hs) :=
  inferInstanceAs (Decidable (cfg.PermittedFrom _ _ hs))

def totalWork (hs : List CBlockHeader) : Nat :=
  cfg.chainStart.chainWork.toNat + (hs.map fun h => (getBitsProof h.nBits).toNat).sum

def Enough (hs : List CBlockHeader) : Prop := cfg.minimumRequiredWork.toNat ≤ cfg.totalWork hs

instance (hs : List CBlockHeader) : Decidable (cfg.Enough hs) := inferInstanceAs (Decidable (_ ≤ _))

/-- The messages of a peer that serves a chain: none is empty, and all are full but one that brings
the work to the minimum. -/
structure Serves (calls : List Call) (chain : List CBlockHeader) : Prop where
  headers : calls.flatMap Call.headers = chain
  nonempty : ∀ call ∈ calls, call.headers ≠ []
  full : ∀ before call after, calls = before ++ call :: after →
    ¬ cfg.Enough (before.flatMap Call.headers ++ call.headers) → call.full = true

/-- The messages given to a sync while it is in a phase, with what it answers. -/
def feed (phase : DownloadState) : SyncState → List Call → List ProcessingResult × SyncState
  | s, [] => ([], s)
  | s, call :: calls =>
    if s.downloadState = phase then
      let (ret, s) := cfg.processNextHeaders s call.headers call.full
      let (rets, s) := feed phase s calls
      (ret :: rets, s)
    else ([], s)

variable {cfg} {s : SyncState} {chain ext hs hs' P R released held : List CBlockHeader}
    {h : CBlockHeader}

variable {height : Int} {bits : UInt32}

theorem PermittedFrom.get (hperm : cfg.PermittedFrom height bits (hs ++ h :: hs')) :
    cfg.consensus.permittedDifficultyTransition (height + hs.length)
      (hs.getLast?.elim bits CBlockHeader.nBits) h.nBits = true := by
  induction hs generalizing height bits with
  | nil => simpa using hperm.1
  | cons x hs ih =>
    have hnext : height + 1 + (hs.length : Int) = height + ((x :: hs).length : Int) := by
      rw [length_cons]
      omega
    have := ih hperm.2
    rw [hnext] at this
    rw [getLast?_cons]
    cases hlast : hs.getLast? <;> simpa [hlast] using this

theorem PermittedFrom.left (hperm : cfg.PermittedFrom height bits (hs ++ hs')) :
    cfg.PermittedFrom height bits hs := by
  induction hs generalizing height bits with
  | nil => trivial
  | cons h hs ih => exact ⟨hperm.1, ih hperm.2⟩

theorem Permitted.get (hperm : cfg.Permitted (hs ++ h :: hs')) :
    cfg.consensus.permittedDifficultyTransition (cfg.chainStart.height + hs.length + 1)
      (cfg.tip hs).nBits h.nBits = true := by
  have := PermittedFrom.get hperm
  have hheight : (cfg.chainStart.height : Int) + 1 + hs.length =
      cfg.chainStart.height + hs.length + 1 := by
    omega
  rw [hheight] at this
  convert this using 2
  rw [tip]
  cases hs.getLast? <;> rfl

theorem totalWork_append_le (hs hs' : List CBlockHeader) :
    cfg.totalWork hs ≤ cfg.totalWork (hs ++ hs') := by
  simp only [totalWork, map_append, sum_append]
  omega

theorem Enough.append (henough : cfg.Enough hs) (hs' : List CBlockHeader) :
    cfg.Enough (hs ++ hs') :=
  henough.trans (totalWork_append_le hs hs')

theorem toNat_workOf (hsmall : cfg.totalWork hs < 2 ^ 256) :
    (cfg.workOf hs).toNat = cfg.totalWork hs := by
  induction hs using reverseRecOn with
  | nil => simp [totalWork]
  | append_singleton hs h ih =>
    have htotal : cfg.totalWork (hs ++ [h]) = cfg.totalWork hs + (getBitsProof h.nBits).toNat := by
      simp [totalWork, Nat.add_assoc]
    rw [htotal] at hsmall ⊢
    rw [workOf_concat, BitVec.toNat_add, ih (by omega), Nat.mod_eq_of_lt hsmall]

theorem le_workOf_iff (hsmall : cfg.totalWork hs < 2 ^ 256) :
    cfg.minimumRequiredWork ≤ cfg.workOf hs ↔ cfg.Enough hs := by
  rw [BitVec.le_def, toNat_workOf hsmall, Enough]

theorem Enough.of_initial (henough : cfg.Enough hs) (hinitial : hs <+: hs') : cfg.Enough hs' := by
  obtain ⟨rest, rfl⟩ := hinitial
  exact henough.append rest

theorem totalWork_lt_of_initial (hsmall : cfg.totalWork hs' < 2 ^ 256) (hinitial : hs <+: hs') :
    cfg.totalWork hs < 2 ^ 256 := by
  obtain ⟨rest, rfl⟩ := hinitial
  exact (totalWork_append_le hs rest).trans_lt hsmall

theorem reaches_of_le_workOf (hne : hs ≠ []) (hwork : cfg.minimumRequiredWork ≤ cfg.workOf hs) :
    cfg.Reaches hs := by
  have hpos := length_pos_iff.2 hne
  exact ⟨hs.length - 1, by omega, by rwa [Nat.sub_add_cancel hpos, take_length]⟩

theorem Reaches.of_initial (hreaches : cfg.Reaches hs) (hinitial : hs <+: hs') :
    cfg.Reaches hs' := by
  obtain ⟨rest, rfl⟩ := hinitial
  obtain ⟨n, hn, hwork⟩ := hreaches
  refine ⟨n, hn.trans_le (by simp), ?_⟩
  rwa [take_append_of_le_length hn]

section Chain

variable (hsmall : cfg.totalWork chain < 2 ^ 256) (henough : cfg.Enough chain) (hchain : chain ≠ [])

include hsmall henough hchain

/-- A chain reaches the minimum when its work is enough, also when it goes on after that. -/
theorem reaches_iff (hR : R <+: chain ++ ext) (hne : R ≠ []) : cfg.Reaches R ↔ cfg.Enough R := by
  constructor
  · rintro ⟨n, -, hwork⟩
    have htake : R.take (n + 1) <+: R := take_prefix _ _
    rcases prefix_or_prefix_of_prefix (htake.trans hR) (prefix_append chain ext) with hle | hge
    · exact ((le_workOf_iff (totalWork_lt_of_initial hsmall hle)).1 hwork).of_initial htake
    · exact henough.of_initial (hge.trans htake)
  · intro hR'
    rcases prefix_or_prefix_of_prefix hR (prefix_append chain ext) with hle | hge
    · exact reaches_of_le_workOf hne ((le_workOf_iff (totalWork_lt_of_initial hsmall hle)).2 hR')
    · exact (reaches_of_le_workOf hchain ((le_workOf_iff hsmall).2 henough)).of_initial hge

end Chain

theorem HeightsFit.of_initial (hfit : cfg.HeightsFit hs') (hinitial : hs <+: hs') :
    cfg.HeightsFit hs := by
  obtain ⟨rest, rfl⟩ := hinitial
  exact hfit.init

/-! ## The first phase -/

theorem Linked.get {prev : Digest} (hlinked : cfg.Linked prev (hs ++ h :: hs')) :
    h.hashPrevBlock = cfg.endHash prev hs := (linked_append.1 hlinked).2.1

theorem length_bits_append_le (hs hs' : List CBlockHeader) :
    (cfg.bits hs).length ≤ (cfg.bits (hs ++ hs')).length := by
  rw [bits_append, length_append]
  exact Nat.le_add_right _ _

variable {headers : List CBlockHeader}

theorem InPresync.stores (hs : cfg.InPresync s P) {rest : List CBlockHeader}
    (hlinked : cfg.Linked cfg.startHash (P ++ headers ++ rest))
    (hperm : cfg.Permitted (P ++ headers ++ rest))
    (hmax : (cfg.bits (P ++ headers ++ rest)).length ≤ cfg.maxCommitments)
    (hfit : cfg.HeightsFit (P ++ headers)) (hne : headers ≠ []) :
    ∃ s₁, cfg.InPresync s₁ (P ++ headers) ∧ cfg.validateAndStoreHeadersCommitments s headers =
      (true, if s₁.currentChainWork ≥ cfg.minimumRequiredWork then
        cfg.startRedownload s₁ else s₁) := by
  obtain ⟨s₁, hloop, -, hs₁⟩ :
    ∃ s₁, untilRefused cfg.validateAndProcessSingleHeader headers s = (true, s₁) ∧
      headers = [] ++ headers ++ [] ∧ cfg.InPresync s₁ (P ++ ([] ++ headers)) := by
    refine untilRefused_total (fun done todo s => headers = done ++ todo ∧
      cfg.InPresync s (P ++ done))
      ?_ [] ⟨rfl, by rwa [append_nil]⟩
    rintro done a todo s ⟨rfl, hs⟩
    have hsplit : P ++ (done ++ a :: todo) ++ rest = P ++ done ++ a :: (todo ++ rest) := by simp
    rw [hsplit] at hlinked hperm hmax
    have hfit' : cfg.HeightsFit (P ++ done ++ [a]) := by
      rw [append_cons, ← append_assoc, ← append_assoc] at hfit
      exact hfit.init
    have hbits : (cfg.bits (P ++ done ++ [a])).length ≤ cfg.maxCommitments := by
      refine (length_bits_append_le _ (todo ++ rest)).trans ?_
      rwa [append_assoc (P ++ done), singleton_append]
    obtain ⟨s', hstep⟩ := hs.takes hfit' ⟨hperm.get, hbits⟩
    refine ⟨s', hstep, by simp, ?_⟩
    rw [← append_assoc]
    exact hs.taken hlinked.get hstep
  refine ⟨s₁, by simpa using hs₁, ?_⟩
  cases headers with
  | nil => exact absurd rfl hne
  | cons first tail =>
    rw [append_assoc] at hlinked
    rw [validateAndStoreHeadersCommitments, if_neg (not_not.2 hs.state), hs.last, ← endHash_start,
      if_neg (not_not.2 hlinked.get), hloop]

theorem feed_of_ne {phase : DownloadState} (h : s.downloadState ≠ phase) (calls : List Call) :
    cfg.feed phase s calls = ([], s) := by
  cases calls with
  | nil => rfl
  | cons call calls => exact if_neg h

theorem processNextHeaders_presync (full : Bool) {s' : SyncState}
    (hstate : s.downloadState = .presync) (hne : headers ≠ [])
    (hstore : cfg.validateAndStoreHeadersCommitments s headers = (true, s'))
    (hmore : full = true ∨ s'.downloadState = .redownload) :
    cfg.processNextHeaders s headers full = (⟨[], true, true⟩, s') := by
  have hrequest : (full || s'.downloadState == .redownload) = true := by
    rcases hmore with rfl | hstate'
    · rfl
    · rw [hstate']
      simp
  simp only [processNextHeaders, if_neg hne, hstate, processPresync, hstore, hrequest,
    Bool.and_self, if_true]

variable {call : Call} {calls : List Call}

theorem full_of_cons {Done : List CBlockHeader → Prop}
    (hfull : ∀ before c after, call :: calls = before ++ c :: after →
      ¬ Done (P ++ before.flatMap Call.headers ++ c.headers) → c.full = true) :
    ∀ before c after, calls = before ++ c :: after →
      ¬ Done (P ++ call.headers ++ before.flatMap Call.headers ++ c.headers) → c.full = true := by
  intro before c after hsplit hnot
  refine hfull (call :: before) c after (by rw [hsplit]; rfl) ?_
  simpa [append_assoc] using hnot

theorem feed_presync (hsmall : cfg.totalWork chain < 2 ^ 256) (henough : cfg.Enough chain)
    (hlinked : cfg.Linked cfg.startHash chain) (hperm : cfg.Permitted chain)
    (hmax : (cfg.bits chain).length ≤ cfg.maxCommitments)
    (hfit : cfg.HeightsFit chain) (hs : cfg.InPresync s P)
    (hcalls : P ++ calls.flatMap Call.headers = chain) (hne : calls ≠ [])
    (hnonempty : ∀ call ∈ calls, call.headers ≠ [])
    (hfull : ∀ before call after, calls = before ++ call :: after →
      ¬ cfg.Enough (P ++ before.flatMap Call.headers ++ call.headers) → call.full = true) :
    ∃ rets s' P', cfg.feed .presync s calls = (rets, s') ∧ (∀ ret ∈ rets, ret = ⟨[], true, true⟩) ∧
      cfg.InRedownload s' P' [] [] ∧ P' <+: chain ∧ P' ≠ [] := by
  induction calls generalizing s P with
  | nil => exact absurd rfl hne
  | cons call calls ih =>
    have hcallne := hnonempty call mem_cons_self
    rw [flatMap_cons, ← append_assoc] at hcalls
    have hinitial : P ++ call.headers <+: chain := ⟨_, hcalls⟩
    obtain ⟨s₁, hs₁, hstore⟩ := hs.stores (by rwa [hcalls]) (by rwa [hcalls]) (by rwa [hcalls])
      (hfit.of_initial hinitial) hcallne
    have hwork : s₁.currentChainWork ≥ cfg.minimumRequiredWork ↔
        cfg.Enough (P ++ call.headers) := by
      rw [hs₁.work]
      exact le_workOf_iff (totalWork_lt_of_initial hsmall hinitial)
    by_cases hreach : cfg.Enough (P ++ call.headers)
    · -- the work is enough, and the sync switches
      rw [if_pos (hwork.2 hreach)] at hstore
      have hprocess := processNextHeaders_presync call.full hs.state hcallne hstore (.inr rfl)
      refine ⟨[⟨[], true, true⟩], cfg.startRedownload s₁, P ++ call.headers, ?_, by simp,
        hs₁.startRedownload (hwork.2 hreach), hinitial, by simp [hcallne]⟩
      rw [feed, if_pos hs.state, hprocess]
      dsimp only
      rw [feed_of_ne (by simp [startRedownload])]
    · rw [if_neg fun hge => hreach (hwork.1 hge)] at hstore
      have hcallfull : call.full = true := hfull [] call calls rfl (by simpa using hreach)
      have hprocess := processNextHeaders_presync call.full hs.state hcallne hstore (.inl hcallfull)
      have hrest : calls ≠ [] := by
        rintro rfl
        rw [flatMap_nil, append_nil] at hcalls
        exact hreach (hcalls ▸ henough)
      obtain ⟨rets, s', P', hfeed, hrets, h'⟩ := ih hs₁ hcalls hrest
        (fun c hc => hnonempty c (mem_cons_of_mem _ hc)) (full_of_cons hfull)
      refine ⟨⟨[], true, true⟩ :: rets, s', P', ?_, ?_, h'⟩
      · rw [feed, if_pos hs.state, hprocess]
        dsimp only
        rw [hfeed]
      · simpa using hrets

/-! ## The second phase -/

section

variable (hp : cfg.InRedownload s P released held)
include hp

/-- While the buffer is not emptied, the difficulty before the next header is that of the last. -/
theorem InRedownload.previousBits (hheld : held = [] → released = []) :
    cfg.previousBits s = (cfg.tip (released ++ held)).nBits := by
  rw [Setup.previousBits, hp.buffer, tip]
  cases held using reverseRecOn with
  | nil => rw [hheld rfl]; rfl
  | append_singleton held h => simp [← append_assoc]

theorem InRedownload.head_commitments (hfit : cfg.HeightsFit P)
    (hun : cfg.unproven (released ++ held ++ [h]) = released ++ held ++ [h])
    (hinitial : released ++ held ++ [h] <+: P)
    (hc : cfg.isCommitted (cfg.chainStart.height + (released ++ held).length + 1) = true) :
    s.headerCommitments.head? = some (cfg.commitment h) := by
  have hR : cfg.unproven (released ++ held) = released ++ held := by
    by_contra hne
    exact (unproven_concat_ne_iff _ h).2 (.inl hne) hun
  obtain ⟨rest, rfl⟩ := hinitial
  have happend : cfg.bits (released ++ held ++ [h] ++ rest) =
      cfg.bits (released ++ held ++ [h]) ++ _ :=
    bits_append
  have hbits := hp.commitments hfit
  rw [hR, happend, bits_concat, if_pos hc, append_assoc, append_cancel_left_eq] at hbits
  rw [hbits]
  rfl

theorem InRedownload.stores (hfit : cfg.HeightsFit P) (hheld : held = [] → released = [])
    (hR : released ++ held ++ headers <+: chain)
    (hlinked : cfg.Linked cfg.startHash chain) (hperm : cfg.Permitted chain) (hP : P <+: chain)
    (hne : P ≠ []) :
    ∃ s', untilRefused cfg.validateAndStoreRedownloadedHeader headers s = (true, s') ∧
      cfg.InRedownload s' P released (held ++ headers) := by
  obtain ⟨s', hloop, -, hs', -⟩ :
    ∃ s', untilRefused cfg.validateAndStoreRedownloadedHeader headers s =
      (true, s') ∧ headers = [] ++ headers ++ [] ∧
        cfg.InRedownload s' P released (held ++ ([] ++ headers)) ∧
      (held ++ ([] ++ headers) = [] → released = []) := by
    refine untilRefused_total (fun done todo s => headers = done ++ todo ∧
      cfg.InRedownload s P released (held ++ done) ∧ (held ++ done = [] → released = [])) ?_ []
      ⟨rfl, by rwa [append_nil], by rwa [append_nil]⟩
    rintro done a todo s ⟨rfl, hp, hheld⟩
    obtain ⟨rest, hchain⟩ := hR
    have hsplit : chain = released ++ (held ++ done) ++ a :: (todo ++ rest) := by
      rw [← hchain]
      simp
    have hnext : released ++ (held ++ done) ++ [a] <+: chain := ⟨todo ++ rest, by rw [hsplit]; simp⟩
    obtain ⟨s', hstep⟩ := hp.takes (hsplit ▸ hlinked).get
      (by rw [hp.previousBits hheld]; exact (hsplit ▸ hperm).get) (by
        intro hun hc
        -- the first phase reached the minimum, so it went on after this header
        refine hp.head_commitments hfit hun ?_ hc
        rcases prefix_or_prefix_of_prefix hnext hP with hle | hge
        · exact hle
        · have hreach : cfg.Reaches (released ++ (held ++ done) ++ [a]) :=
            (reaches_of_le_workOf hne hp.proven.2).of_initial hge
          exact absurd hun ((unproven_ne_iff _).2 hreach))
    refine ⟨s', hstep, by simp, ?_, fun hnil => by simp at hnil⟩
    rw [← append_assoc]
    exact hp.taken hstep
  exact ⟨s', hloop, by simpa using hs'⟩

end

theorem processNextHeaders_redownload {popped : List CBlockHeader} (full : Bool) {s₁ s₂ : SyncState}
    (hstate : s.downloadState = .redownload) (hne : headers ≠ [])
    (hloop : untilRefused cfg.validateAndStoreRedownloadedHeader headers s = (true, s₁))
    (hpop : cfg.popHeadersReadyForAcceptance s₁ = (popped, s₂)) :
    let more := !(s₂.redownloadedHeaders.isEmpty && s₂.processAllRemainingHeaders) && full
    cfg.processNextHeaders s headers full =
      (⟨popped, true, more⟩, if more then s₂ else finalize s₂) := by
  simp only [processNextHeaders, if_neg hne, hstate, processRedownload, hloop, hpop, Bool.true_and]

/-- The buffer keeps at least one header. -/
theorem drop_readyCount_ne_nil (hbuffer : 1 ≤ cfg.redownloadBufferSize) (hne : held ≠ []) :
    held.drop (cfg.readyCount false held.length) ≠ [] := by
  have hpos := length_pos_iff.2 hne
  rw [ne_eq, drop_eq_nil_iff, readyCount, if_neg Bool.false_ne_true]
  omega

theorem feed_redownload (hbuffer : 1 ≤ cfg.redownloadBufferSize) (hfit : cfg.HeightsFit P)
    (hlinked : cfg.Linked cfg.startHash chain) (hperm : cfg.Permitted chain) (hP : P <+: chain)
    (hne : P ≠ []) (hs : cfg.InRedownload s P released held) (hheld : held = [] → released = [])
    (hnot : ¬ cfg.Reaches (released ++ held))
    (hcalls : released ++ held ++ calls.flatMap Call.headers = chain)
    (hnonempty : ∀ call ∈ calls, call.headers ≠ [])
    (hfull : ∀ before call after, calls = before ++ call :: after →
      ¬ cfg.Reaches (released ++ held ++ before.flatMap Call.headers ++ call.headers) →
        call.full = true) :
    ∃ rets last s', cfg.feed .redownload s calls = (rets ++ [last], s') ∧
      s'.downloadState = .final ∧
      (∀ ret ∈ rets, ret.success = true ∧ ret.requestMore = true) ∧
      last.success = true ∧ last.requestMore = false ∧
      released ++ (rets ++ [last]).flatMap ProcessingResult.powValidatedHeaders <+: chain ∧
      cfg.Reaches (released ++ (rets ++ [last]).flatMap ProcessingResult.powValidatedHeaders) := by
  induction calls generalizing s released held with
  | nil =>
    rw [flatMap_nil, append_nil] at hcalls
    exact absurd (hcalls ▸ (reaches_of_le_workOf hne hs.proven.2).of_initial hP) hnot
  | cons call calls ih =>
    have hcallne := hnonempty call mem_cons_self
    rw [flatMap_cons, ← append_assoc] at hcalls
    have hinitial : released ++ held ++ call.headers <+: chain := ⟨_, hcalls⟩
    obtain ⟨s₁, hloop, hs₁⟩ := hs.stores hfit hheld hinitial hlinked hperm hP hne
    obtain ⟨s₂, hpop, hflag, hs₂⟩ := hs₁.popped
    by_cases hreach : cfg.Reaches (released ++ (held ++ call.headers))
    · -- all that is held is released
      have hall : s₁.processAllRemainingHeaders = true := by
        rw [hs₁.processAll, decide_eq_true_iff]
        exact (unproven_ne_iff _).2 hreach
      rw [hall, readyCount, if_pos rfl, take_length] at hpop hs₂
      have hprocess := processNextHeaders_redownload call.full hs.state hcallne hloop hpop
      rw [hs₂.buffer, hflag, hall] at hprocess
      refine ⟨[], ⟨held ++ call.headers, true, false⟩, finalize s₂, ?_, rfl, by simp, rfl,
        rfl, ?_, ?_⟩
      · rw [feed, if_pos hs.state, hprocess]
        dsimp only
        rw [feed_of_ne (by simp [finalize])]
        simp
      · simpa using hinitial
      · simpa using hreach
    · have hsome : s₁.processAllRemainingHeaders = false := by
        rw [hs₁.processAll, decide_eq_false_iff_not, unproven_ne_iff]
        exact hreach
      have hcallfull : call.full = true := hfull [] call calls rfl (by simpa using hreach)
      have hprocess := processNextHeaders_redownload call.full hs.state hcallne hloop hpop
      rw [hflag, hsome, hcallfull, Bool.and_false] at hprocess
      rw [hsome] at hs₂
      have hkept := drop_readyCount_ne_nil hbuffer (append_ne_nil_of_right_ne_nil held hcallne)
      have hsame (k : Nat) : released ++ (held ++ call.headers).take k ++
          (held ++ call.headers).drop k = released ++ held ++ call.headers := by
        rw [append_assoc, take_append_drop, append_assoc]
      obtain ⟨rets, last, s', hfeed, hfinal, hrets, hlast, hlast', hreleased⟩ := ih hs₂
        (fun hnil => absurd hnil hkept) (by rwa [hsame, append_assoc]) (by rw [hsame, hcalls])
        (fun c hc => hnonempty c (mem_cons_of_mem _ hc)) (by rw [hsame]; exact full_of_cons hfull)
      refine ⟨⟨(held ++ call.headers).take (cfg.readyCount false (held ++ call.headers).length),
        true, true⟩ :: rets, last, s', ?_, hfinal, ?_, hlast, hlast', ?_⟩
      · rw [feed, if_pos hs.state, hcallfull, hprocess]
        simp only [Bool.not_false, Bool.true_and, if_true, hfeed]
        rfl
      · simpa using hrets
      · simpa [append_assoc] using hreleased

/-- **An honest peer is accepted.** Whatever the messages, every call succeeds and asks for more
until the last, and then every header up to the one that reaches the minimum has been released. -/
theorem accepts_honest (cfg : Setup) (hbuffer : 1 ≤ cfg.redownloadBufferSize)
    (chain ext : List CBlockHeader) (hne : chain ≠ [])
    (hlinked : cfg.Linked cfg.startHash (chain ++ ext)) (hperm : cfg.Permitted (chain ++ ext))
    (henough : cfg.Enough chain) (hmax : (cfg.bits chain).length ≤ cfg.maxCommitments)
    (hsmall : cfg.totalWork chain < 2 ^ 256)
    (hheight : cfg.chainStart.height + chain.length < 2 ^ 31) (first second : List Call)
    (hfirst : cfg.Serves first chain) (hsecond : cfg.Serves second (chain ++ ext)) :
    ∃ rets s rets' last s',
      cfg.feed .presync cfg.initial first = (rets, s) ∧ (∀ ret ∈ rets, ret = ⟨[], true, true⟩) ∧
      cfg.feed .redownload s second = (rets' ++ [last], s') ∧
      (∀ ret ∈ rets', ret.success = true ∧ ret.requestMore = true) ∧
      last.success = true ∧ last.requestMore = false ∧ s'.downloadState = .final ∧
      (rets' ++ [last]).flatMap ProcessingResult.powValidatedHeaders <+: chain ++ ext ∧
      cfg.Reaches ((rets' ++ [last]).flatMap ProcessingResult.powValidatedHeaders) := by
  have hfirstne : first ≠ [] := by
    rintro rfl
    exact hne hfirst.headers.symm
  obtain ⟨rets, s, P, hfeed, hrets, hs, hP, hPne⟩ := feed_presync hsmall henough
    (linked_append.1 hlinked).1 hperm.left hmax hheight inPresync_initial hfirst.headers hfirstne
    hfirst.nonempty (by simpa using hfirst.full)
  obtain ⟨rets', last, s', hfeed', hfinal, hrets', hlast, hlast', hreleased⟩ :=
    feed_redownload hbuffer
    (HeightsFit.of_initial hheight hP) hlinked hperm (hP.trans (prefix_append _ _)) hPne hs
    (fun _ => rfl) (by rintro ⟨n, hn, -⟩; simp at hn) hsecond.headers
    hsecond.nonempty (by
      intro before call after hsplit hnot
      refine hsecond.full before call after hsplit fun hcall => hnot ?_
      have hinitial : before.flatMap Call.headers ++ call.headers <+: chain ++ ext :=
        ⟨after.flatMap Call.headers, by rw [← hsecond.headers, hsplit]; simp⟩
      have hcallne := hsecond.nonempty call (by simp [hsplit])
      exact (reaches_iff hsmall henough hne hinitial (by simp [hcallne])).2 hcall)
  exact ⟨rets, s, rets', last, s', hfeed, hrets, hfeed', hrets', hlast, hlast', hfinal, hreleased⟩

/-- Full messages that are not empty serve the chain they make up. -/
theorem serves_of_full (hheaders : calls.flatMap Call.headers = chain)
    (hcalls : ∀ call ∈ calls, call.headers ≠ [] ∧ call.full = true) : cfg.Serves calls chain where
  headers := hheaders
  nonempty call hcall := (hcalls call hcall).1
  full before call after hsplit _ := (hcalls call (by simp [hsplit])).2

variable (cfg) in
/-- An honest chain of which nothing is released. -/
structure Refused (chain : List CBlockHeader) (first second : List Call) : Prop where
  buffer : 1 ≤ cfg.redownloadBufferSize
  linked : cfg.Linked cfg.startHash chain
  permitted : cfg.Permitted chain
  enough : cfg.Enough chain
  bound : (cfg.bits chain).length ≤ cfg.maxCommitments
  serves : cfg.Serves first chain ∧ cfg.Serves second chain
  released : (cfg.feed .redownload (cfg.feed .presync cfg.initial first).2 second).1.flatMap
    ProcessingResult.powValidatedHeaders = []

end Setup

namespace Sample

def firstTime : List Call :=
  [⟨(headersOn root [0, 0, 0]).take 1, true⟩, ⟨(headersOn root [0, 0, 0]).drop 1, true⟩]

def secondTime : List Call :=
  [⟨(headersOn root [0, 0, 0, 0]).take 2, true⟩, ⟨(headersOn root [0, 0, 0, 0]).drop 2, true⟩]

/-- A sync on a chain of any difficulties that asks for half of the largest work. -/
def heavySetup : Setup :=
  { setupAt 0 (by decide) with
    consensus := ⟨BitVec.ofNat 256 (2 ^ 224 - 1), true, 600, 1209600⟩
    minimumRequiredWork := BitVec.ofNat 256 (2 ^ 255) }

/-- A header with target 1, of work `2 ^ 255`. -/
def heavyOn (prev : CBlockHeader) : CBlockHeader :=
  { onHash (prev.getHash Sha256.sha256) 0 with nBits := 0x01010000 }

def heavyChain : List CBlockHeader := [heavyOn root, heavyOn (heavyOn root)]

end Sample

open Headers.Sample

/-- A peer whose chain grows between the two phases. -/
theorem Setup.accepts_honest_growing :
    ∃ rets s rets' last s',
      (setupAt 0 (by decide)).feed .presync (setupAt 0 (by decide)).initial firstTime =
        (rets, s) ∧ (∀ ret ∈ rets, ret = ⟨[], true, true⟩) ∧
      (setupAt 0 (by decide)).feed .redownload s secondTime = (rets' ++ [last], s') ∧
      (∀ ret ∈ rets', ret.success = true ∧ ret.requestMore = true) ∧
      last.success = true ∧ last.requestMore = false ∧ s'.downloadState = .final ∧
      (rets' ++ [last]).flatMap ProcessingResult.powValidatedHeaders <+:
        (headersOn root [0, 0, 0, 0]).take 3 ++
          (headersOn root [0, 0, 0, 0]).drop 3 ∧
      (setupAt 0 (by decide)).Reaches
        ((rets' ++ [last]).flatMap ProcessingResult.powValidatedHeaders) :=
  Setup.accepts_honest (setupAt 0 (by decide)) (by decide)
    ((headersOn root [0, 0, 0, 0]).take 3) ((headersOn root [0, 0, 0, 0]).drop 3)
    (by decide +kernel) (by decide +kernel) (by decide +kernel)
      (by decide +kernel) (by decide +kernel)
    (by decide +kernel) (by decide +kernel) firstTime secondTime
    (Setup.serves_of_full (by decide +kernel) (by decide +kernel))
    (Setup.serves_of_full (by decide +kernel) (by decide +kernel))

/-- At the heights after `INT_MAX` an honest peer is refused: the second phase asks for bits of
other headers than those the first phase kept. And a chain that reaches the minimum in a message
whose work passes `2 ^ 256` is not recognised: the sum wraps around before it is compared. -/
theorem Setup.refuses_past_limits :
    (setupAt (2 ^ 31 - 1) (by decide)).Refused (headersOn root [0, 0, 0]) firstTime
        [⟨headersOn root [0, 0, 0], true⟩] ∧
      heavySetup.Refused heavyChain [⟨heavyChain, true⟩] [⟨heavyChain, true⟩] :=
  ⟨⟨by decide, by decide +kernel, by decide +kernel, by decide +kernel, by decide +kernel,
      ⟨serves_of_full (by decide +kernel) (by decide +kernel),
        serves_of_full (by decide +kernel) (by decide +kernel)⟩, by decide +kernel⟩,
    ⟨by decide, by decide +kernel, by decide +kernel, by decide +kernel, by decide +kernel,
      ⟨serves_of_full (by decide +kernel) (by decide +kernel),
        serves_of_full (by decide +kernel) (by decide +kernel)⟩, by decide +kernel⟩⟩

end Soveroot.Headers
