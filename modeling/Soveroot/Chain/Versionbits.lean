import Soveroot.Chain.Index
import Soveroot.Lib.SortedView

/-!
# Soft-fork states

`src/versionbits.cpp` computes the state of a deployment period by period, and keeps what it
computes in a cache that queries about any blocks share. It walks back to a block whose state is
known, or whose median time is before the start. `Checker.state` is the recursion from the genesis
block, without a cache; every sequence of queries is answered as by it (`Checker.run_spec`).
-/

namespace Soveroot.Chain

open Ranks List Option Function

inductive ThresholdState where
  | defined
  | started
  | lockedIn
  | active
  | failed
  deriving DecidableEq

/-! ## Median times -/

namespace Index

/-- The times of the last `n` blocks of a chain. -/
def lastTimes : Nat → Index → List Int
  | 0, _ => []
  | _ + 1, genesis fields => [(genesis fields).blockTime]
  | n + 1, next pprev fields => (next pprev fields).blockTime :: lastTimes n pprev

def nMedianTimeSpan : Nat := 11

def getMedianTimePast (i : Index) : Int :=
  let pmedian := i.lastTimes nMedianTimeSpan
  (ranked pmedian (pmedian.length / 2)).getD 0

end Index

/-! ## The checker -/

/-- `AbstractThresholdConditionChecker`, with a period of at least one block. -/
structure Checker where
  condition : Index → Bool
  beginTime : Int
  endTime : Int
  minActivationHeight : Int
  period : Nat
  threshold : Int
  period_pos : 0 < period

/-- `ThresholdConditionCache`. -/
abbrev Cache : Type := Option Index → Option ThresholdState

def alwaysActive : Int := -1

def neverActive : Int := -2

namespace Checker

variable (c : Checker)

/-- The last block of the period before the one that `i` ends. -/
def before (i : Index) : Option Index := i.getAncestor (i.nHeight - c.period)

/-- The last block of a period, at or before a block. -/
def aligned (i : Index) : Option Index :=
  i.getAncestor (i.nHeight - ((i.nHeight + 1) % c.period : Nat))

variable {c} in
theorem before_eq (i : Index) :
    c.before i = if c.period ≤ i.nHeight then some (i.back (i.nHeight - c.period)) else none := by
  rw [before]
  by_cases h : c.period ≤ i.nHeight
  · rw [if_pos h, ← Int.natCast_sub h, Index.getAncestor_natCast (Nat.sub_le _ _)]
  · rw [if_neg h, Index.getAncestor_neg (by omega)]

def depth : Option Index → Nat
  | none => 0
  | some i => i.nHeight + 1

theorem depth_before_lt (i : Index) : depth (c.before i) < depth (some i) := by
  have hpos := c.period_pos
  rw [before_eq]
  split_ifs with h
  · simp only [depth, Index.nHeight_back (Nat.sub_le _ _)]
    omega
  · exact Nat.succ_pos _

/-- The walk back to a block whose state is known. The blocks passed are in `vToCompute`, the last
one first. -/
def walkBack (cache : Cache) (vToCompute : List Index) (pindexPrev : Option Index) :
    Cache × Option Index × List Index :=
  if (cache pindexPrev).isSome then (cache, pindexPrev, vToCompute)
  else
    match pindexPrev with
    | none => (Function.update cache none (some .defined), none, vToCompute)
    | some i =>
      -- every earlier block is before the start time too
      if i.getMedianTimePast < c.beginTime then
        (Function.update cache (some i) (some .defined), some i, vToCompute)
      else walkBack cache (i :: vToCompute) (c.before i)
  termination_by depth pindexPrev
  decreasing_by exact c.depth_before_lt i

/-- The loop that counts the blocks of a period that signal. Going past the genesis block is
`none`. -/
def count : Nat → Option Index → Option Nat
  | 0, _ => some 0
  | _ + 1, none => none
  | n + 1, some i => (count n i.pprev).map fun count => if c.condition i then count + 1 else count

/-- One turn of the walk forward. -/
def stateNext (state : ThresholdState) (pindexPrev : Index) : Option ThresholdState :=
  match state with
  | .defined => some (if pindexPrev.getMedianTimePast ≥ c.beginTime then .started else .defined)
  | .started => (c.count c.period (some pindexPrev)).map fun count =>
    if (count : Int) ≥ c.threshold then .lockedIn
    else if pindexPrev.getMedianTimePast ≥ c.endTime then .failed else .started
  | .lockedIn =>
    some (if (pindexPrev.nHeight : Int) + 1 ≥ c.minActivationHeight then .active else .lockedIn)
  | .failed => some .failed
  | .active => some .active

def walkForward (cache : Cache) (state : ThresholdState) : List Index →
    Option (ThresholdState × Cache)
  | [] => some (state, cache)
  | i :: vToCompute => (c.stateNext state i).bind fun state =>
    walkForward (Function.update cache (some i) (some state)) state vToCompute

/-- `GetStateFor`. A failed assertion is `none`. -/
def getStateFor (cache : Cache) (pindexPrev : Option Index) : Option (ThresholdState × Cache) :=
  if c.beginTime = alwaysActive then some (.active, cache)
  else if c.beginTime = neverActive then some (.failed, cache)
  else
    let (cache, pindexPrev, vToCompute) := c.walkBack cache [] (pindexPrev.bind c.aligned)
    (cache pindexPrev).bind fun state => c.walkForward cache state vToCompute

/-- The loop of `GetStateSinceHeightFor`. -/
def sinceLoop (initialState : ThresholdState) (cache : Cache) (pindexPrev : Index) :
    Option (Int × Cache) :=
  match h : c.before pindexPrev with
  | none => some (pindexPrev.nHeight + 1, cache)
  | some previousPeriodParent =>
    (c.getStateFor cache (some previousPeriodParent)).bind fun (state, cache) =>
      if state = initialState then sinceLoop initialState cache previousPeriodParent
      else some (pindexPrev.nHeight + 1, cache)
  termination_by pindexPrev.nHeight
  decreasing_by
    have hlt := c.depth_before_lt pindexPrev
    rw [h] at hlt
    exact Nat.lt_of_succ_lt_succ hlt

def getStateSinceHeightFor (cache : Cache) (pindexPrev : Option Index) : Option (Int × Cache) :=
  if c.beginTime = alwaysActive ∨ c.beginTime = neverActive then some (0, cache)
  else
    (c.getStateFor cache pindexPrev).bind fun (initialState, cache) =>
      if initialState = .defined then some (0, cache)
      else (pindexPrev.bind c.aligned).bind fun pindexPrev =>
        c.sinceLoop initialState cache pindexPrev

inductive Query where
  | state (pindexPrev : Option Index)
  | since (pindexPrev : Option Index)

inductive Answer where
  | state (state : ThresholdState)
  | height (height : Int)
  deriving DecidableEq

def ask (cache : Cache) : Query → Option (Answer × Cache)
  | .state pindexPrev => (c.getStateFor cache pindexPrev).map fun (s, cache) => (.state s, cache)
  | .since pindexPrev =>
    (c.getStateSinceHeightFor cache pindexPrev).map fun (h, cache) => (.height h, cache)

def run (cache : Cache) : List Query → Option (List Answer)
  | [] => some []
  | q :: queries =>
    (c.ask cache q).bind fun (answer, cache) => (run cache queries).map (answer :: ·)

/-! ## The recursion from the genesis block -/

/-- The blocks of the period that ends with a block that signal. -/
def signalling (i : Index) : Nat :=
  (range c.period).countP fun k => c.condition (i.back (i.nHeight - k))

/-- The state after a period that ends with the block `last`. -/
def transition (state : ThresholdState) (last : Index) : ThresholdState :=
  match state with
  | .defined => if c.beginTime ≤ last.getMedianTimePast then .started else .defined
  | .started =>
    if c.threshold ≤ c.signalling last then .lockedIn
    else if c.endTime ≤ last.getMedianTimePast then .failed else .started
  | .lockedIn => if c.minActivationHeight ≤ last.nHeight + 1 then .active else .lockedIn
  | .failed => .failed
  | .active => .active

/-- The state of the period `n` of a chain. -/
def periodState (i : Index) : Nat → ThresholdState
  | 0 => .defined
  | n + 1 => c.transition (periodState i n) (i.back ((n + 1) * c.period - 1))

/-- The state of the block after the given one. -/
def state : Option Index → ThresholdState
  | none => .defined
  | some i => c.periodState i ((i.nHeight + 1) / c.period)

end Checker

/-! ## Median times do not decrease -/

namespace Index

/-- Each block is later than the median time of its parent. -/
def Ordered : Index → Prop
  | genesis _ => True
  | next pprev fields => pprev.Ordered ∧ pprev.getMedianTimePast < (next pprev fields).blockTime

variable {i : Index}

theorem length_lastTimes (n : Nat) (i : Index) :
    (i.lastTimes n).length = min n (i.nHeight + 1) := by
  induction i generalizing n with
  | genesis fields => cases n <;> simp [lastTimes, nHeight]
  | next pprev fields ih =>
    cases n with
    | zero => simp [lastTimes]
    | succ n =>
      rw [lastTimes, length_cons, ih, nHeight_next]
      omega

theorem lastTimes_sublist (n : Nat) (i : Index) :
    (i.lastTimes n).Sublist (i.lastTimes (n + 1)) := by
  induction i generalizing n with
  | genesis fields => cases n <;> simp [lastTimes]
  | next pprev fields ih =>
    cases n with
    | zero => exact nil_sublist _
    | succ n => exact (ih n).cons_cons _

theorem ranked_lastTimes (i : Index) :
    ranked (i.lastTimes nMedianTimeSpan) ((i.lastTimes nMedianTimeSpan).length / 2) =
      some i.getMedianTimePast := by
  have hpos : 0 < (i.lastTimes nMedianTimeSpan).length := by
    rw [length_lastTimes, nMedianTimeSpan]
    omega
  obtain ⟨x, hx⟩ := isSome_iff_exists.1 (ranked_isSome (Nat.div_lt_self hpos Nat.one_lt_two))
  rw [getMedianTimePast, hx]
  rfl

/-- A later time comes in, and at most one time goes out: no more times than before are below the
median, and its place does not go down. -/
theorem getMedianTimePast_le_next {fields : Fields} (h : (next i fields).Ordered) :
    i.getMedianTimePast ≤ (next i fields).getMedianTimePast := by
  rw [le_ranked_iff (ranked_lastTimes (next i fields))]
  have hcount := (le_ranked_iff (ranked_lastTimes i)).1 (le_refl i.getMedianTimePast)
  have hsub := (lastTimes_sublist 10 i).countP_le (p := fun t => decide (t < i.getMedianTimePast))
  have hlength : (i.lastTimes nMedianTimeSpan).length ≤
      ((next i fields).lastTimes nMedianTimeSpan).length := by
    rw [length_lastTimes, length_lastTimes, nHeight_next]
    omega
  have hnew : ((next i fields).lastTimes nMedianTimeSpan).countP (· < i.getMedianTimePast) =
      (i.lastTimes 10).countP (· < i.getMedianTimePast) := by
    rw [nMedianTimeSpan, lastTimes, countP_cons_of_neg]
    simpa using h.2.le
  rw [hnew]
  exact (hsub.trans hcount).trans (Nat.div_le_div_right hlength)

theorem Ordered.back (h : i.Ordered) (height : Nat) : (i.back height).Ordered := by
  induction i with
  | genesis fields => trivial
  | next pprev fields ih =>
    rw [Index.back]
    split_ifs
    · exact h
    · exact ih h.1

theorem Ordered.getMedianTimePast_back_le (h : i.Ordered) (height : Nat) :
    (i.back height).getMedianTimePast ≤ i.getMedianTimePast := by
  induction i with
  | genesis fields => exact le_rfl
  | next pprev fields ih =>
    rw [Index.back]
    split_ifs
    · exact le_rfl
    · exact (ih h.1).trans (getMedianTimePast_le_next h)

end Index

/-! ## One period -/

namespace Checker

variable {c : Checker} {i : Index} {n : Nat}

theorem count_eq (h : n ≤ i.nHeight + 1) :
    c.count n (some i) = some ((range n).countP fun k => c.condition (i.back (i.nHeight - k))) := by
  induction n generalizing i with
  | zero => rfl
  | succ n ih =>
    rw [count, range_succ_eq_map, countP_cons, countP_map, Nat.sub_zero,
      Index.back_of_le le_rfl]
    cases i with
    | genesis fields =>
      obtain rfl : n = 0 := by simpa [Index.nHeight] using h
      simp [count]
    | next pprev fields =>
      rw [Index.pprev, ih (by simpa using h), map_some]
      have hsame : (range n).countP ((fun k => c.condition
          ((Index.next pprev fields).back ((Index.next pprev fields).nHeight - k))) ∘ Nat.succ) =
          (range n).countP fun k => c.condition (pprev.back (pprev.nHeight - k)) := by
        apply countP_congr
        intro k _
        rw [comp_apply, Index.nHeight_next, Nat.succ_sub_succ, Index.back_next (Nat.sub_le _ _)]
      rw [hsame]
      split_ifs <;> rfl

theorem stateNext_eq (state : ThresholdState) (h : c.period ≤ i.nHeight + 1) :
    c.stateNext state i = some (c.transition state i) := by
  cases state with
  | started =>
    rw [stateNext, count_eq h]
    rfl
  | _ => rfl

variable {height : Nat}

theorem periodState_back (hn : n * c.period ≤ height + 1) (h : height ≤ i.nHeight) :
    c.periodState (i.back height) n = c.periodState i n := by
  induction n with
  | zero => rfl
  | succ n ih =>
    have hle : n * c.period ≤ height + 1 := (Nat.mul_le_mul_right _ (Nat.le_succ n)).trans hn
    rw [periodState, periodState, ih hle, Index.back_back (by omega) h]

theorem state_back (h : height ≤ i.nHeight) :
    c.state (some (i.back height)) = c.periodState i ((height + 1) / c.period) := by
  rw [state, Index.nHeight_back h, periodState_back (Nat.div_mul_le_self _ _) h]

theorem state_eq_defined (h : i.Ordered) (hstart : i.getMedianTimePast < c.beginTime) :
    c.state (some i) = .defined := by
  suffices hall : ∀ n, c.periodState i n = .defined from hall _
  intro n
  induction n with
  | zero => rfl
  | succ n ih =>
    have hle := h.getMedianTimePast_back_le ((n + 1) * c.period - 1)
    rw [periodState, ih, transition, if_neg (by omega)]

/-- A block that ends a period. -/
def Boundary (c : Checker) : Option Index → Prop
  | none => True
  | some i => c.period ∣ i.nHeight + 1

theorem state_of_boundary (h : c.Boundary (some i)) :
    c.state (some i) = c.transition (c.state (c.before i)) i ∧ c.Boundary (c.before i) := by
  obtain ⟨n, hn⟩ := h
  obtain ⟨n, rfl⟩ : ∃ m, n = m + 1 := Nat.exists_eq_succ_of_ne_zero (by
    rintro rfl
    simp at hn)
  have hpos := c.period_pos
  rw [Nat.mul_succ] at hn
  have hdiv : (i.nHeight + 1) / c.period = n + 1 := by
    rw [hn, Nat.add_div_right _ hpos, Nat.mul_div_cancel_left _ hpos]
  have hlast : i.back ((n + 1) * c.period - 1) = i := by
    apply Index.back_of_le
    rw [Nat.succ_mul, Nat.mul_comm]
    omega
  rw [state, hdiv, periodState, hlast, before_eq]
  by_cases hle : c.period ≤ i.nHeight
  · have hheight : i.nHeight - c.period + 1 = c.period * n := by omega
    rw [if_pos hle, state_back (Nat.sub_le _ _), Boundary,
      Index.nHeight_back (Nat.sub_le _ _), hheight,
      Nat.mul_div_cancel_left _ hpos]
    exact ⟨rfl, Nat.dvd_mul_right _ _⟩
  · obtain rfl : n = 0 := by
      by_contra hne
      have := Nat.le_mul_of_pos_right c.period (Nat.pos_of_ne_zero hne)
      omega
    rw [if_neg hle]
    exact ⟨rfl, trivial⟩

theorem aligned_eq (i : Index) : c.aligned i =
    if i.nHeight + 1 < c.period then none
    else some (i.back ((i.nHeight + 1) / c.period * c.period - 1)) := by
  have hpos := c.period_pos
  have hdiv := Nat.div_add_mod' (i.nHeight + 1) c.period
  rw [aligned]
  by_cases h : i.nHeight + 1 < c.period
  · rw [if_pos h, Nat.mod_eq_of_lt h, Index.getAncestor_neg (by omega)]
  · have hquot : c.period ≤ (i.nHeight + 1) / c.period * c.period :=
      Nat.le_mul_of_pos_left _ (Nat.div_pos (Nat.le_of_not_lt h) hpos)
    have hheight : (i.nHeight : Int) - ((i.nHeight + 1) % c.period : Nat) =
        (((i.nHeight + 1) / c.period * c.period - 1 : Nat) : Int) := by omega
    rw [if_neg h, hheight, Index.getAncestor_natCast (by omega)]

theorem state_aligned (p : Option Index) :
    c.state (p.bind c.aligned) = c.state p ∧ c.Boundary (p.bind c.aligned) := by
  have hpos := c.period_pos
  cases p with
  | none => exact ⟨rfl, trivial⟩
  | some i =>
    have hdiv := Nat.div_add_mod' (i.nHeight + 1) c.period
    rw [bind_some, aligned_eq]
    by_cases h : i.nHeight + 1 < c.period
    · have hfirst : c.state (some i) = .defined := by
        rw [state, Nat.div_eq_of_lt h]
        rfl
      rw [if_pos h, hfirst]
      exact ⟨rfl, trivial⟩
    · have hquot : c.period ≤ (i.nHeight + 1) / c.period * c.period :=
        Nat.le_mul_of_pos_left _ (Nat.div_pos (Nat.le_of_not_lt h) hpos)
      have hheight : (i.nHeight + 1) / c.period * c.period - 1 + 1 =
          (i.nHeight + 1) / c.period * c.period := by omega
      rw [if_neg h, state_back (by omega), hheight, Nat.mul_div_cancel _ hpos, Boundary,
        Index.nHeight_back (by omega), hheight]
      exact ⟨rfl, Nat.dvd_mul_left _ _⟩

/-! ## The cache -/

/-- A chain on which each block is later than the median time of its parent. -/
def Ordered : Option Index → Prop
  | none => True
  | some i => i.Ordered

theorem Ordered.before (h : i.Ordered) : Ordered (c.before i) := by
  rw [before_eq]
  split_ifs
  · exact h.back _
  · trivial

theorem Ordered.aligned {p : Option Index} (h : Ordered p) : Ordered (p.bind c.aligned) := by
  cases p with
  | none => trivial
  | some i =>
    rw [bind_some, aligned_eq]
    split_ifs
    · trivial
    · exact Index.Ordered.back h _

/-- The cache holds states. -/
def Sound (c : Checker) (cache : Cache) : Prop := ∀ p s, cache p = some s → s = c.state p

theorem sound_empty : c.Sound fun _ => none := by
  intro p s h
  cases h

theorem Sound.update {cache : Cache} (h : c.Sound cache) {p : Option Index} {s : ThresholdState}
    (hs : s = c.state p) : c.Sound (Function.update cache p (some s)) := by
  intro q t hq
  by_cases heq : q = p
  · subst heq
    rw [update_self, Option.some.injEq] at hq
    rw [← hq, hs]
  · rw [update_of_ne heq] at hq
    exact h q t hq

/-- The two walks, from the last block of a period: what was to be computed before goes on from its
state. -/
theorem walk_spec (cache : Cache) (vToCompute : List Index) (p : Option Index)
    (hsound : c.Sound cache) (hordered : Ordered p) (hboundary : c.Boundary p) :
    ∃ cache', c.Sound cache' ∧
      (((c.walkBack cache vToCompute p).1 (c.walkBack cache vToCompute p).2.1).bind fun state =>
        c.walkForward (c.walkBack cache vToCompute p).1 state (c.walkBack cache vToCompute p).2.2) =
      c.walkForward cache' (c.state p) vToCompute := by
  fun_induction walkBack c cache vToCompute p with
  | case1 vToCompute p h =>
    obtain ⟨s, hs⟩ := isSome_iff_exists.1 h
    refine ⟨cache, hsound, ?_⟩
    show ((cache p).bind fun state => c.walkForward cache state vToCompute) = _
    rw [hs, bind_some, hsound p s hs]
  | case2 vToCompute h =>
    refine ⟨_, hsound.update (p := none) rfl, ?_⟩
    rfl
  | case3 vToCompute i hstart =>
    have hdefined := state_eq_defined hordered hstart
    refine ⟨_, hsound.update hdefined.symm, ?_⟩
    simp only [update_self, bind_some, hdefined]
  | case4 vToCompute i hstart hmiss ih =>
    obtain ⟨hstate, hbefore⟩ := state_of_boundary hboundary
    obtain ⟨cache', hsound', hwalk⟩ := ih (Ordered.before hordered) hbefore
    have hperiod : c.period ≤ i.nHeight + 1 := Nat.le_of_dvd (Nat.succ_pos _) hboundary
    refine ⟨_, hsound'.update hstate.symm, ?_⟩
    rw [hwalk, walkForward, stateNext_eq _ hperiod, bind_some, hstate]

variable {cache : Cache} {p : Option Index}

/-- Neither always nor never active. -/
def Scheduled (c : Checker) : Prop := c.beginTime ≠ alwaysActive ∧ c.beginTime ≠ neverActive

theorem getStateFor_spec (hc : c.Scheduled) (hsound : c.Sound cache) (hordered : Ordered p) :
    ∃ cache', c.getStateFor cache p = some (c.state p, cache') ∧ c.Sound cache' := by
  obtain ⟨hstate, hboundary⟩ := c.state_aligned p
  obtain ⟨cache', hsound', hwalk⟩ := walk_spec cache [] _ hsound hordered.aligned hboundary
  refine ⟨cache', ?_, hsound'⟩
  rw [getStateFor, if_neg hc.1, if_neg hc.2, ← hstate]
  exact hwalk

/-! ## Since when -/

theorem sinceLoop_spec (hc : c.Scheduled) {initial : ThresholdState} (hinitial : initial ≠ .defined)
    (hn : i.nHeight + 1 = (n + 1) * c.period) (hsound : c.Sound cache) (hordered : i.Ordered)
    (hstate : c.periodState i (n + 1) = initial) :
    ∃ m cache', c.sinceLoop initial cache i = some ((((m + 1) * c.period : Nat) : Int), cache') ∧
      c.Sound cache' ∧ (∀ k, m < k → k ≤ n + 1 → c.periodState i k = initial) ∧
      m ≤ n ∧ c.periodState i m ≠ initial := by
  have hpos := c.period_pos
  induction n generalizing i cache with
  | zero =>
    refine ⟨0, cache, ?_, hsound, ?_, le_rfl, hinitial.symm⟩
    · have hbefore : c.before i = none := by
        rw [before_eq, if_neg (by omega)]
      rw [sinceLoop]
      split
      · rw [← hn]
        rfl
      · rename_i h
        rw [hbefore] at h
        cases h
    · intro k hlow hhigh
      obtain rfl : k = 1 := by omega
      exact hstate
  | succ n ih =>
    have hn' : i.nHeight + 1 = (n + 1) * c.period + c.period := by rw [hn, Nat.succ_mul]
    have hle : i.nHeight - c.period ≤ i.nHeight := Nat.sub_le _ _
    have hone : c.period ≤ (n + 1) * c.period := Nat.le_mul_of_pos_left _ (Nat.succ_pos n)
    have hheight : i.nHeight - c.period + 1 = (n + 1) * c.period := by omega
    have hbefore : c.before i = some (i.back (i.nHeight - c.period)) := by
      rw [before_eq, if_pos (by omega)]
    have hsame : ∀ k, k ≤ n + 1 → c.periodState (i.back (i.nHeight - c.period)) k =
        c.periodState i k := by
      intro k hk
      apply periodState_back _ hle
      rw [hheight]
      exact Nat.mul_le_mul_right _ hk
    obtain ⟨cache', hget, hsound'⟩ := getStateFor_spec hc hsound
      (show Ordered (some (i.back (i.nHeight - c.period))) from hordered.back _)
    rw [state_back hle, hheight, Nat.mul_div_cancel _ hpos] at hget
    have hloop : c.sinceLoop initial cache i =
        if c.periodState i (n + 1) = initial then
          c.sinceLoop initial cache' (i.back (i.nHeight - c.period))
        else some ((i.nHeight : Int) + 1, cache') := by
      rw [sinceLoop]
      split
      · rename_i h
        rw [hbefore] at h
        cases h
      · rename_i parent h
        rw [hbefore, Option.some.injEq] at h
        rw [← h, hget]
        rfl
    rw [hloop]
    by_cases hprevious : c.periodState i (n + 1) = initial
    · obtain ⟨m, cache'', hsince, hsound'', hall, hm, hfirst⟩ :=
        ih (by rw [Index.nHeight_back hle, hheight]) hsound' (hordered.back _)
          ((hsame _ le_rfl).trans hprevious)
      refine ⟨m, cache'', ?_, hsound'', ?_, by omega, ?_⟩
      · rw [if_pos hprevious, hsince]
      · intro k hlow hhigh
        by_cases hk : k ≤ n + 1
        · rw [← hsame k hk]
          exact hall k hlow hk
        · obtain rfl : k = n + 1 + 1 := by omega
          exact hstate
      · rwa [hsame m (by omega)] at hfirst
    · refine ⟨n + 1, cache', ?_, hsound', ?_, le_rfl, hprevious⟩
      · rw [if_neg hprevious, ← hn]
        rfl
      · intro k hlow hhigh
        obtain rfl : k = n + 1 + 1 := by omega
        exact hstate

/-- The state of the block at a height, on the chain that a block extends. -/
def stateAt (c : Checker) (p : Option Index) (height : Nat) : ThresholdState :=
  c.state (if height = 0 then none else p.map fun i => i.back (height - 1))

theorem stateAt_eq (h : height ≤ i.nHeight + 1) :
    c.stateAt (some i) height = c.periodState i (height / c.period) := by
  rw [stateAt]
  by_cases hzero : height = 0
  · rw [if_pos hzero, hzero, Nat.zero_div]
    rfl
  · rw [if_neg hzero, map_some, state_back (by omega), Nat.sub_add_cancel (by omega)]

/-- The heights from which every block up to the queried one has its state. -/
def Since (c : Checker) (p : Option Index) (height : Nat) : Prop :=
  height ≤ depth p ∧ ∀ n, height ≤ n → n ≤ depth p → c.stateAt p n = c.state p

/-- The states go one way. -/
inductive Allowed : ThresholdState → ThresholdState → Prop
  | started : Allowed .defined .started
  | lockedIn : Allowed .started .lockedIn
  | failed : Allowed .started .failed
  | active : Allowed .lockedIn .active

theorem transition_allowed (state : ThresholdState) (last : Index) :
    c.transition state last = state ∨ Allowed state (c.transition state last) := by
  cases state with
  | defined =>
    rw [transition]
    split_ifs
    · exact .inr .started
    · exact .inl rfl
  | started =>
    rw [transition]
    split_ifs
    · exact .inr .lockedIn
    · exact .inr .failed
    · exact .inl rfl
  | lockedIn =>
    rw [transition]
    split_ifs
    · exact .inr .active
    · exact .inl rfl
  | active => exact .inl rfl
  | failed => exact .inl rfl

theorem periodState_defined (h : c.periodState i n = .defined) {k : Nat} (hk : k ≤ n) :
    c.periodState i k = .defined := by
  induction n with
  | zero =>
    obtain rfl : k = 0 := by omega
    exact h
  | succ n ih =>
    by_cases heq : k = n + 1
    · rw [heq, h]
    · apply ih _ (by omega)
      rcases c.transition_allowed (c.periodState i n) (i.back ((n + 1) * c.period - 1)) with
        hsame | hstep
      · rw [← hsame]
        exact h
      · rw [← periodState, h] at hstep
        generalize c.periodState i n = s at hstep
        cases hstep

theorem since_zero_of_defined (h : c.state p = .defined) : c.Since p 0 := by
  refine ⟨Nat.zero_le _, ?_⟩
  intro n _ hn
  rw [h]
  cases p with
  | none =>
    obtain rfl : n = 0 := Nat.le_zero.1 hn
    rfl
  | some i =>
    rw [stateAt_eq hn]
    exact periodState_defined h (Nat.div_le_div_right hn)

theorem getStateSinceHeightFor_spec (hc : c.Scheduled) (hsound : c.Sound cache)
    (hordered : Ordered p) :
    ∃ (height : Nat) (cache' : Cache), c.getStateSinceHeightFor cache p =
      some ((height : Int), cache') ∧
      c.Sound cache' ∧ IsLeast {height | c.Since p height} height := by
  have hpos := c.period_pos
  obtain ⟨cache₁, hget, hsound₁⟩ := getStateFor_spec hc hsound hordered
  rw [getStateSinceHeightFor, if_neg (not_or.2 hc), hget, bind_some]
  by_cases hdefined : c.state p = .defined
  · exact ⟨0, cache₁, if_pos hdefined, hsound₁, since_zero_of_defined hdefined, fun _ _ =>
      Nat.zero_le _⟩
  · simp only [if_neg hdefined]
    cases p with
    | none => exact absurd rfl hdefined
    | some i =>
      -- the first period is over, as its state is the first one
      have hlong : ¬ i.nHeight + 1 < c.period := by
        intro hlt
        rw [state, Nat.div_eq_of_lt hlt] at hdefined
        exact hdefined rfl
      obtain ⟨n, hn⟩ : ∃ n, (i.nHeight + 1) / c.period = n + 1 :=
        Nat.exists_eq_succ_of_ne_zero (Nat.div_pos (Nat.le_of_not_lt hlong) hpos).ne'
      have hmul : (n + 1) * c.period ≤ i.nHeight + 1 := hn ▸ Nat.div_mul_le_self _ _
      have hone : c.period ≤ (n + 1) * c.period := Nat.le_mul_of_pos_left _ (Nat.succ_pos n)
      rw [bind_some, aligned_eq, if_neg hlong, hn, bind_some]
      have hstate : c.state (some i) = c.periodState i (n + 1) := by rw [state, hn]
      have hsame : ∀ k, k ≤ n + 1 →
          c.periodState (i.back ((n + 1) * c.period - 1)) k = c.periodState i k := by
        intro k hk
        apply periodState_back _ (by omega)
        rw [Nat.sub_add_cancel (by omega)]
        exact Nat.mul_le_mul_right _ hk
      obtain ⟨m, cache', hsince, hsound', hall, hm, hfirst⟩ := sinceLoop_spec hc hdefined
        (i := i.back ((n + 1) * c.period - 1)) (n := n)
        (by rw [Index.nHeight_back (by omega), Nat.sub_add_cancel (by omega)]) hsound₁
        (Index.Ordered.back hordered _) (by rw [hsame _ le_rfl, hstate])
      have hle : (m + 1) * c.period ≤ (n + 1) * c.period := Nat.mul_le_mul_right _ (by omega)
      refine ⟨(m + 1) * c.period, cache', hsince, hsound', ⟨hle.trans hmul, ?_⟩, ?_⟩
      · intro height hlow hhigh
        have hperiod : height / c.period ≤ n + 1 := hn ▸ Nat.div_le_div_right hhigh
        rw [stateAt_eq hhigh, ← hsame _ hperiod]
        exact hall _ ((Nat.le_div_iff_mul_le hpos).2 hlow) hperiod
      · intro lower hlower
        by_contra hlt
        have hlast : ((m + 1) * c.period - 1) / c.period = m := by
          apply Nat.div_eq_of_lt_le
          · rw [Nat.succ_mul]
            omega
          · omega
        have hheight : (m + 1) * c.period - 1 ≤ i.nHeight + 1 := by omega
        have := hlower.2 ((m + 1) * c.period - 1) (by omega) hheight
        rw [stateAt_eq hheight, hlast, ← hsame m (by omega)] at this
        exact hfirst this

/-! ## Along a chain -/

theorem state_pprev (i : Index) : c.state i.pprev = c.periodState i (i.nHeight / c.period) := by
  cases i with
  | genesis fields =>
    rw [Index.nHeight, Nat.zero_div]
    rfl
  | next pprev fields =>
    have hback : (Index.next pprev fields).back pprev.nHeight = pprev := by
      rw [Index.back_next le_rfl, Index.back_of_le le_rfl]
    have := state_back (c := c) (i := Index.next pprev fields) (Nat.le_succ pprev.nHeight)
    rw [hback] at this
    exact this

theorem state_step (i : Index) : c.state (some i) = c.state i.pprev ∨
    (c.period ∣ i.nHeight + 1 ∧ Allowed (c.state i.pprev) (c.state (some i))) := by
  rw [state_pprev, state, Nat.succ_div]
  by_cases hdvd : c.period ∣ i.nHeight + 1
  · rw [if_pos hdvd, periodState]
    rcases c.transition_allowed (c.periodState i (i.nHeight / c.period))
      (i.back ((i.nHeight / c.period + 1) * c.period - 1)) with hsame | hstep
    · exact .inl hsame
    · exact .inr ⟨hdvd, hstep⟩
  · rw [if_neg hdvd]
    exact .inl rfl

/-! ## Whole sequences of queries -/

def Query.about : Query → Option Index
  | .state p => p
  | .since p => p

def Right (c : Checker) : Query → Answer → Prop
  | .state p, .state s => s = c.state p
  | .since p, .height h => ∃ height : Nat, h = height ∧ IsLeast {height | c.Since p height} height ∧
      (c.state p = .defined → height = 0)
  | _, _ => False

theorem ask_spec (hc : c.Scheduled) (hsound : c.Sound cache) {q : Query}
    (hordered : Ordered q.about) :
    ∃ answer cache', c.ask cache q = some (answer, cache') ∧ c.Right q answer ∧ c.Sound cache' := by
  cases q with
  | state p =>
    obtain ⟨cache', hget, hsound'⟩ := getStateFor_spec (p := p) hc hsound hordered
    refine ⟨.state (c.state p), cache', ?_, rfl, hsound'⟩
    rw [ask, hget]
    rfl
  | since p =>
    obtain ⟨height, cache', hget, hsound', hleast⟩ :=
      getStateSinceHeightFor_spec (p := p) hc hsound hordered
    refine ⟨.height height, cache', ?_, ⟨height, rfl, hleast, ?_⟩, hsound'⟩
    · rw [ask, hget]
      rfl
    · intro hdefined
      exact Nat.le_zero.1 (hleast.2 (since_zero_of_defined hdefined))

theorem run_of_sound (hc : c.Scheduled) (hsound : c.Sound cache) {queries : List Query}
    (hordered : ∀ q ∈ queries, Ordered q.about) :
    ∃ answers, c.run cache queries = some answers ∧ Forall₂ c.Right queries answers := by
  induction queries generalizing cache with
  | nil => exact ⟨[], rfl, .nil⟩
  | cons q queries ih =>
    obtain ⟨answer, cache', hask, hright, hsound'⟩ := ask_spec hc hsound (hordered q (by simp))
    obtain ⟨answers, hrun, hall⟩ := ih hsound' fun q hq => hordered q (by simp [hq])
    refine ⟨answer :: answers, ?_, .cons hright hall⟩
    rw [run, hask, bind_some]
    show (c.run cache' queries).map (answer :: ·) = _
    rw [hrun, map_some]

/-- Queries about any blocks, sharing one cache, are answered from the chains alone, and along a
chain the state goes one way, from period to period. -/
theorem run_spec (hc : c.Scheduled) {queries : List Query}
    (hordered : ∀ q ∈ queries, Ordered q.about) :
    (∃ answers, c.run (fun _ => none) queries = some answers ∧ Forall₂ c.Right queries answers) ∧
    ∀ i : Index, c.state (some i) = c.state i.pprev ∨
      (c.period ∣ i.nHeight + 1 ∧ Allowed (c.state i.pprev) (c.state (some i))) :=
  ⟨run_of_sound hc sound_empty hordered, state_step⟩

/-! ## What activation takes -/

/-- The last block of a period of a chain. -/
def periodEnd (c : Checker) (i : Index) (n : Nat) : Index := i.back ((n + 1) * c.period - 1)

/-- What a chain has gone through before the period `n`, when that period has the state: the start
time has come, enough blocks of a later period signal, and a still later one reaches the activation
height. -/
def Earned (c : Checker) (i : Index) (n : Nat) : ThresholdState → Prop
  | .started => ∃ k < n, c.beginTime ≤ (c.periodEnd i k).getMedianTimePast
  | .lockedIn => ∃ l < n, c.threshold ≤ c.signalling (c.periodEnd i l) ∧
      ∃ k < l, c.beginTime ≤ (c.periodEnd i k).getMedianTimePast
  | .active => ∃ m < n, c.minActivationHeight ≤ (c.periodEnd i m).nHeight + 1 ∧
      ∃ l < m, c.threshold ≤ c.signalling (c.periodEnd i l) ∧
        ∃ k < l, c.beginTime ≤ (c.periodEnd i k).getMedianTimePast
  | _ => True

theorem Earned.succ {state : ThresholdState} (h : c.Earned i n state) :
    c.Earned i (n + 1) state := by
  cases state with
  | started | lockedIn | active =>
    obtain ⟨m, hm, hrest⟩ := h
    exact ⟨m, hm.trans n.lt_succ_self, hrest⟩
  | _ => trivial

theorem earned_periodState (i : Index) (n : Nat) : c.Earned i n (c.periodState i n) := by
  induction n with
  | zero => trivial
  | succ n ih =>
    rw [periodState, ← periodEnd]
    generalize c.periodState i n = state at ih
    cases state with
    | defined | started | lockedIn =>
      rw [transition]
      split_ifs with h
      all_goals first
        | exact ih.succ
        | exact trivial
        | exact ⟨n, n.lt_succ_self, h⟩
        | exact ⟨n, n.lt_succ_self, h, ih⟩
    | active | failed => exact ih.succ

/-- **Activation is earned.** Queries that share one cache are answered `ACTIVE` for a block only if
its chain has earned it. -/
theorem activation_earned (hc : c.Scheduled) {queries : List Query}
    (hordered : ∀ q ∈ queries, Ordered q.about) :
    ∃ answers, c.run (fun _ => none) queries = some answers ∧ ∀ i : Index,
      (Query.state (some i), Answer.state .active) ∈ queries.zip answers →
        c.Earned i ((i.nHeight + 1) / c.period) .active := by
  obtain ⟨answers, hrun, hright⟩ := run_of_sound hc sound_empty hordered
  refine ⟨answers, hrun, fun i hi => ?_⟩
  have hactive : ThresholdState.active = c.state (some i) := (forall₂_iff_zip.1 hright).2 hi
  have hearned := c.earned_periodState i ((i.nHeight + 1) / c.period)
  rwa [← state, ← hactive] at hearned

end Checker

/-! ## Deployments -/

/-- `BIP9Deployment`. -/
structure Deployment where
  bit : UInt32
  nStartTime : Int
  nTimeout : Int
  minActivationHeight : Int
  period : UInt32
  threshold : UInt32

namespace Deployment

/-- `Condition` of a version. -/
def condition (dep : Deployment) (nVersion : UInt32) : Bool :=
  nVersion &&& 0xE0000000 = 0x20000000 ∧ nVersion &&& (1 <<< dep.bit) ≠ 0

/-- `VersionBitsConditionChecker`, where the period is at least one as an `int`. -/
def checker (dep : Deployment) (h : 0 < dep.period.toInt32.toInt) : Checker where
  condition i := dep.condition i.fields.nVersion
  beginTime := dep.nStartTime
  endTime := dep.nTimeout
  minActivationHeight := dep.minActivationHeight
  period := dep.period.toInt32.toInt.toNat
  threshold := dep.threshold.toInt32.toInt
  period_pos := by omega

/-- Bit 3, from time 5 on, with one signal out of two blocks. -/
def pair : Deployment := ⟨3, 5, 100, 0, 2, 1⟩

/-- A chain of three blocks. -/
def rising : Index :=
  .next (.next (.genesis ⟨.filled 0, 1, 6, 0⟩) ⟨.filled 1, 1, 7, 0⟩)
    ⟨.filled 2, 0x20000008, 8, 0⟩

theorem pair_run_spec : Checker.Ordered (some rising) ∧
    ∃ answers, (pair.checker (by decide)).run (fun _ => none) [.since (some rising), .state none] =
      some answers ∧
    Forall₂ (pair.checker (by decide)).Right [.since (some rising), .state none] answers := by
  have hordered : Checker.Ordered (some rising) := ⟨⟨trivial, by decide +kernel⟩, by decide +kernel⟩
  refine ⟨hordered, (Checker.run_spec ⟨by decide, by decide⟩ ?_).1⟩
  intro q hq
  rcases mem_pair.1 hq with rfl | rfl
  · exact hordered
  · trivial

/-- Three blocks more. -/
def risen : Index :=
  .next (.next (.next rising ⟨.filled 3, 1, 9, 0⟩) ⟨.filled 4, 1, 10, 0⟩) ⟨.filled 5, 1, 11, 0⟩

theorem pair_activation_earned :
    (pair.checker (by decide)).run (fun _ => none) [.state (some risen)] =
        some [.state .active] ∧
      (pair.checker (by decide)).Earned risen 3 .active := by
  have hactive : (pair.checker (by decide)).run (fun _ => none) [.state (some risen)] =
      some [.state .active] := by decide +kernel
  have hordered : ∀ q ∈ [Checker.Query.state (some risen)], Checker.Ordered q.about := by
    refine forall_mem_singleton.2 ⟨⟨⟨⟨⟨trivial, ?_⟩, ?_⟩, ?_⟩, ?_⟩, ?_⟩
    all_goals decide +kernel
  obtain ⟨answers, hrun, hearned⟩ :=
    Checker.activation_earned (c := pair.checker (by decide)) ⟨by decide, by decide⟩ hordered
  obtain rfl := Option.some.inj (hactive.symm.trans hrun)
  exact ⟨hactive, hearned risen mem_cons_self⟩

end Deployment

end Soveroot.Chain
