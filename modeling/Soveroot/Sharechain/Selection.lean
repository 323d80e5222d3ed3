import Soveroot.Sharechain.Spec

/-!
# State selection

The second half of `evaluateGraph`. The shares are visited by sequence, so when a share is reached
its parent has been visited: the loop fails exactly at a share that is not placed, and otherwise
leaves the table `WorkOf`, in which the work of a share is its depth (`accumulate_cases`). The
selected tip is the `Forest.Best` share (`selectGraph_cases`).
-/

namespace Soveroot

open Py Check List

/-- A refusal by the reference validator, other than the one for a parent that has not been
visited yet. -/
def Refusal (e : Exn) : Prop :=
  ∃ reason detail, e = .profileError reason detail ∧
    (reason = .parentSequence → detail ≠ "parent must precede its child by sequence")

theorem Refusal.mk {reason : Reason} {detail : String} (h : reason ≠ .parentSequence) :
    Refusal (.profileError reason detail) := ⟨reason, detail, rfl, fun hr => absurd hr h⟩

/-! ## Accumulation -/

/-- The table of cumulative work after visiting the shares `done`. -/
def WorkOf (done : List Share) (cumulative : Dict Text Nat) : Prop :=
  ∀ id w, cumulative.get? id = some w ↔
    ∃ s ∈ done, s.shareId = id ∧ w = shareWorkUnits * (s.sequence + 1)

theorem WorkOf.empty : WorkOf [] Dict.empty := fun id w => by simp

variable {cumulative : Dict Text Nat} {s : Share} {done : List Share}

theorem WorkOf.set (h : WorkOf done cumulative) (hs : ∀ t ∈ done, t.shareId = s.shareId → t = s) :
    WorkOf (done ++ [s]) (cumulative.set s.shareId (shareWorkUnits * (s.sequence + 1))) := by
  intro id w
  rw [Dict.get?_set]
  split_ifs with hid
  · subst hid
    rw [Option.some.injEq]
    constructor
    · rintro rfl
      exact ⟨s, by simp, rfl, rfl⟩
    · rintro ⟨t, ht, hts, rfl⟩
      obtain ht | ht := mem_append.1 ht
      · rw [hs t ht hts]
      · rw [mem_singleton.1 ht]
  · rw [h id w]
    refine exists_congr fun t => ?_
    rw [mem_append, mem_singleton]
    constructor
    · rintro ⟨ht, hw⟩
      exact ⟨.inl ht, hw⟩
    · rintro ⟨ht | rfl, htid, hw⟩
      · exact ⟨ht, htid, hw⟩
      · exact absurd htid.symm hid

variable {l : List Share}

theorem rootSequence_of_roots
    (hroots : (l.filter (·.previousShareId = zeroId)).map Share.sequence = [0]) :
    ∀ r ∈ l, r.IsRoot → r.sequence = 0 := fun r hr hroot => by
  have hmem : r.sequence ∈ (l.filter (·.previousShareId = zeroId)).map Share.sequence :=
    mem_map_of_mem (mem_filter.2 ⟨hr, decide_eq_true hroot⟩)
  rwa [hroots, mem_singleton] at hmem

section

variable (hd : Distinct l) (hroot : ∀ r ∈ l, r.IsRoot → r.sequence = 0)
include hd hroot

/-- One step of the second loop, at a share all of whose predecessors have been visited. -/
theorem accumulate_cases (hs : s ∈ l)
    (hdone : ∀ t ∈ done, t ∈ l) (hearlier : ∀ p ∈ l, p.sequence < s.sequence → p ∈ done)
    (hcum : WorkOf done cumulative) :
    (Placed l s ∧ ∃ cumulative', accumulate (Index.ofShares l).byId cumulative s =
        .ok cumulative' ∧ WorkOf (done ++ [s]) cumulative') ∨
      (¬ Placed l s ∧ ∃ e, accumulate (Index.ofShares l).byId cumulative s = .error e ∧
        Refusal e) := by
  have hset := hcum.set fun t ht => hd.eq_of_shareId (hdone t ht) hs
  unfold accumulate
  by_cases hr : s.previousShareId = zeroId
  · rw [if_pos hr, pure_eq_ok]
    rw [hroot s hs hr, zero_add, mul_one] at hset
    exact .inl ⟨.inl hr, _, rfl, hset⟩
  rw [if_neg hr]
  cases hp : (Index.ofShares l).byId.get? s.previousShareId with
  | none =>
    refine .inr ⟨?_, _, rfl, .mk (by decide)⟩
    rintro (h | ⟨p, hpl, hext⟩)
    · exact hr h
    · rw [hd.get?_byId.2 ⟨hpl, hext.parent.symm⟩] at hp
      cases hp
  | some p =>
    obtain ⟨hpl, hpid⟩ := hd.get?_byId.1 hp
    -- the parent is determined, so the share is placed only by extending `p`
    have hplaced : Placed l s ↔ s.sequence = p.sequence + 1 ∧ Transition p s := by
      constructor
      · rintro (h | ⟨q, hq, hext⟩)
        · exact absurd h hr
        · obtain rfl := hd.eq_of_shareId hq hpl (hext.parent.symm.trans hpid.symm)
          exact ⟨hext.sequence, hext.transition⟩
      · rintro ⟨hseq, htrans⟩
        exact .inr ⟨p, hpl, hpid.symm, hseq, htrans⟩
    rw [orRaise_some, ok_bind, hplaced]
    by_cases hseq : s.sequence = p.sequence + 1
    · have hwork : cumulative.get? s.previousShareId =
          some (shareWorkUnits * (p.sequence + 1)) :=
        (hcum _ _).2 ⟨p, hearlier p hpl (by omega), hpid, rfl⟩
      rw [require_of_pos hseq, ok_bind, hwork, orRaise_some, ok_bind]
      obtain ⟨ht, hok⟩ | ⟨ht, d, herr⟩ := checkTransition_cases p s
      · rw [hok, ok_bind, pure_eq_ok]
        rw [hseq, Nat.mul_add_one _ (p.sequence + 1)] at hset
        exact .inl ⟨⟨hseq, ht⟩, _, rfl, hset⟩
      · rw [herr, error_bind]
        exact .inr ⟨fun h => ht h.2, _, rfl, .mk (by decide)⟩
    · rw [require_of_neg hseq, error_bind]
      exact .inr ⟨fun h => hseq h.1, _, rfl, _, _, rfl, fun _ => by decide⟩

/-- The second loop: it fails exactly when some share is not placed. -/
theorem foldlM_accumulate_cases :
    let loop := (l.insertionSort fun a b => a.sequence ≤ b.sequence).foldlM
      (accumulate (Index.ofShares l).byId) Dict.empty
    ((∀ s ∈ l, Placed l s) ∧ ∃ cumulative, loop = .ok cumulative ∧ WorkOf l cumulative) ∨
      ((¬ ∀ s ∈ l, Placed l s) ∧ ∃ e, loop = .error e ∧ Refusal e) := by
  intro loop
  have hmem : ∀ s, s ∈ l.insertionSort (fun a b => a.sequence ≤ b.sequence) ↔ s ∈ l :=
    fun s => (perm_insertionSort _ l).mem_iff
  have hsorted := pairwise_insertionSort (fun a b : Share => a.sequence ≤ b.sequence) l
  have hcases := foldlM_cases (f := accumulate (Index.ofShares l).byId) (g := Placed l)
    (E := Refusal) (P := WorkOf) (l := l.insertionSort fun a b => a.sequence ≤ b.sequence)
    WorkOf.empty fun done s rest cumulative hl hcum => by
      have hall : ∀ t, t ∈ done ++ s :: rest ↔ t ∈ l := fun t => by rw [← hl]; exact hmem t
      refine accumulate_cases hd hroot ((hall s).1 (by simp))
        (fun t ht => (hall t).1 (by simp [ht])) (fun p hp hlt => ?_) hcum
      -- whatever has not been visited has a sequence at least as large
      rw [hl, pairwise_append, pairwise_cons] at hsorted
      obtain hp | hp := mem_append.1 ((hall p).2 hp)
      · exact hp
      · obtain rfl | hp := mem_cons.1 hp
        · omega
        · exact absurd (hsorted.2.1.1 p hp) (by omega)
  simpa only [hmem, WorkOf] using hcases

end

/-! ## The selected tip -/

variable {id : Text}

theorem mem_tipIds (hd : Distinct l) : id ∈ tipIds (Index.ofShares l) ↔
      id ∈ l.map Share.shareId ∧ ∀ s ∈ l, s.previousShareId ≠ zeroId → s.previousShareId ≠ id := by
  rw [tipIds, hd.keys_byId, mem_filter]
  refine and_congr_right fun _ => ?_
  simp only [Index.ofShares, all_eq_true, mem_map, mem_filter, decide_eq_true_eq]
  constructor
  · intro h s hs hroot
    exact h _ ⟨s, ⟨hs, hroot⟩, rfl⟩
  · intro h p hp
    obtain ⟨s, ⟨hs, hroot⟩, rfl⟩ := hp
    exact h s hs hroot

variable {t : Share}

theorem mem_tipIds_of_max (hd : Distinct l) (hl : Linked l) (ht : t ∈ l)
    (hmax : ∀ s ∈ l, s.sequence ≤ t.sequence) : t.shareId ∈ tipIds (Index.ofShares l) := by
  refine (mem_tipIds hd).2 ⟨mem_map_of_mem ht, fun s hs hroot hprev => ?_⟩
  have hrank := (hl.ranked hd).rank_link t ht s hs ⟨hroot, hprev⟩
  have hle := hmax s hs
  omega

section

variable (hd : Distinct l) (hl : Linked l) (hcum : WorkOf l cumulative)
  (ht : Forest.Best Share.sequence Share.shareId l t)
include hd hl hcum ht

theorem bestTipWork_eq_ok :
    bestTipWork cumulative (tipIds (Index.ofShares l)) =
      .ok (shareWorkUnits * (t.sequence + 1)) := by
  have hwork : ∀ s ∈ l, cumulative.get? s.shareId = some (shareWorkUnits * (s.sequence + 1)) :=
    fun s hs => (hcum _ _).2 ⟨s, hs, rfl, rfl⟩
  have htips : ∀ id ∈ tipIds (Index.ofShares l), ∃ s ∈ l, s.shareId = id := fun id hid => by
    simpa using ((mem_tipIds hd).1 hid).1
  have hmap : (tipIds (Index.ofShares l)).mapM
        (fun id => orRaise (cumulative.get? id) Exn.keyError) =
      .ok ((tipIds (Index.ofShares l)).map fun id => (cumulative.get? id).getD 0) := by
    refine mapM_eq_ok_map fun id hid => ?_
    obtain ⟨s, hs, rfl⟩ := htips id hid
    rw [hwork s hs]
    rfl
  rw [bestTipWork, hmap, ok_bind, orRaise_eq_ok, max?_eq_some_iff]
  constructor
  · refine mem_map.2 ⟨t.shareId, mem_tipIds_of_max hd hl ht.mem ht.rank_le, ?_⟩
    rw [hwork t ht.mem, Option.getD_some]
  · intro w hw
    obtain ⟨id, hid, rfl⟩ := mem_map.1 hw
    obtain ⟨s, hs, rfl⟩ := htips id hid
    rw [hwork s hs, Option.getD_some]
    exact Nat.mul_le_mul_left _ (Nat.succ_le_succ (ht.rank_le s hs))

theorem mem_filter_best :
    id ∈ ((tipIds (Index.ofShares l)).filter fun id =>
        cumulative.get? id = some (shareWorkUnits * (t.sequence + 1))) ↔
      ∃ s ∈ l, s.shareId = id ∧ s.sequence = t.sequence := by
  have hunits : 0 < shareWorkUnits := by rw [shareWorkUnits_eq]; decide
  rw [mem_filter, decide_eq_true_eq, hcum]
  constructor
  · rintro ⟨-, s, hs, rfl, hw⟩
    have hseq := Nat.eq_of_mul_eq_mul_left hunits hw
    exact ⟨s, hs, rfl, by omega⟩
  · rintro ⟨s, hs, rfl, hseq⟩
    refine ⟨mem_tipIds_of_max hd hl hs fun u hu => ?_, s, hs, rfl, by rw [hseq]⟩
    rw [hseq]
    exact ht.rank_le u hu

theorem min?_filter_best :
    ((tipIds (Index.ofShares l)).filter fun id =>
      cumulative.get? id = some (shareWorkUnits * (t.sequence + 1))).min? = some t.shareId := by
  rw [min?_eq_some_iff]
  constructor
  · exact (mem_filter_best hd hl hcum ht).2 ⟨t, ht.mem, rfl, rfl⟩
  · intro id hid
    obtain ⟨s, hs, rfl, hseq⟩ := (mem_filter_best hd hl hcum ht).1 hid
    exact ht.key_le s hs hseq

end

/-! ## Walking back -/

theorem walkBack_zeroId (byId : Dict Text Share) (fuel : Nat) :
    walkBack byId (fuel + 1) zeroId = .ok [] := if_pos rfl

theorem walkBack_share (hd : Distinct l) (hs : s ∈ l) (hzero : s.shareId ≠ zeroId) (fuel : Nat) :
    walkBack (Index.ofShares l).byId (fuel + 1) s.shareId =
      (walkBack (Index.ofShares l).byId fuel s.previousShareId).map (s.shareId :: ·) := by
  rw [walkBack, if_neg hzero, hd.get?_byId.2 ⟨hs, rfl⟩, orRaise_some, ok_bind]
  cases walkBack (Index.ofShares l).byId fuel s.previousShareId <;> rfl

theorem walkBack_isOk (hd : Distinct l) (hl : Linked l) :
    ∀ (fuel : Nat) {s : Share}, s ∈ l → s.sequence + 2 ≤ fuel →
      ∃ ids, walkBack (Index.ofShares l).byId fuel s.shareId = .ok ids ∧
        ∀ id ∈ ids, id ∈ l.map Share.shareId
  | 0, s, _, h => absurd h (by omega)
  | fuel + 1, s, hs, h => by
    by_cases hzero : s.shareId = zeroId
    · exact ⟨[], by rw [hzero, walkBack_zeroId], by simp⟩
    -- the walk goes on from the parent, which is one closer to the root
    obtain ⟨ids, hids, hsub⟩ : ∃ ids,
        walkBack (Index.ofShares l).byId fuel s.previousShareId = .ok ids ∧
          ∀ id ∈ ids, id ∈ l.map Share.shareId := by
      obtain hr | ⟨p, hp, hext⟩ := hl.placed s hs
      · obtain ⟨fuel, rfl⟩ : ∃ k, fuel = k + 1 := ⟨fuel - 1, by omega⟩
        exact ⟨[], by rw [show s.previousShareId = zeroId from hr, walkBack_zeroId], by simp⟩
      · rw [hext.parent]
        exact walkBack_isOk hd hl fuel hp (by have := hext.sequence; omega)
    rw [walkBack_share hd hs hzero, hids]
    refine ⟨s.shareId :: ids, rfl, fun id hid => ?_⟩
    obtain rfl | hid := mem_cons.1 hid
    · exact mem_map_of_mem hs
    · exact hsub id hid

/-- The walk from the end of a branch returns the branch, provided no identifier on it is the
one the walk stops at. -/
theorem walkBack_branch (hd : Distinct l) {chain : List Share}
    (h : Forest.Branch Share.IsRoot Share.IsParent s chain) (hsub : ∀ u ∈ chain, u ∈ l)
    (hzero : ∀ u ∈ chain, u.shareId ≠ zeroId) {fuel : Nat} (hfuel : chain.length < fuel) :
    walkBack (Index.ofShares l).byId fuel s.shareId = .ok (chain.map Share.shareId).reverse := by
  induction h generalizing fuel with
  | @root s hr =>
    obtain ⟨fuel, rfl⟩ : ∃ k, fuel = k + 2 := ⟨fuel - 2, by simp at hfuel; omega⟩
    rw [walkBack_share hd (hsub s (by simp)) (hzero s (by simp)),
      show s.previousShareId = zeroId from hr, walkBack_zeroId]
    rfl
  | @snoc p s chain hlink _ ih =>
    obtain ⟨fuel, rfl⟩ : ∃ k, fuel = k + 1 := ⟨fuel - 1, by omega⟩
    rw [walkBack_share hd (hsub s (by simp)) (hzero s (by simp)), hlink.2,
      ih (fun u hu => hsub u (by simp [hu])) (fun u hu => hzero u (by simp [hu]))
        (by simp at hfuel; omega)]
    simp [Except.map]

/-! ## The selected state -/

variable {byId : Dict Text Share}

/-- `settle` reads the shares through their identifiers only. -/
theorem settle_congr {byId' : Dict Text Share} (hget : ∀ k, byId.get? k = byId'.get? k)
    (hsize : byId.size = byId'.size) (work finality window : Nat) (tip : Text) (bestWork : Nat) :
    settle work finality window byId tip bestWork =
      settle work finality window byId' tip bestWork := by
  have hwalk : ∀ fuel cursor, walkBack byId fuel cursor = walkBack byId' fuel cursor := by
    intro fuel
    induction fuel with
    | zero => exact fun _ => rfl
    | succ fuel ih => intro cursor; simp only [walkBack, hget, ih]
  have hcredit : creditShare work byId = creditShare work byId' := by
    funext grouped id
    simp only [creditShare, hget]
  simp only [settle, hwalk, hsize, hcredit]

variable {finality window : Nat}

theorem mem_of_mem_windowOf {path : List Text}
    (h : id ∈ windowOf window (finalizedOf finality path)) : id ∈ path := by
  have hfin := mem_of_mem_drop h
  unfold finalizedOf at hfin
  split_ifs at hfin
  · exact mem_of_mem_take hfin
  · cases hfin

theorem settle_isOk (hd : Distinct l) (hl : Linked l) (ht : t ∈ l)
    (work finality window bestWork : Nat) :
    ∃ st, settle work finality window (Index.ofShares l).byId t.shareId bestWork = .ok st := by
  have hfuel : t.sequence + 2 ≤ (Index.ofShares l).byId.size + 1 := by
    have := (hl.ranked hd).rank_lt_length ht
    rw [hd.size_byId]
    omega
  obtain ⟨ids, hids, hsub⟩ := walkBack_isOk hd hl _ ht hfuel
  obtain ⟨grouped, hgrouped, -⟩ := foldlM_total (f := creditShare work (Index.ofShares l).byId)
    (P := fun rest _ => ∀ id ∈ rest, id ∈ l.map Share.shareId) (b := Dict.empty)
    (l := windowOf window (finalizedOf finality ids.reverse)) (by
      intro id rest grouped hrest
      obtain ⟨s, hs, hsid⟩ := mem_map.1 (hrest id (by simp))
      rw [creditShare, hd.get?_byId.2 ⟨hs, hsid⟩]
      exact ⟨_, rfl, fun id' hid' => hrest id' (mem_cons_of_mem _ hid')⟩)
    (fun id hid => hsub id (by simpa using mem_of_mem_windowOf hid))
  simp only [settle, hids, ok_bind, hgrouped, pure_eq_ok, Except.ok.injEq, exists_eq']

variable {st : GraphState}

theorem settle_eq_ok {work : Nat} {tip : Text} {bestWork : Nat}
    (h : settle work finality window byId tip bestWork = .ok st) :
    st.selectedTipShareId = tip ∧ st.selectedCumulativeWork = bestWork ∧
      walkBack byId (byId.size + 1) tip = .ok st.selectedPathShareIds.reverse := by
  simp only [settle, bind_eq_ok, pure_eq_ok, Except.ok.injEq] at h
  obtain ⟨walked, hwalked, grouped, -, rfl⟩ := h
  exact ⟨rfl, rfl, by simpa using hwalked⟩

/-- **Selection.** On the index of a list without repeated identifiers, `selectGraph` succeeds
exactly on the linked lists, and settles on the best share; otherwise it refuses. -/
theorem selectGraph_cases (hd : Distinct l) :
    (Linked l ∧ ∃ t st, Forest.Best Share.sequence Share.shareId l t ∧
      settle shareWorkUnits finalityDepth payoutWindow (Index.ofShares l).byId t.shareId
        (shareWorkUnits * (t.sequence + 1)) = .ok st ∧
      selectGraph (Index.ofShares l) = .ok st) ∨
    (¬ Linked l ∧ ∃ e, selectGraph (Index.ofShares l) = .error e ∧ Refusal e) := by
  have hshares : (Index.ofShares l).shares = l := rfl
  simp only [selectGraph, hshares]
  by_cases hroots : (l.filter (·.previousShareId = zeroId)).map Share.sequence = [0]
  · rw [require_of_pos hroots, ok_bind]
    obtain ⟨hplaced, cumulative, hok, hcum⟩ | ⟨hplaced, e, herr, he⟩ :=
      foldlM_accumulate_cases hd (rootSequence_of_roots hroots)
    · have hl : Linked l := ⟨hroots, hplaced⟩
      obtain ⟨t, ht⟩ := Forest.Best.exists Share.sequence Share.shareId hl.ne_nil
      obtain ⟨st, hst⟩ := settle_isOk hd hl ht.mem shareWorkUnits finalityDepth payoutWindow
        (shareWorkUnits * (t.sequence + 1))
      refine .inl ⟨hl, t, st, ht, hst, ?_⟩
      rw [hok, ok_bind, bestTipWork_eq_ok hd hl hcum ht, ok_bind,
        min?_filter_best hd hl hcum ht, orRaise_some, ok_bind, hst]
    · rw [herr, error_bind]
      exact .inr ⟨fun hl => hplaced hl.placed, e, rfl, he⟩
  · rw [require_of_neg hroots, error_bind]
    exact .inr ⟨fun hl => hroots hl.root, _, rfl, .mk (by decide)⟩

/-! ## Acceptance -/

variable {sha256 : HashFn} {roundsDocument : Json}

/-- Once the documents have validated, `evaluateGraph` is a function of the shares. -/
theorem evaluateGraph_of_validates {rounds : RoundTable} {values : List Json}
    (hrounds : validateRounds roundsDocument = .ok rounds) (hv : Validates sha256 rounds values l)
    (hd : Distinct l) (hne : l ≠ []) (hmax : l.length ≤ maxShares) :
    evaluateGraph sha256 (.arr values) roundsDocument = selectGraph (Index.ofShares l) := by
  have hlen : 1 ≤ values.length ∧ values.length ≤ maxShares := by
    rw [hv.length_eq]
    exact ⟨length_pos_iff.2 hne, hmax⟩
  have hix : values.foldlM (indexShare sha256 rounds) Index.empty = .ok (Index.ofShares l) :=
    (foldlM_indexShare_eq_ok distinct_nil).2 ⟨l, hv, hd, rfl⟩
  rw [evaluateGraph, hrounds, ok_bind, Json.asArr, Option.filter_some,
    if_pos (decide_eq_true hlen), orRaise_some, ok_bind, hix, ok_bind]

/-- **Acceptance.** The reference validator accepts the lists of at most 4096 documents that
validate to shares without repeated identifiers that are linked, and returns the state of the
best share. -/
theorem evaluateGraph_eq_ok {shares : Json} : evaluateGraph sha256 shares roundsDocument = .ok st ↔
      ∃ rounds values l, validateRounds roundsDocument = .ok rounds ∧ shares = .arr values ∧
        values.length ≤ maxShares ∧ Validates sha256 rounds values l ∧ Distinct l ∧ Linked l ∧
        ∃ t, Forest.Best Share.sequence Share.shareId l t ∧
          settle shareWorkUnits finalityDepth payoutWindow (Index.ofShares l).byId t.shareId
            (shareWorkUnits * (t.sequence + 1)) = .ok st := by
  constructor
  · intro h
    simp only [evaluateGraph, bind_eq_ok, orRaise_eq_ok, Option.filter_eq_some_iff,
      decide_eq_true_eq, Json.asArr_eq_some] at h
    obtain ⟨rounds, hrounds, values, ⟨rfl, -, hmax⟩, ix, hix, hsel⟩ := h
    obtain ⟨l, hv, hd, rfl⟩ := (foldlM_indexShare_eq_ok distinct_nil).1 hix
    obtain ⟨hl, t, st', ht, hst, hok⟩ | ⟨-, e, herr, -⟩ := selectGraph_cases hd
    · obtain rfl : st' = st := Except.ok.inj (hok.symm.trans hsel)
      exact ⟨rounds, values, l, hrounds, rfl, hmax, hv, hd, hl, t, ht, hst⟩
    · rw [herr] at hsel
      cases hsel
  · rintro ⟨rounds, values, l, hrounds, rfl, hmax, hv, hd, hl, t, ht, hst⟩
    rw [evaluateGraph_of_validates hrounds hv hd hl.ne_nil (by rwa [← hv.length_eq])]
    obtain ⟨-, t', st', ht', hst', hok⟩ | ⟨hnl, -⟩ := selectGraph_cases hd
    · obtain rfl := ht.unique ht' hd.shareIds
      rw [hok, ← hst, hst']
    · exact absurd hl hnl

end Soveroot
