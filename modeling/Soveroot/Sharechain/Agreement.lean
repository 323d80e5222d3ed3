import Soveroot.Sharechain.Independent
import Soveroot.Sharechain.Selection

/-!
# The two validators agree

The independent validator asks the same questions as the reference, in another order and with
some of them merged. Merged questions have one reason code in both programs, so the first failing
reason is the same, and so is the state on success. The comparison is built up with `Check.Agree`,
function by function.
-/

namespace Soveroot

open Py Check Option

def SameReason (e e' : Exn) : Prop :=
  ∃ reason detail, e = .profileError reason detail ∧ e' = .reject reason

theorem SameReason.mk {reason : Reason} {detail : String} :
    SameReason (.profileError reason detail) (.reject reason) := ⟨_, _, rfl, rfl⟩

/-- The runs agree, with equal results. -/
abbrev Same {α : Type} : Except Exn α → Except Exn α → Prop := Agree SameReason Eq

/-- The table of the independent validator holds the template commitments of the reference's. -/
def SameTable (rounds : RoundTable) (table : Independent.Table) : Prop :=
  ∀ k, table.get? k = (rounds.get? k).map Round.templateCommitment

/-! ## The constants -/

theorem shareLimitText_eq : Independent.shareLimitText = shareTargetHex := by decide +kernel

theorem shareLimit_eq : Independent.shareLimit = shareTarget := by
  rw [Independent.shareLimit, shareLimitText_eq, shareTarget]

theorem networkLimit_eq : Independent.networkLimit = networkTarget := by decide +kernel

theorem workPerShare_eq : Independent.workPerShare = shareWorkUnits := by
  rw [shareWorkUnits_eq, Independent.workPerShare]

/-! ## Fields -/

theorem hexField_same (value : Json) (size : Nat) (reason : Reason) (label : String) :
    Same (requireHex value size reason label) (Independent.hexField value size reason) := by
  refine (Agree.orRaise .mk).bind ?_
  rintro t _ ⟨rfl, -⟩
  refine (Agree.orRaise .mk).bind ?_
  rintro b _ ⟨rfl, -⟩
  exact Agree.ok rfl

/-! ## The round tables -/

variable {rounds : RoundTable} {table : Independent.Table}

section

variable (h : SameTable rounds table)
include h

theorem SameTable.contains (k : Int × Text) :
    rounds.contains k = table.contains k := by
  rw [Dict.contains, Dict.contains, h k, isSome_map]

theorem SameTable.set (k : Int × Text) (r : Round) :
    SameTable (rounds.set k r) (table.set k r.templateCommitment) := by
  intro j
  rw [Dict.get?_set, Dict.get?_set]
  split_ifs
  · rfl
  · exact h j

theorem checkRound_same (value : Json) :
    Agree SameReason SameTable (validateRound rounds value)
    (Independent.checkRound table value) := by
  refine (Agree.orRaise .mk).bind ?_
  rintro item _ ⟨rfl, -⟩
  refine (Agree.orRaise .mk).bind ?_
  rintro height _ ⟨rfl, -⟩
  refine (hexField_same _ _ _ _).bind ?_
  rintro previous _ rfl
  refine (hexField_same _ _ _ _).bind ?_
  rintro template _ rfl
  -- the independent validator checks the bits and the repetition at once
  refine Agree.require_split .mk .mk (by rw [h.contains]; rfl) ?_
  exact fun _ => Agree.ok (h.set _ _)

end

theorem checkRoundTable_same (value : Json) :
    Agree SameReason SameTable (validateRounds value) (Independent.checkRoundTable value) := by
  refine (Agree.orRaise .mk).bind ?_
  rintro items _ ⟨rfl, -⟩
  exact Agree.foldlM (fun _ _ v h => checkRound_same h v) items fun _ => rfl

/-! ## One share -/

/-- The script is checked for length, digits and case by the reference, for length, case and
digits by the independent validator. -/
theorem checkScript_same (value : Json) :
    Same (validateScript value) (Independent.checkScript value) := by
  unfold validateScript Independent.checkScript
  cases value.asText with
  | none => exact Agree.error .mk
  | some t =>
    simp only [filter_some, decide_eq_true_eq]
    split_ifs with hlen hboth hboth
    · rw [orRaise_some, orRaise_some, ok_bind, ok_bind, require_of_pos hboth.2.2.2]
      refine (Agree.orRaise .mk).bind ?_
      exact fun _ _ _ => Agree.ok rfl
    · have hlow : ¬ t = lower t := fun h => hboth ⟨hlen.1, hlen.2.1, hlen.2.2, h⟩
      rw [orRaise_some, ok_bind, require_of_neg hlow]
      cases fromHex t <;> exact Agree.error .mk
    · exact absurd ⟨hboth.1, hboth.2.1, hboth.2.2.1⟩ hlen
    · exact Agree.error .mk

theorem context_same (h : SameTable rounds table) (k : Int × Text) (template : Text)
    (detail : String) : Agree SameReason (fun _ _ => True)
      (orRaise ((rounds.get? k).filter fun r => r.templateCommitment = template)
        (.profileError .untrustedRoundContext detail))
      (require (table.get? k = some template) (Exn.reject .untrustedRoundContext)) := by
  rw [h k]
  cases rounds.get? k with
  | none => exact Agree.error .mk
  | some r =>
    simp only [filter_some, map_some, Option.some.injEq, decide_eq_true_eq, require]
    split_ifs
    · exact Agree.ok trivial
    · exact Agree.error .mk

theorem checkShare_same (sha256 : HashFn) (h : SameTable rounds table) (value : Json) :
    Same (validateShare sha256 value rounds) (Independent.checkShare sha256 value table) := by
  refine (Agree.orRaise .mk).bind ?_
  rintro share _ ⟨rfl, -⟩
  refine (Agree.require Iff.rfl .mk).bind fun _ _ _ => ?_
  refine (Agree.orRaise .mk).bind ?_
  rintro sequence _ ⟨rfl, -⟩
  refine (Agree.orRaise .mk).bind ?_
  rintro roundHeight _ ⟨rfl, -⟩
  iterate 6
    refine (hexField_same _ _ _ _).bind ?_
    rintro _ _ rfl
  refine (Agree.require (by rw [shareLimitText_eq]) .mk).bind fun _ _ _ => ?_
  refine (Agree.require Iff.rfl .mk).bind fun _ _ _ => ?_
  refine (context_same h _ _ _).bind fun _ _ _ => ?_
  refine (checkScript_same _).bind ?_
  rintro script _ rfl
  iterate 3
    refine (Agree.orRaise .mk).bind ?_
    rintro _ _ ⟨rfl, -⟩
  iterate 4 refine (Agree.require Iff.rfl .mk).bind fun _ _ _ => ?_
  refine (Agree.require (by rw [shareLimit_eq]; rfl) .mk).bind fun _ _ _ => ?_
  refine (Agree.require (by rw [networkLimit_eq]; rfl) .mk).bind fun _ _ _ => ?_
  refine (Agree.require Iff.rfl .mk).bind fun _ _ _ => ?_
  refine (Agree.require Iff.rfl .mk).bind fun _ _ _ => ?_
  exact Agree.ok rfl

/-! ## The graph -/

theorem indexItem_same (sha256 : HashFn) (h : SameTable rounds table) (ix : Index) (value : Json) :
    Same (indexShare sha256 rounds ix value) (Independent.indexItem sha256 table ix value) := by
  refine (checkShare_same sha256 h value).bind ?_
  rintro share _ rfl
  refine (Agree.require Iff.rfl .mk).bind fun _ _ _ => ?_
  cases ix.byWork.get? share.workId with
  | none => exact Agree.ok rfl
  | some prior =>
    refine (Agree.require Iff.rfl .mk).bind fun _ _ _ => ?_
    exact Agree.error .mk

theorem checkTransition_same (parent share : Share) :
    Same (checkTransition parent share) (Independent.checkTransition parent share) := by
  unfold checkTransition Independent.checkTransition
  split_ifs
  · exact (Agree.require Iff.rfl .mk).imp fun _ _ _ => rfl
  · exact (Agree.require Iff.rfl .mk).imp fun _ _ _ => rfl

theorem accumulate_same (byId : Dict Text Share) (cumulative : Dict Text Nat) (share : Share) :
    Same (accumulate byId cumulative share) (Independent.accumulate byId cumulative share) := by
  unfold accumulate Independent.accumulate
  rw [workPerShare_eq, show Independent.zero = zeroId from rfl]
  split_ifs
  · exact Agree.ok rfl
  refine (Agree.orRaise .mk).bind ?_
  rintro parent _ ⟨rfl, -⟩
  -- the independent validator asks for the sequence and the visited parent at once
  by_cases hseq : share.sequence = parent.sequence + 1
  · have hfilter : ((cumulative.get? share.previousShareId).filter fun _ =>
        share.sequence = parent.sequence + 1) = cumulative.get? share.previousShareId := by
      cases cumulative.get? share.previousShareId <;> simp [filter_some, hseq]
    rw [require_of_pos hseq, ok_bind, hfilter]
    refine (Agree.orRaise .mk).bind ?_
    rintro work _ ⟨rfl, -⟩
    refine (checkTransition_same parent share).bind fun _ _ _ => ?_
    exact Agree.ok rfl
  · rw [require_of_neg hseq, error_bind,
      filter_eq_none_iff.2 fun _ _ => by simpa using hseq]
    exact Agree.error .mk

theorem head?_insertionSort (ids : List Text) :
    (ids.insertionSort (· ≤ ·)).head? = ids.min? := by
  have hperm := List.perm_insertionSort (· ≤ ·) ids
  have hsorted := List.pairwise_insertionSort (· ≤ ·) ids
  cases hs : ids.insertionSort (· ≤ ·) with
  | nil =>
    rw [hs] at hperm
    rw [hperm.symm.eq_nil]
    rfl
  | cons a rest =>
    rw [hs] at hperm hsorted
    refine (List.min?_eq_some_iff.2 ⟨hperm.mem_iff.1 (by simp), fun b hb => ?_⟩).symm
    obtain rfl | hb := List.mem_cons.1 (hperm.mem_iff.2 hb)
    · exact le_rfl
    · exact (List.pairwise_cons.1 hsorted).1 b hb

theorem selectIndex_same {l : List Share} (hd : Distinct l) :
    Same (selectGraph (Index.ofShares l)) (Independent.selectIndex (Index.ofShares l)) := by
  have hloop := Agree.foldlM (S := Eq) (f := accumulate (Index.ofShares l).byId)
    (g := Independent.accumulate (Index.ofShares l).byId)
    (by rintro cumulative _ share rfl; exact accumulate_same _ cumulative share)
    (l.insertionSort fun a b => a.sequence ≤ b.sequence) (rfl : Dict.empty = Dict.empty)
  refine (Agree.require Iff.rfl .mk).bind fun _ _ hroots => ?_
  refine hloop.bind_of_ok ?_
  rintro cumulative _ hok rfl
  obtain ⟨hplaced, cumulative', hok', hcum⟩ | ⟨-, e, herr, -⟩ :=
    foldlM_accumulate_cases hd (rootSequence_of_roots hroots)
  · obtain rfl := Except.ok.inj (hok.symm.trans hok')
    have hl : Linked l := ⟨hroots, hplaced⟩
    obtain ⟨t, ht⟩ := Forest.Best.exists Share.sequence Share.shareId hl.ne_nil
    obtain ⟨st, hst⟩ := settle_isOk hd hl ht.mem shareWorkUnits finalityDepth payoutWindow
      (shareWorkUnits * (t.sequence + 1))
    have htips : Independent.tipIds (Index.ofShares l) = tipIds (Index.ofShares l) := rfl
    simp only [htips, bestTipWork_eq_ok hd hl hcum ht, ok_bind, head?_insertionSort,
      min?_filter_best hd hl hcum ht, orRaise_some, workPerShare_eq]
    rw [show Independent.finality = finalityDepth from rfl,
      show Independent.window = payoutWindow from rfl, hst]
    exact Agree.ok rfl
  · rw [herr] at hok
    cases hok

theorem selectState_same (sha256 : HashFn) (shares rounds : Json) :
    Same (evaluateGraph sha256 shares rounds) (Independent.selectState sha256 shares rounds) := by
  refine (checkRoundTable_same rounds).bind fun table table' h => ?_
  refine (Agree.orRaise .mk).bind ?_
  rintro values _ ⟨rfl, -⟩
  refine (Agree.foldlM (S := Eq) ?_ values (rfl : Index.empty = Index.empty)).bind_of_ok ?_
  · rintro ix _ value rfl
    exact indexItem_same sha256 h ix value
  · rintro ix _ hix rfl
    obtain ⟨l, -, hd, rfl⟩ := (foldlM_indexShare_eq_ok distinct_nil).1 hix
    exact selectIndex_same hd

/-- **Agreement.** On every pair of JSON values, the two validators accept with the same state or
refuse with the same reason code, and nothing else happens. -/
theorem validators_agree (sha256 : HashFn) (shares rounds : Json) :
    (∃ st, evaluateGraph sha256 shares rounds = .ok st ∧
      Independent.selectState sha256 shares rounds = .ok st) ∨
    ∃ reason detail, evaluateGraph sha256 shares rounds = .error (.profileError reason detail) ∧
      Independent.selectState sha256 shares rounds = .error (.reject reason) := by
  obtain ⟨st, _, hx, hy, rfl⟩ | ⟨_, _, hx, hy, reason, detail, rfl, rfl⟩ :=
    (selectState_same sha256 shares rounds).cases
  · exact .inl ⟨st, hx, hy⟩
  · exact .inr ⟨reason, detail, hx, hy⟩

end Soveroot
