import Mathlib.Data.List.Dedup
import Soveroot.Accounting.Collection

/-!
# Claims

`receipt_set_document` and `build_claims`. The block candidates among the receipts are grouped by
payout script; a group's claim is the work its receipts show, over the work of all of them. None of
it depends on the order of the receipts (`claimsOf_perm`).
-/

namespace Soveroot.Accounting

open Py Check List

/-! ## The receipt set -/

def commitmentBody (ordered : List Receipt) : Json :=
  .arr (ordered.map fun r =>
    .obj [(ascii "receipt_id_sha256", .str r.receiptId), (ascii "work_id_sha256", .str r.workId)])

structure ReceiptSet where
  receiptCount : Nat
  commitment : Text
  receipts : List Receipt

/-- The receipt set of receipts that are known to be a collection. -/
def receiptSetOf (sha256 : HashFn) (receipts : List Receipt) : ReceiptSet :=
  let ordered := sortById receipts
  ⟨ordered.length, canonicalHash sha256 (commitmentBody ordered), ordered⟩

def receiptSetDocument (sha256 : HashFn) (receipts : List Json) : Except Exn ReceiptSet := do
  let receipts ← validateReceiptCollection sha256 receipts
  pure (receiptSetOf sha256 receipts)

def ReceiptSet.toJson (s : ReceiptSet) : Json :=
  .obj [(ascii "format", .str (ascii "soveroot-labnet-receipt-set-v0")),
    (ascii "chain", .str chainName), (ascii "receipt_count", .int s.receiptCount),
    (ascii "receipt_set_commitment_sha256", .str s.commitment),
    (ascii "receipts", .arr (s.receipts.map Receipt.toJson))]

/-! ## Claims -/

def workUnits (bitsHex : Text) : Except Exn Nat := do
  let target ← compactTarget (parseHex bitsHex)
  pure (((1 <<< 256) - 1) / (target + 1) + 1)

/-- A value of the dictionary `grouped`. -/
structure Group where
  workUnits : Nat
  receiptIds : List Text
  deriving DecidableEq

/-- The body of the first loop of `buildClaims`. -/
def creditReceipt (grouped : Dict Text Group) (receipt : Receipt) :
    Except Exn (Dict Text Group) := do
  let script := receipt.payoutScriptHex
  let units ← workUnits receipt.bits
  let group := (grouped.get? script).getD ⟨0, []⟩
  pure (grouped.set script ⟨group.workUnits + units, group.receiptIds ++ [receipt.receiptId]⟩)

/-- A claim. `share_numerator` is `work_units` once more. -/
structure Claim where
  payoutScriptHex : Text
  workUnits : Nat
  shareDenominator : Nat
  receiptIds : List Text
  claimId : Text
  deriving DecidableEq

def Claim.members (c : Claim) : List (Text × Json) :=
  [(ascii "payout_script_hex", .str c.payoutScriptHex), (ascii "work_units", .int c.workUnits),
    (ascii "share_numerator", .int c.workUnits),
    (ascii "share_denominator", .int c.shareDenominator),
    (ascii "receipt_ids", .arr (c.receiptIds.map .str))]

def Claim.toJson (c : Claim) : Json :=
  .obj (c.members ++ [(ascii "claim_id_sha256", .str c.claimId)])

/-- The body of the second loop of `buildClaims`. -/
def makeClaim (sha256 : HashFn) (total : Nat) (script : Text) (group : Group) : Claim :=
  let claim : Claim := ⟨script, group.workUnits, total, group.receiptIds.insertionSort (· ≤ ·), []⟩
  { claim with claimId := canonicalHash sha256 (.obj claim.members) }

/-- What `buildClaims` returns. -/
structure Claims where
  eligibleReceiptCount : Nat
  totalWorkUnits : Nat
  receiptSetCommitment : Text
  claims : List Claim
  deriving DecidableEq

def Claims.toJson (c : Claims) : Json :=
  .obj [(ascii "format", .str (ascii "soveroot-labnet-noncustodial-claims-v0")),
    (ascii "chain", .str chainName), (ascii "custody", .str (ascii "none")),
    (ascii "settlement_status", .str (ascii "accounting_claims_only_not_money")),
    (ascii "eligible_receipt_count", .int c.eligibleReceiptCount),
    (ascii "total_work_units", .int c.totalWorkUnits),
    (ascii "receipt_set_commitment_sha256", .str c.receiptSetCommitment),
    (ascii "claims", .arr (c.claims.map Claim.toJson))]

/-- `[receipt for receipt in receipts if receipt.get("block_candidate") is True]`. -/
def eligible (receipts : List Receipt) : List Receipt := receipts.filter (·.blockCandidate)

def buildClaims (sha256 : HashFn) (receipts : List Json) : Except Exn Claims := do
  let receipts ← validateReceiptCollection sha256 receipts
  let grouped ← (eligible receipts).foldlM creditReceipt Dict.empty
  let total := (grouped.entries.map fun e => e.2.workUnits).sum
  pure ⟨(eligible receipts).length, total, (receiptSetOf sha256 receipts).commitment,
    (grouped.entries.insertionSort fun a b => a.1 ≤ b.1).map fun e =>
      makeClaim sha256 total e.1 e.2⟩

/-! ## What is claimed -/

def receiptWork (r : Receipt) : Nat := (workUnits r.bits).toOption.getD 0

def payingTo (l : List Receipt) (script : Text) : List Receipt :=
  l.filter fun r => r.payoutScriptHex = script

def groupOf (l : List Receipt) (script : Text) : Group :=
  ⟨((payingTo l script).map receiptWork).sum, (payingTo l script).map Receipt.receiptId⟩

def scriptsOf (l : List Receipt) : List Text :=
  (l.map Receipt.payoutScriptHex).dedup.insertionSort (· ≤ ·)

def totalWork (l : List Receipt) : Nat := (l.map receiptWork).sum

def claimsOf (sha256 : HashFn) (receipts : List Receipt) : Claims :=
  ⟨(eligible receipts).length, totalWork (eligible receipts),
    (receiptSetOf sha256 receipts).commitment,
    (scriptsOf (eligible receipts)).map fun script =>
      makeClaim sha256 (totalWork (eligible receipts)) script (groupOf (eligible receipts) script)⟩

variable {sha256 : HashFn} {r : Receipt} {l l' : List Receipt}

theorem workUnits_of_valid (h : ValidReceipt sha256 r) :
    workUnits r.bits = .ok (receiptWork r) ∧ 0 < receiptWork r := by
  obtain ⟨header, target, hh⟩ := h.header
  have hunits : workUnits r.bits = .ok (((1 <<< 256) - 1) / (target + 1) + 1) := by
    rw [workUnits, ← hh.bits, parseHex_formatHex, hh.decoded]
    rfl
  rw [receiptWork, hunits]
  exact ⟨rfl, Nat.succ_pos _⟩

theorem mem_eligible : r ∈ eligible l ↔ r ∈ l ∧ r.blockCandidate = true := mem_filter

variable {script : Text}

theorem mem_payingTo : r ∈ payingTo l script ↔ r ∈ l ∧ r.payoutScriptHex = script := by
  rw [payingTo, mem_filter, decide_eq_true_eq]

theorem payingTo_concat (l : List Receipt) (r : Receipt) (script : Text) :
    payingTo (l ++ [r]) script =
      payingTo l script ++ if r.payoutScriptHex = script then [r] else [] := by
  by_cases h : r.payoutScriptHex = script <;> simp [payingTo, h]

theorem payingTo_eq_nil (h : script ∉ l.map Receipt.payoutScriptHex) : payingTo l script = [] := by
  rw [eq_nil_iff_forall_not_mem]
  intro r hr
  obtain ⟨hl, rfl⟩ := mem_payingTo.1 hr
  exact h (mem_map_of_mem hl)

/-- The dictionary `grouped` after the receipts `l`. -/
def Grouped (l : List Receipt) (grouped : Dict Text Group) : Prop :=
  ∀ script, grouped.get? script =
    if script ∈ l.map Receipt.payoutScriptHex then some (groupOf l script) else none

theorem Grouped.credit {grouped : Dict Text Group} (h : Grouped l grouped)
    (hr : workUnits r.bits = .ok (receiptWork r)) :
    ∃ grouped', creditReceipt grouped r = .ok grouped' ∧ Grouped (l ++ [r]) grouped' := by
  refine ⟨_, by rw [creditReceipt, hr]; rfl, fun script => ?_⟩
  have hgroup : (grouped.get? r.payoutScriptHex).getD ⟨0, []⟩ = groupOf l r.payoutScriptHex := by
    rw [h]
    split_ifs with hin
    · rfl
    · simp [groupOf, payingTo_eq_nil hin]
  rw [Dict.get?_set, hgroup]
  by_cases hs : script = r.payoutScriptHex
  · subst hs
    simp [groupOf, payingTo_concat]
  · have hne : r.payoutScriptHex ≠ script := fun heq => hs heq.symm
    rw [if_neg hs, h]
    simp [groupOf, payingTo_concat, hs, hne]

theorem foldlM_creditReceipt (hl : ∀ r ∈ l, ValidReceipt sha256 r) :
    ∃ grouped, l.foldlM creditReceipt Dict.empty = .ok grouped ∧ Grouped l grouped := by
  have hstep : ∀ r rest grouped, (∃ done, done ++ r :: rest = l ∧ Grouped done grouped) →
      ∃ grouped', creditReceipt grouped r = .ok grouped' ∧
        ∃ done, done ++ rest = l ∧ Grouped done grouped' := by
    rintro r rest grouped ⟨done, rfl, hgrouped⟩
    have hr := (workUnits_of_valid (hl r (by simp))).1
    obtain ⟨grouped', hcredit, hgrouped'⟩ := hgrouped.credit hr
    exact ⟨grouped', hcredit, done ++ [r], by simp, hgrouped'⟩
  obtain ⟨grouped, hfold, done, hdone, hgrouped⟩ := foldlM_total
    (P := fun rest grouped => ∃ done, done ++ rest = l ∧ Grouped done grouped) hstep
    (b := Dict.empty) ⟨[], rfl, fun script => by simp⟩
  rw [append_nil] at hdone
  exact ⟨grouped, hfold, hdone ▸ hgrouped⟩

theorem mem_scriptsOf : script ∈ scriptsOf l ↔ script ∈ l.map Receipt.payoutScriptHex := by
  rw [scriptsOf, (perm_insertionSort _ _).mem_iff, mem_dedup]

theorem nodup_scriptsOf (l : List Receipt) : (scriptsOf l).Nodup :=
  (perm_insertionSort _ _).nodup_iff.2 (nodup_dedup _)

theorem flatMap_payingTo_perm (l : List Receipt) : ((scriptsOf l).flatMap (payingTo l)).Perm l :=
  perm_flatMap_filter (nodup_scriptsOf l) fun _ hr => mem_scriptsOf.2 (mem_map_of_mem hr)

theorem sum_groupOf (l : List Receipt) :
    ((scriptsOf l).map fun script => (groupOf l script).workUnits).sum = totalWork l := by
  rw [totalWork, ← ((flatMap_payingTo_perm l).map receiptWork).sum_nat]
  simp [flatMap_def, sum_flatten, map_flatten, Function.comp_def, groupOf]

section Entries

variable {grouped : Dict Text Group} (h : Grouped l grouped)

include h

theorem Grouped.mem_entries {e : Text × Group} :
    e ∈ grouped.entries ↔ e.1 ∈ l.map Receipt.payoutScriptHex ∧ e.2 = groupOf l e.1 := by
  rw [← Dict.get?_eq_some_iff, h]
  split_ifs with hin <;> simp [hin, eq_comm]

theorem Grouped.sorted_entries :
    grouped.entries.insertionSort (fun a b => a.1 ≤ b.1) =
      (scriptsOf l).map fun script => (script, groupOf l script) := by
  have hperm := perm_insertionSort (fun a b : Text × Group => a.1 ≤ b.1) grouped.entries
  have hsorted := pairwise_insertionSort (fun a b : Text × Group => a.1 ≤ b.1) grouped.entries
  have hkeys : (grouped.entries.insertionSort fun a b => a.1 ≤ b.1).map Prod.fst = scriptsOf l := by
    have hnodup := (hperm.map Prod.fst).nodup_iff.2 grouped.nodup
    have hsame : ((grouped.entries.insertionSort fun a b => a.1 ≤ b.1).map Prod.fst).Perm
        (scriptsOf l) := by
      refine (perm_ext_iff_of_nodup hnodup (nodup_scriptsOf l)).2 fun script => ?_
      rw [(hperm.map Prod.fst).mem_iff, mem_scriptsOf, mem_map]
      constructor
      · rintro ⟨e, he, rfl⟩
        exact (h.mem_entries.1 he).1
      · intro hin
        exact ⟨(script, groupOf l script), h.mem_entries.2 ⟨hin, rfl⟩, rfl⟩
    exact hsame.eq_of_pairwise (fun a b _ _ => le_antisymm) (hsorted.map Prod.fst fun _ _ h => h)
      (pairwise_insertionSort _ _)
  rw [← hkeys, map_map]
  refine (map_id' _).symm.trans (map_congr_left fun e he => ?_)
  exact Prod.ext rfl (h.mem_entries.1 (hperm.mem_iff.1 he)).2

end Entries

theorem eligible_valid (h : IsCollection sha256 l) : ∀ r ∈ eligible l, ValidReceipt sha256 r :=
  fun r hr => h.valid r (mem_eligible.1 hr).1

variable {documents : List Json}

/-- **Claims.** A collection of receipts has its claims, and no other list of documents has any. -/
theorem buildClaims_eq_ok {claims : Claims} : buildClaims sha256 documents = .ok claims ↔
      ∃ l, validateReceiptCollection sha256 documents = .ok l ∧ claims = claimsOf sha256 l := by
  rw [buildClaims, bind_eq_ok]
  refine exists_congr fun l => and_congr_right fun hl => ?_
  have hcoll := (validateReceiptCollection_eq_ok.1 hl).2
  obtain ⟨grouped, hfold, hgrouped⟩ := foldlM_creditReceipt (eligible_valid hcoll)
  have hsorted := hgrouped.sorted_entries
  have htotal : (grouped.entries.map fun e => e.2.workUnits).sum = totalWork (eligible l) := by
    have hperm := perm_insertionSort (fun a b : Text × Group => a.1 ≤ b.1) grouped.entries
    rw [← (hperm.map _).sum_nat, hsorted, map_map, ← sum_groupOf]
    rfl
  simp only [hfold, ok_bind, pure_eq_ok, Except.ok.injEq, htotal, hsorted, map_map]
  exact eq_comm

/-! ## The order of the receipts -/

section

variable (h : l.Perm l')
include h

theorem IsCollection.perm (hl : IsCollection sha256 l) : IsCollection sha256 l' where
  valid r hr := hl.valid r (h.mem_iff.2 hr)
  receiptIds := (h.map _).nodup_iff.1 hl.receiptIds
  workIds := (h.map _).nodup_iff.1 hl.workIds

theorem receiptSetOf_perm (hl : IsCollection sha256 l) :
    receiptSetOf sha256 l = receiptSetOf sha256 l' := by
  rw [receiptSetOf, receiptSetOf, sortById_congr h hl.receiptIds]

theorem scriptsOf_perm : scriptsOf l = scriptsOf l' := by
  have hperm : (scriptsOf l).Perm (scriptsOf l') := by
    refine (perm_ext_iff_of_nodup (nodup_scriptsOf l) (nodup_scriptsOf l')).2 fun script => ?_
    rw [mem_scriptsOf, mem_scriptsOf, (h.map _).mem_iff]
  exact hperm.eq_of_pairwise (fun _ _ _ _ => le_antisymm) (pairwise_insertionSort _ _)
    (pairwise_insertionSort _ _)

theorem makeClaim_perm (total : Nat) (script : Text) :
    makeClaim sha256 total script (groupOf l script) =
      makeClaim sha256 total script (groupOf l' script) := by
  have hperm : (payingTo l script).Perm (payingTo l' script) := h.filter _
  have hids : ((groupOf l script).receiptIds.insertionSort (· ≤ ·)) =
      (groupOf l' script).receiptIds.insertionSort (· ≤ ·) := by
    have hids := hperm.map Receipt.receiptId
    refine ((perm_insertionSort _ _).trans
      (hids.trans (perm_insertionSort _ _).symm)).eq_of_pairwise
      (fun _ _ _ _ => le_antisymm) (pairwise_insertionSort _ _)
      (pairwise_insertionSort _ _)
  have hwork : (groupOf l script).workUnits = (groupOf l' script).workUnits :=
    (hperm.map receiptWork).sum_nat
  simp only [makeClaim, hids, hwork]

/-- **Order.** The claims do not depend on the order of the receipts. -/
theorem claimsOf_perm (hl : IsCollection sha256 l) :
    claimsOf sha256 l = claimsOf sha256 l' := by
  have helig : (eligible l).Perm (eligible l') := h.filter _
  have htotal : totalWork (eligible l) = totalWork (eligible l') := (helig.map receiptWork).sum_nat
  simp only [claimsOf, helig.length_eq, htotal, receiptSetOf_perm h hl, scriptsOf_perm helig,
    makeClaim_perm helig]

end

variable {documents' : List Json}

variable (h : validateReceiptCollection sha256 documents = .ok l)
    (hperm : documents'.Perm documents)
include h hperm

theorem validateReceiptCollection_perm :
    ∃ l', validateReceiptCollection sha256 documents' = .ok l' ∧ l'.Perm l := by
  obtain ⟨hdoc, hl⟩ := validateReceiptCollection_eq_ok.1 h
  obtain ⟨l', hdoc', hl'⟩ := hdoc.perm hperm
  exact ⟨l', validateReceiptCollection_eq_ok.2 ⟨hdoc', hl.perm hl'.symm⟩, hl'⟩

theorem buildClaims_perm :
    buildClaims sha256 documents' = buildClaims sha256 documents := by
  obtain ⟨l', h', hl'⟩ := validateReceiptCollection_perm h hperm
  rw [buildClaims_eq_ok.2 ⟨l, h, rfl⟩, buildClaims_eq_ok.2 ⟨l', h', rfl⟩,
    claimsOf_perm hl' (validateReceiptCollection_eq_ok.1 h').2]

end Soveroot.Accounting
