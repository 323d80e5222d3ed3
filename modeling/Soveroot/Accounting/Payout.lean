import Soveroot.Accounting.Credit
import Soveroot.Lib.Apportion

/-!
# Payout plans

`build_payout_plan`: the coinbase value is split over the claims in proportion to their work, by
largest remainders, and every output must reach a minimum. The split is an instance of `Apportion`,
at the scripts of the claims (`planOf`), and the check that it conserves the coinbase value never
fails.
-/

namespace Soveroot.Accounting

open Py Check List Accounting.Sample

/-! ## Building a plan -/

def minDirectPayout : Nat := 546

/-- An element of `allocations`. -/
structure Allocation where
  claim : Claim
  value : Nat
  roundingRemainder : Nat
  deriving DecidableEq

structure Output where
  payoutScriptHex : Text
  value : Nat
  workUnits : Nat
  receiptIds : List Text
  deriving DecidableEq

def Output.toJson (o : Output) : Json :=
  .obj [(ascii "payout_script_hex", .str o.payoutScriptHex), (ascii "value", .int o.value),
    (ascii "work_units", .int o.workUnits), (ascii "receipt_ids", .arr (o.receiptIds.map .str))]

structure PayoutPlan where
  coinbaseValue : Nat
  receiptSetCommitment : Text
  eligibleReceiptCount : Nat
  totalWorkUnits : Nat
  outputs : List Output
  commitment : Text
  deriving DecidableEq

def PayoutPlan.members (p : PayoutPlan) : List (Text × Json) :=
  [(ascii "format", .str (ascii "soveroot-labnet-direct-payout-plan-v0")),
    (ascii "chain", .str chainName), (ascii "custody", .str (ascii "none")),
    (ascii "settlement_status", .str (ascii "direct_coinbase_test_plan")),
    (ascii "coinbase_value", .int p.coinbaseValue),
    (ascii "receipt_set_commitment_sha256", .str p.receiptSetCommitment),
    (ascii "eligible_receipt_count", .int p.eligibleReceiptCount),
    (ascii "total_work_units", .int p.totalWorkUnits),
    (ascii "outputs", .arr (p.outputs.map Output.toJson))]

def PayoutPlan.toJson (p : PayoutPlan) : Json :=
  .obj (p.members ++ [(ascii "payout_plan_commitment_sha256", .str p.commitment)])

/-- `l[:n]`, where a negative `n` counts from the end. -/
def sliceTo {α : Type} (l : List α) (n : Int) : List α :=
  if 0 ≤ n then l.take n.toNat else l.take (l.length - n.natAbs)

/-- The first loop of `buildPayoutPlan`: shares rounded down. -/
def allocate (coinbaseValue totalWork : Nat) (claim : Claim) : Allocation :=
  ⟨claim, coinbaseValue * claim.workUnits / totalWork, coinbaseValue * claim.workUnits % totalWork⟩

/-- The key `(-rounding_remainder, payout_script_hex)`. -/
def winsBefore (a b : Allocation) : Prop :=
  b.roundingRemainder < a.roundingRemainder ∨
    (b.roundingRemainder = a.roundingRemainder ∧ a.claim.payoutScriptHex ≤ b.claim.payoutScriptHex)

instance (a b : Allocation) : Decidable (winsBefore a b) := inferInstanceAs (Decidable (_ ∨ _))

/-- The second loop: one unit more for the allocations in front. The loop updates the allocations
in place; no two of them are equal, as their scripts differ. -/
def roundUp (winners allocations : List Allocation) : List Allocation :=
  allocations.map fun a => if a ∈ winners then { a with value := a.value + 1 } else a

/-- The third loop: the outputs in the order of their scripts. -/
def makeOutput (a : Allocation) : Except Exn Output := do
  require (minDirectPayout ≤ a.value)
    (Exn.accountingError (ascii "direct payout to " ++ a.claim.payoutScriptHex ++
      ascii " is below " ++ decimalNat minDirectPayout ++ ascii " satoshis"))
  pure ⟨a.claim.payoutScriptHex, a.value, a.claim.workUnits, a.claim.receiptIds⟩

/-- `build_payout_plan`, of the claims. -/
def planClaims (sha256 : HashFn) (claims : Claims) (coinbaseValue : Nat) :
    Except Exn PayoutPlan := do
  require (claims.claims ≠ [] ∧ 0 < claims.totalWorkUnits)
    (error "no eligible work exists for a payout plan")
  let allocations := claims.claims.map (allocate coinbaseValue claims.totalWorkUnits)
  let allocated := (allocations.map Allocation.value).sum
  let winners := sliceTo (allocations.insertionSort winsBefore) (coinbaseValue - allocated)
  let allocations := roundUp winners allocations
  let sorted := allocations.insertionSort fun a b =>
    a.claim.payoutScriptHex ≤ b.claim.payoutScriptHex
  let outputs ← sorted.mapM makeOutput
  require ((outputs.map Output.value).sum = coinbaseValue)
    (error "payout plan does not conserve the coinbase value")
  let plan : PayoutPlan := ⟨coinbaseValue, claims.receiptSetCommitment,
    claims.eligibleReceiptCount, claims.totalWorkUnits, outputs, []⟩
  pure { plan with commitment := canonicalHash sha256 (.obj plan.members) }

def buildPayoutPlan (sha256 : HashFn) (receipts : List Json) (coinbaseValue : Json) :
    Except Exn PayoutPlan := do
  let value ← orRaise coinbaseValue.asInt (error "coinbase_value must be an integer")
  require (0 < value ∧ value ≤ 0x7FFFFFFFFFFFFFFF)
    (error "coinbase_value is outside the signed int64 range")
  let claims ← buildClaims sha256 receipts
  planClaims sha256 claims value.toNat

/-! ## The split -/

section Split

variable (l : List Receipt) (coinbaseValue : Nat)

def scriptWork (script : Text) : Nat := (groupOf (eligible l) script).workUnits

def scriptRest (script : Text) : Nat :=
  Apportion.rest coinbaseValue (totalWork (eligible l)) (scriptWork l) script

/-- The scripts in the order in which the units left are handed out. -/
def rankedScripts : List Text :=
  (scriptsOf (eligible l)).insertionSort fun s t =>
    scriptRest l coinbaseValue t < scriptRest l coinbaseValue s ∨
      (scriptRest l coinbaseValue t = scriptRest l coinbaseValue s ∧ s ≤ t)

/-- The scripts that get one unit more than their share rounded down. -/
def luckyScripts : List Text :=
  (rankedScripts l coinbaseValue).take (Apportion.leftover coinbaseValue
    (totalWork (eligible l)) (scriptWork l) (scriptsOf (eligible l)))

def payoutValue (script : Text) : Nat :=
  Apportion.share coinbaseValue (totalWork (eligible l)) (scriptWork l)
    (luckyScripts l coinbaseValue) script

def outputOf (script : Text) : Output :=
  ⟨script, payoutValue l coinbaseValue script, scriptWork l script,
    (groupOf (eligible l) script).receiptIds.insertionSort (· ≤ ·)⟩

def planOf (sha256 : HashFn) : PayoutPlan :=
  let plan : PayoutPlan := ⟨coinbaseValue, (receiptSetOf sha256 l).commitment,
    (eligible l).length, totalWork (eligible l),
    (scriptsOf (eligible l)).map (outputOf l coinbaseValue), []⟩
  { plan with commitment := canonicalHash sha256 (.obj plan.members) }

end Split

variable {sha256 : HashFn} {l l' : List Receipt} {coinbaseValue : Nat}

theorem sum_scriptWork (l : List Receipt) :
    ((scriptsOf (eligible l)).map (scriptWork l)).sum = totalWork (eligible l) :=
  sum_groupOf (eligible l)

theorem totalWork_pos (hl : IsCollection sha256 l) (h : eligible l ≠ []) :
    0 < totalWork (eligible l) := by
  obtain ⟨r, rest, hcons⟩ := exists_cons_of_ne_nil h
  have hr := (workUnits_of_valid (eligible_valid hl r (by simp [hcons]))).2
  rw [hcons, totalWork, map_cons, sum_cons]
  omega

theorem scriptsOf_eq_nil : scriptsOf l = [] ↔ l = [] := by
  simp only [eq_nil_iff_forall_not_mem, mem_scriptsOf, mem_map]
  exact ⟨fun h r hr => h _ ⟨r, hr, rfl⟩, fun h _ ⟨r, hr, _⟩ => h r hr⟩

theorem ranked_scripts (l : List Receipt) (coinbaseValue : Nat) :
    Apportion.Ranked coinbaseValue (totalWork (eligible l)) (scriptWork l)
      (scriptsOf (eligible l)) (rankedScripts l coinbaseValue) where
  perm := perm_insertionSort _ _
  nodup := nodup_scriptsOf _
  sorted := by
    let before : Text → Text → Prop := fun s t =>
      scriptRest l coinbaseValue t < scriptRest l coinbaseValue s ∨
        (scriptRest l coinbaseValue t = scriptRest l coinbaseValue s ∧ s ≤ t)
    have : Std.Total before := ⟨fun s t => by
      rcases lt_trichotomy (scriptRest l coinbaseValue s) (scriptRest l coinbaseValue t) with
        h | h | h
      · exact .inr (.inl h)
      · rcases le_total s t with hst | hts
        · exact .inl (.inr ⟨h.symm, hst⟩)
        · exact .inr (.inr ⟨h, hts⟩)
      · exact .inl (.inl h)⟩
    have : IsTrans Text before := ⟨fun s t u hst htu => by
      rcases hst with hst | ⟨hst, hst'⟩ <;> rcases htu with htu | ⟨htu, htu'⟩
      · exact .inl (htu.trans hst)
      · exact .inl (htu ▸ hst)
      · exact .inl (hst ▸ htu)
      · exact .inr ⟨htu.trans hst, hst'.trans htu'⟩⟩
    have hsorted := pairwise_insertionSort before (scriptsOf (eligible l))
    refine hsorted.imp fun {s t} hst => ?_
    rcases hst with hst | ⟨hst, -⟩
    · exact hst.le
    · exact hst.le

def allocationOf (sha256 : HashFn) (l : List Receipt) (coinbaseValue : Nat) (script : Text) :
    Allocation :=
  allocate coinbaseValue (totalWork (eligible l))
    (makeClaim sha256 (totalWork (eligible l)) script (groupOf (eligible l) script))

theorem allocations_eq :
    (claimsOf sha256 l).claims.map (allocate coinbaseValue (claimsOf sha256 l).totalWorkUnits) =
      (scriptsOf (eligible l)).map (allocationOf sha256 l coinbaseValue) := by
  rw [claimsOf, map_map]
  rfl

/-- Rounding down leaves units to hand out, so the slice does not count from the end. -/
theorem winners_eq (hl : IsCollection sha256 l) (h : eligible l ≠ []) :
    let allocations := (scriptsOf (eligible l)).map (allocationOf sha256 l coinbaseValue)
    sliceTo (allocations.insertionSort winsBefore)
        (coinbaseValue - (allocations.map Allocation.value).sum) =
      (luckyScripts l coinbaseValue).map (allocationOf sha256 l coinbaseValue) := by
  intro allocations
  have hsum : (allocations.map Allocation.value).sum = ((scriptsOf (eligible l)).map
      (Apportion.floor coinbaseValue (totalWork (eligible l)) (scriptWork l))).sum := by
    rw [map_map]
    rfl
  have hle := Apportion.sum_floor_le coinbaseValue (sum_scriptWork l) (totalWork_pos hl h)
  have hsort : (rankedScripts l coinbaseValue).map (allocationOf sha256 l coinbaseValue) =
      allocations.insertionSort winsBefore :=
    map_insertionSort _ _ _ _ fun _ _ _ _ => Iff.rfl
  rw [hsum, ← hsort, sliceTo, if_pos (by omega), luckyScripts, map_take, Apportion.leftover]
  congr 1
  omega

def paidAllocation (sha256 : HashFn) (l : List Receipt) (coinbaseValue : Nat) (script : Text) :
    Allocation :=
  { allocationOf sha256 l coinbaseValue script with value := payoutValue l coinbaseValue script }

theorem roundUp_eq :
    roundUp ((luckyScripts l coinbaseValue).map (allocationOf sha256 l coinbaseValue))
        ((scriptsOf (eligible l)).map (allocationOf sha256 l coinbaseValue)) =
      (scriptsOf (eligible l)).map (paidAllocation sha256 l coinbaseValue) := by
  rw [roundUp, map_map]
  refine map_congr_left fun script _ => ?_
  -- an allocation names its script
  have hinj : Function.Injective (allocationOf sha256 l coinbaseValue) := fun s t hst =>
    congrArg (fun a : Allocation => a.claim.payoutScriptHex) hst
  simp only [Function.comp_apply, mem_map_of_injective hinj, paidAllocation, payoutValue,
    Apportion.share]
  split_ifs <;> rfl

theorem sum_payoutValue (hl : IsCollection sha256 l) (h : eligible l ≠ []) (coinbaseValue : Nat) :
    ((scriptsOf (eligible l)).map (payoutValue l coinbaseValue)).sum = coinbaseValue :=
  (ranked_scripts l coinbaseValue).sum_share (sum_scriptWork l) (totalWork_pos hl h)

def belowMinimum (script : Text) : Exn :=
  .accountingError (ascii "direct payout to " ++ script ++ ascii " is below " ++
    decimalNat minDirectPayout ++ ascii " satoshis")

theorem outputs_eq :
    (((scriptsOf (eligible l)).map (paidAllocation sha256 l coinbaseValue)).insertionSort
        fun a b => a.claim.payoutScriptHex ≤ b.claim.payoutScriptHex).mapM makeOutput =
      ((scriptsOf (eligible l)).find?
        fun script => ¬ minDirectPayout ≤ payoutValue l coinbaseValue script).elim
          (.ok ((scriptsOf (eligible l)).map (outputOf l coinbaseValue)))
          fun script => .error (belowMinimum script) := by
  have hsorted : ((scriptsOf (eligible l)).map (paidAllocation sha256 l coinbaseValue)).Pairwise
      fun a b => a.claim.payoutScriptHex ≤ b.claim.payoutScriptHex :=
    (pairwise_insertionSort (· ≤ ·) _).map _ fun _ _ hst => hst
  rw [hsorted.insertionSort_eq, mapM_map]
  have hstep : makeOutput ∘ paidAllocation sha256 l coinbaseValue = fun script => (do
      require (minDirectPayout ≤ payoutValue l coinbaseValue script) (belowMinimum script)
      pure (outputOf l coinbaseValue script)) := rfl
  rw [hstep, mapM_require]

/-- **Plans.** The plan of a collection, unless it has no eligible work or an output falls short;
then the first such script is named. -/
theorem planClaims_claimsOf (hl : IsCollection sha256 l) :
    planClaims sha256 (claimsOf sha256 l) coinbaseValue =
      if eligible l = [] then .error (error "no eligible work exists for a payout plan")
      else ((scriptsOf (eligible l)).find?
        fun script => ¬ minDirectPayout ≤ payoutValue l coinbaseValue script).elim
          (.ok (planOf l coinbaseValue sha256)) fun script => .error (belowMinimum script) := by
  by_cases h : eligible l = []
  · have hnone : ¬ ((claimsOf sha256 l).claims ≠ [] ∧ 0 < (claimsOf sha256 l).totalWorkUnits) := by
      rw [claimsOf, scriptsOf_eq_nil.2 h]
      simp
    rw [planClaims, require_of_neg hnone, error_bind, if_pos h]
  · have hsome : (claimsOf sha256 l).claims ≠ [] ∧ 0 < (claimsOf sha256 l).totalWorkUnits :=
      ⟨by simpa [claimsOf, scriptsOf_eq_nil] using h, totalWork_pos hl h⟩
    rw [planClaims, require_of_pos hsome, ok_bind, if_neg h]
    simp only [allocations_eq, winners_eq hl h, roundUp_eq, outputs_eq]
    cases (scriptsOf (eligible l)).find?
        fun script => ¬ minDirectPayout ≤ payoutValue l coinbaseValue script with
    | some script => rfl
    | none =>
      have hsum : (((scriptsOf (eligible l)).map (outputOf l coinbaseValue)).map Output.value).sum =
          coinbaseValue := by
        rw [map_map]
        exact sum_payoutValue hl h coinbaseValue
      rw [Option.elim_none, ok_bind, require_of_pos hsum]
      rfl

variable {documents : List Json}

theorem buildPayoutPlan_of_collection (h : validateReceiptCollection sha256 documents = .ok l)
    (hpos : 0 < coinbaseValue) (hmax : coinbaseValue ≤ 0x7FFFFFFFFFFFFFFF) :
    buildPayoutPlan sha256 documents (.int coinbaseValue) =
      planClaims sha256 (claimsOf sha256 l) coinbaseValue := by
  have hclaims : buildClaims sha256 documents = .ok (claimsOf sha256 l) :=
    buildClaims_eq_ok.2 ⟨l, h, rfl⟩
  have hrange : 0 < (coinbaseValue : Int) ∧ (coinbaseValue : Int) ≤ 0x7FFFFFFFFFFFFFFF := by omega
  rw [buildPayoutPlan, Json.asInt, orRaise_some, ok_bind, require_of_pos hrange, ok_bind, hclaims,
    ok_bind, Int.toNat_natCast]

/-! ## Exact and fair -/

structure FairPlan (l : List Receipt) (coinbaseValue : Nat) (plan : PayoutPlan) : Prop where
  conserves : (plan.outputs.map Output.value).sum = coinbaseValue
  total : plan.totalWorkUnits = totalWork (eligible l)
  work : ∀ o ∈ plan.outputs,
    o.workUnits = ((payingTo (eligible l) o.payoutScriptHex).map receiptWork).sum
  rounded : ∀ o ∈ plan.outputs, o.value = coinbaseValue * o.workUnits / plan.totalWorkUnits ∨
    o.value = (coinbaseValue * o.workUnits + (plan.totalWorkUnits - 1)) / plan.totalWorkUnits
  whole : ∀ o ∈ plan.outputs, plan.totalWorkUnits ∣ coinbaseValue * o.workUnits →
    o.value = coinbaseValue * o.workUnits / plan.totalWorkUnits
  ordered : ∀ o ∈ plan.outputs, ∀ o' ∈ plan.outputs,
    o.workUnits < o'.workUnits → o.value ≤ o'.value
  credited : ∀ r ∈ eligible l, ∃! o, o ∈ plan.outputs ∧ r.receiptId ∈ o.receiptIds

theorem mem_receiptIds_outputOf {id script : Text} :
    id ∈ (outputOf l coinbaseValue script).receiptIds ↔
      ∃ r ∈ eligible l, r.payoutScriptHex = script ∧ r.receiptId = id := by
  simp only [outputOf, groupOf, mem_insertionSort, mem_map, mem_payingTo, and_assoc]

section

variable (hl : IsCollection sha256 l)
include hl

theorem credited_planOf {r : Receipt} (hr : r ∈ eligible l) :
    ∃! o, o ∈ (planOf l coinbaseValue sha256).outputs ∧ r.receiptId ∈ o.receiptIds := by
  refine ⟨outputOf l coinbaseValue r.payoutScriptHex, ⟨?_, ?_⟩, ?_⟩
  · exact mem_map_of_mem (mem_scriptsOf.2 (mem_map_of_mem hr))
  · exact mem_receiptIds_outputOf.2 ⟨r, hr, rfl, rfl⟩
  · rintro o ⟨ho, hid⟩
    obtain ⟨script, -, rfl⟩ := mem_map.1 ho
    obtain ⟨s, hs, rfl, hsid⟩ := mem_receiptIds_outputOf.1 hid
    rw [eq_of_key hl.receiptIds (mem_eligible.1 hs).1 (mem_eligible.1 hr).1 hsid]

/-- A share is its exact value rounded down, or up when it is not whole. -/
theorem payoutValue_cases (h : eligible l ≠ []) (script : Text) :
    payoutValue l coinbaseValue script =
        coinbaseValue * scriptWork l script / totalWork (eligible l) ∨
      (¬ totalWork (eligible l) ∣ coinbaseValue * scriptWork l script ∧
        payoutValue l coinbaseValue script =
          (coinbaseValue * scriptWork l script + (totalWork (eligible l) - 1)) /
            totalWork (eligible l)) := by
  have hpos := totalWork_pos hl h
  by_cases hlucky : script ∈ luckyScripts l coinbaseValue
  · right
    have hrest :=
      (ranked_scripts l coinbaseValue).not_winner_of_exact (sum_scriptWork l) hpos hlucky
    refine ⟨fun hdvd => hrest (Nat.mod_eq_zero_of_dvd hdvd), ?_⟩
    simp only [payoutValue, Apportion.share, hlucky, if_true, Apportion.floor]
    rw [Apportion.rest] at hrest
    generalize coinbaseValue * scriptWork l script = scaled at hrest ⊢
    generalize totalWork (eligible l) = whole at hpos hrest ⊢
    have hdiv := Nat.div_add_mod scaled whole
    have hmod := Nat.mod_lt scaled hpos
    have hup : scaled + (whole - 1) = scaled % whole - 1 + whole * (scaled / whole + 1) := by
      rw [Nat.mul_succ]
      omega
    have hsmall : (scaled % whole - 1) / whole = 0 := Nat.div_eq_of_lt (by omega)
    rw [hup, Nat.add_mul_div_left _ _ hpos, hsmall, Nat.zero_add]
  · left
    simp [payoutValue, Apportion.share, hlucky, Apportion.floor]

theorem fairPlan_planOf (h : eligible l ≠ [])
    (hpos : 0 < coinbaseValue) : FairPlan l coinbaseValue (planOf l coinbaseValue sha256) where
  conserves := by
    rw [planOf, map_map]
    exact sum_payoutValue hl h coinbaseValue
  total := rfl
  work o ho := by
    obtain ⟨script, -, rfl⟩ := mem_map.1 ho
    rfl
  rounded o ho := by
    obtain ⟨script, -, rfl⟩ := mem_map.1 ho
    exact (payoutValue_cases hl h script).imp_right And.right
  whole o ho hdvd := by
    obtain ⟨script, -, rfl⟩ := mem_map.1 ho
    exact (payoutValue_cases hl h script).resolve_right fun hup => hup.1 hdvd
  ordered o ho o' ho' hlt := by
    obtain ⟨script, -, rfl⟩ := mem_map.1 ho
    obtain ⟨script', hscript', rfl⟩ := mem_map.1 ho'
    exact (ranked_scripts l coinbaseValue).share_le_share hpos hscript' hlt _
  credited _ hr := credited_planOf hl hr

end

theorem planClaims_cases (coinbaseValue : Nat) (hl : IsCollection sha256 l) :
    (eligible l = [] ∧ planClaims sha256 (claimsOf sha256 l) coinbaseValue =
        .error (error "no eligible work exists for a payout plan")) ∨
      (∃ script ∈ scriptsOf (eligible l), payoutValue l coinbaseValue script < minDirectPayout ∧
        planClaims sha256 (claimsOf sha256 l) coinbaseValue = .error (belowMinimum script)) ∨
      (eligible l ≠ [] ∧
        (∀ script ∈ scriptsOf (eligible l), minDirectPayout ≤ payoutValue l coinbaseValue script) ∧
        planClaims sha256 (claimsOf sha256 l) coinbaseValue =
          .ok (planOf l coinbaseValue sha256)) := by
  rw [planClaims_claimsOf hl]
  by_cases h : eligible l = []
  · exact .inl ⟨h, if_pos h⟩
  · rw [if_neg h]
    cases hfind : (scriptsOf (eligible l)).find?
        fun script => ¬ minDirectPayout ≤ payoutValue l coinbaseValue script with
    | some script =>
      have hlow := find?_some hfind
      simp only [not_le, decide_eq_true_eq] at hlow
      exact .inr (.inl ⟨script, mem_of_find?_eq_some hfind, hlow, rfl⟩)
    | none =>
      refine .inr (.inr ⟨h, fun script hscript => ?_, rfl⟩)
      simpa using find?_eq_none.1 hfind script hscript

theorem planOf_of_buildPayoutPlan {plan : PayoutPlan}
    (h : validateReceiptCollection sha256 documents = .ok l)
    (hplan : buildPayoutPlan sha256 documents (.int coinbaseValue) = .ok plan) :
    (0 < coinbaseValue ∧ coinbaseValue ≤ 0x7FFFFFFFFFFFFFFF) ∧ eligible l ≠ [] ∧
      (∀ script ∈ scriptsOf (eligible l), minDirectPayout ≤ payoutValue l coinbaseValue script) ∧
      plan = planOf l coinbaseValue sha256 := by
  have hrange : 0 < coinbaseValue ∧ coinbaseValue ≤ 0x7FFFFFFFFFFFFFFF := by
    have hok := hplan
    simp only [buildPayoutPlan, Json.asInt, orRaise_some, ok_bind, bind_eq_ok, require_eq_ok] at hok
    omega
  rw [buildPayoutPlan_of_collection h hrange.1 hrange.2] at hplan
  obtain ⟨-, he⟩ | ⟨_, -, -, he⟩ | ⟨hne, hall, he⟩ :=
    planClaims_cases coinbaseValue (validateReceiptCollection_eq_ok.1 h).2
  · rw [hplan] at he
    cases he
  · rw [hplan] at he
    cases he
  · exact ⟨hrange, hne, hall, Except.ok.inj (hplan.symm.trans he)⟩

theorem belowMinimum_ne (script : Text) :
    belowMinimum script ≠ error "payout plan does not conserve the coinbase value" := by
  intro h
  have hhead : some 100 = some 112 := congrArg head? (Exn.accountingError.inj h)
  exact absurd hhead (by decide)

/-- **An exact and fair split.** For every collection and coinbase value: a plan that is returned
is fair; it does not depend on the order of the receipts; the conservation check never fails; and
there is no plan exactly when there is no eligible work or an output would fall short. -/
theorem payout_plan_exact_and_fair {sha256 : HashFn} {documents : List Json} {l : List Receipt}
    (h : validateReceiptCollection sha256 documents = .ok l) {coinbaseValue : Nat}
    (hpos : 1 ≤ coinbaseValue) (hmax : coinbaseValue ≤ 2 ^ 63 - 1) :
    (∀ plan, buildPayoutPlan sha256 documents (.int coinbaseValue) = .ok plan →
      FairPlan l coinbaseValue plan) ∧
    (∀ documents', documents'.Perm documents →
      buildPayoutPlan sha256 documents' (.int coinbaseValue) =
        buildPayoutPlan sha256 documents (.int coinbaseValue)) ∧
    buildPayoutPlan sha256 documents (.int coinbaseValue) ≠
      .error (error "payout plan does not conserve the coinbase value") ∧
    ((∃ e, buildPayoutPlan sha256 documents (.int coinbaseValue) = .error e) ↔
      totalWork (eligible l) = 0 ∨
        ∃ script ∈ scriptsOf (eligible l), payoutValue l coinbaseValue script < 546) := by
  have hl := (validateReceiptCollection_eq_ok.1 h).2
  have hcases := planClaims_cases coinbaseValue hl
  rw [← buildPayoutPlan_of_collection h hpos hmax] at hcases
  refine ⟨?_, ?_, ?_, ?_⟩
  · intro plan hplan
    rw [hplan] at hcases
    obtain ⟨-, he⟩ | ⟨_, -, -, he⟩ | ⟨hne, -, he⟩ := hcases
    · cases he
    · cases he
    · cases he
      exact fairPlan_planOf hl hne hpos
  · intro documents' hperm
    simp only [buildPayoutPlan, buildClaims_perm h hperm]
  · intro hconserve
    rw [hconserve] at hcases
    obtain ⟨-, he⟩ | ⟨script, -, -, he⟩ | ⟨-, -, he⟩ := hcases
    · exact absurd (Except.error.inj he) (by decide)
    · exact belowMinimum_ne script (Except.error.inj he).symm
    · cases he
  · obtain ⟨hnil, he⟩ | ⟨script, hscript, hlow, he⟩ | ⟨hne, hall, he⟩ := hcases
    · exact ⟨fun _ => .inl (by rw [hnil]; rfl), fun _ => ⟨_, he⟩⟩
    · exact ⟨fun _ => .inr ⟨script, hscript, hlow⟩, fun _ => ⟨_, he⟩⟩
    · rw [he]
      refine iff_of_false (by simp) (not_or.2 ⟨?_, ?_⟩)
      · exact (totalWork_pos hl hne).ne'
      · rintro ⟨script, hscript, hlow⟩
        exact absurd (hall script hscript) (Nat.not_le.2 hlow)

/-- Five billion units over two receipts of the same work. -/
theorem payout_plan_first_second :
    ∃ plan, buildPayoutPlan Sha256.sha256 [first.toJson, second.toJson]
        (.int (5000000000 : Nat)) = .ok plan ∧
      FairPlan [first, second] 5000000000 plan := by
  have hall : (scriptsOf (eligible [first, second])).find? (fun script =>
      ¬ minDirectPayout ≤ payoutValue [first, second] 5000000000 script) = none := by
    decide +kernel
  have hplan : buildPayoutPlan Sha256.sha256 [first.toJson, second.toJson]
      (.int (5000000000 : Nat)) =
        .ok (planOf [first, second] 5000000000 Sha256.sha256) := by
    rw [buildPayoutPlan_of_collection collection_first_second (by decide) (by decide),
      planClaims_claimsOf (validateReceiptCollection_eq_ok.1 collection_first_second).2,
      if_neg (by decide), hall]
    rfl
  exact ⟨_, hplan, (payout_plan_exact_and_fair collection_first_second (by decide)
    (by decide)).1 _ hplan⟩

end Soveroot.Accounting
