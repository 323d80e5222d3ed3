import Mathlib.Algebra.BigOperators.Ring.Finset
import Soveroot.Accounting.Payout
import Soveroot.Miner.Coinbase

/-!
# Payout plans at the miner

A miner asks the accounting coordinator for a payout plan, checks it with `validate_payout_plan` and
builds the coinbase from the scripts of its outputs.

The coordinator groups receipts by the text of the script, which may hold whitespace between the
bytes; `build_coinbase` compares the bytes. So the coinbase of an accepted plan is refused exactly
when two texts of the plan are the same bytes, or one of them is no bytes at all
(`plan_usable_iff`).
-/

namespace Soveroot.Miner

open Py Check List
open Accounting (PayoutPlan Output Receipt IsCollection ValidReceipt eligible scriptsOf outputOf
  planOf payoutValue totalWork validateReceiptCollection buildPayoutPlan)

/-! ## Checking a plan -/

inductive PlanField where
  | format
  | chain
  | custody
  | settlementStatus
  | coinbaseValue
  | receiptSetCommitment
  | eligibleReceiptCount
  | totalWorkUnits
  | outputs
  | planCommitment
  deriving DecidableEq

instance : Json.Keys PlanField where
  all := [.format, .chain, .custody, .settlementStatus, .coinbaseValue, .receiptSetCommitment,
    .eligibleReceiptCount, .totalWorkUnits, .outputs, .planCommitment]
  name
    | .format => ascii "format"
    | .chain => ascii "chain"
    | .custody => ascii "custody"
    | .settlementStatus => ascii "settlement_status"
    | .coinbaseValue => ascii "coinbase_value"
    | .receiptSetCommitment => ascii "receipt_set_commitment_sha256"
    | .eligibleReceiptCount => ascii "eligible_receipt_count"
    | .totalWorkUnits => ascii "total_work_units"
    | .outputs => ascii "outputs"
    | .planCommitment => ascii "payout_plan_commitment_sha256"
  mem_all f := by cases f <;> decide
  nodup := by decide +kernel

inductive OutputField where
  | payoutScriptHex
  | value
  | workUnits
  | receiptIds
  deriving DecidableEq

instance : Json.Keys OutputField where
  all := [.payoutScriptHex, .value, .workUnits, .receiptIds]
  name
    | .payoutScriptHex => ascii "payout_script_hex"
    | .value => ascii "value"
    | .workUnits => ascii "work_units"
    | .receiptIds => ascii "receipt_ids"
  mem_all f := by cases f <;> decide
  nodup := by decide +kernel

structure PlanOutput where
  payoutScriptHex : Text
  value : Int
  workUnits : Int
  receiptIds : List Text

def checkCommitment (value : Json) (field : String) : Except Exn Unit := do
  let text ← orRaise (value.asText.filter fun t => t.length = 64)
    (Exn.miningError s!"{field} must be a 32-byte hexadecimal commitment")
  let _ ← orRaise (fromHex text) (Exn.miningError s!"{field} must be hexadecimal")
  pure ()

/-- The body of the loop over the outputs. Where the identifiers are not all texts, `sorted` may
raise `TypeError` before the check that names them. -/
def checkOutput (document : Json) : Except Exn PlanOutput := do
  let output ← orRaise (Json.record? OutputField document)
    (Exn.miningError "payout output contains missing or unknown fields")
  let script ← orRaise
    ((output .payoutScriptHex).asText.filter fun t => 2 ≤ t.length ∧ t.length ≤ 20000)
    (Exn.miningError "payout output script must encode 1-10000 bytes")
  let _ ← orRaise (fromHex script) (Exn.miningError "payout output script must be hexadecimal")
  let value ← orRaise ((output .value).asInt.filter fun n => 546 ≤ n)
    (Exn.miningError "every direct payout must be at least 546 satoshis")
  let workUnits ← orRaise ((output .workUnits).asInt.filter fun n => 0 < n)
    (Exn.miningError "every payout output must have positive work units")
  let receiptIds ← orRaise
    (((output .receiptIds).asArr.bind fun items => items.mapM Json.asText).filter fun ids =>
      ids ≠ [] ∧ ids = ids.insertionSort (· ≤ ·) ∧ ∀ id ∈ ids, id.length = 64)
    (Exn.miningError "payout output receipt identifiers must be sorted 32-byte hashes")
  require (∀ id ∈ receiptIds, (fromHex id).isSome)
    (Exn.miningError "payout output receipt identifiers must be hexadecimal")
  pure ⟨script, value, workUnits, receiptIds⟩

/-- `validate_payout_plan`. The source returns the document; here it returns the outputs, which is
what the miner goes on to use. -/
def validatePayoutPlan (sha256 : HashFn) (document : Json) (coinbaseValue : Int) :
    Except Exn (List PlanOutput) := do
  let fields ← orRaise document.asObj (Exn.miningError "payout plan must be a JSON object")
  let plan ← orRaise (Json.record? PlanField document)
    (Exn.miningError "payout plan contains missing or unknown fields")
  require ((plan .format).isText (ascii "soveroot-labnet-direct-payout-plan-v0") ∧
      (plan .chain).isText chainName ∧ (plan .custody).isText (ascii "none") ∧
      (plan .settlementStatus).isText (ascii "direct_coinbase_test_plan"))
    (Exn.miningError "payout plan has the wrong safety or format boundary")
  require ((plan .coinbaseValue).asIntOrBool = some coinbaseValue)
    (Exn.miningError "payout plan coinbase value does not match the current template")
  checkCommitment (plan .receiptSetCommitment) "receipt_set_commitment_sha256"
  checkCommitment (plan .planCommitment) "payout_plan_commitment_sha256"
  let count ← orRaise ((plan .eligibleReceiptCount).asInt.filter fun n => 0 < n)
    (Exn.miningError "payout plan requires positive receipt and work totals")
  let work ← orRaise ((plan .totalWorkUnits).asInt.filter fun n => 0 < n)
    (Exn.miningError "payout plan requires positive receipt and work totals")
  let items ← orRaise ((plan .outputs).asArr.filter fun l => 2 ≤ l.length ∧ l.length ≤ 1000)
    (Exn.miningError "pooled payout plan must contain between two and 1000 outputs")
  let outputs ← items.mapM checkOutput
  let scripts := outputs.map PlanOutput.payoutScriptHex
  require (scripts = scripts.insertionSort (· ≤ ·) ∧ scripts.Nodup)
    (Exn.miningError "payout outputs must use unique scripts in canonical order")
  require ((outputs.map PlanOutput.value).sum = coinbaseValue)
    (Exn.miningError "payout outputs do not conserve the coinbase value")
  require ((outputs.map PlanOutput.workUnits).sum = work)
    (Exn.miningError "payout outputs do not conserve the declared work units")
  let receiptIds := outputs.flatMap PlanOutput.receiptIds
  require receiptIds.Nodup
    (Exn.miningError "one receipt cannot be assigned to multiple payout outputs")
  require ((receiptIds.length : Int) = count)
    (Exn.miningError "payout outputs do not conserve the eligible receipt count")
  let body := Json.obj (fields.filter fun f => f.1 ≠ Json.Keys.name PlanField.planCommitment)
  require ((plan .planCommitment).isText (canonicalHash sha256 body))
    (Exn.miningError "payout plan commitment does not match its contents")
  pure outputs

/-- `direct_outputs`: the values of the outputs with their scripts decoded. -/
def decodeOutputs (outputs : List PlanOutput) : Option (List (Int × Bytes)) :=
  outputs.mapM fun output => (fromHex output.payoutScriptHex).map fun script =>
    (output.value, script)

/-! ## The coordinator's plans pass -/

def readOutput (o : Output) : PlanOutput := ⟨o.payoutScriptHex, o.value, o.workUnits, o.receiptIds⟩

/-- What `checkOutput` asks of an output. -/
structure IsOutput (o : Output) : Prop where
  script_length : 2 ≤ o.payoutScriptHex.length ∧ o.payoutScriptHex.length ≤ 20000
  script_hex : (fromHex o.payoutScriptHex).isSome
  value : 546 ≤ o.value
  work : 0 < o.workUnits
  ids_ne : o.receiptIds ≠ []
  ids_sorted : o.receiptIds = o.receiptIds.insertionSort (· ≤ ·)
  ids_length : ∀ id ∈ o.receiptIds, id.length = 64
  ids_hex : ∀ id ∈ o.receiptIds, (fromHex id).isSome

def outputRaw (o : Output) : OutputField → Json
  | .payoutScriptHex => .str o.payoutScriptHex
  | .value => .int o.value
  | .workUnits => .int o.workUnits
  | .receiptIds => .arr (o.receiptIds.map .str)

theorem record?_output (o : Output) : Json.record? OutputField o.toJson = some (outputRaw o) :=
  Json.record?_ofRecord (outputRaw o)

theorem mapM_asText_str (ids : List Text) : (ids.map Json.str).mapM Json.asText = some ids := by
  induction ids with
  | nil => rfl
  | cons id ids ih => simp [mapM_cons, Json.asText, ih]

theorem checkOutput_toJson {o : Output} (h : IsOutput o) :
    checkOutput o.toJson = .ok (readOutput o) := by
  obtain ⟨script, hscript⟩ := Option.isSome_iff_exists.1 h.script_hex
  have htext : (Json.str o.payoutScriptHex).asText.filter
      (fun t => 2 ≤ t.length ∧ t.length ≤ 20000) = some o.payoutScriptHex :=
    Option.filter_eq_some_iff.2 ⟨rfl, decide_eq_true h.script_length⟩
  have hvalue : (Json.int o.value).asInt.filter (fun n => 546 ≤ n) = some (o.value : Int) :=
    Option.filter_eq_some_iff.2 ⟨rfl, decide_eq_true (by have := h.value; omega)⟩
  have hwork : (Json.int o.workUnits).asInt.filter (fun n => 0 < n) = some (o.workUnits : Int) :=
    Option.filter_eq_some_iff.2 ⟨rfl, decide_eq_true (by have := h.work; omega)⟩
  have hids : (((Json.arr (o.receiptIds.map .str)).asArr.bind fun items =>
      items.mapM Json.asText).filter fun ids =>
        ids ≠ [] ∧ ids = ids.insertionSort (· ≤ ·) ∧ ∀ id ∈ ids, id.length = 64) =
      some o.receiptIds :=
    Option.filter_eq_some_iff.2 ⟨mapM_asText_str _,
      decide_eq_true ⟨h.ids_ne, h.ids_sorted, h.ids_length⟩⟩
  rw [checkOutput, record?_output, orRaise_some, ok_bind]
  simp only [outputRaw, htext, hscript, hvalue, hwork, hids, orRaise_some, ok_bind,
    require_of_pos h.ids_hex]
  rfl

section Plans

variable {sha256 : HashFn} {l : List Receipt} {coinbaseValue : Nat} {script : Text}

theorem exists_of_mem_scriptsOf (h : script ∈ scriptsOf (eligible l)) :
    ∃ r ∈ eligible l, r.payoutScriptHex = script :=
  mem_map.1 (Accounting.mem_scriptsOf.1 h)

theorem isOutput_outputOf (hl : IsCollection sha256 l) (hscript : script ∈ scriptsOf (eligible l))
    (hvalue : Accounting.minDirectPayout ≤ payoutValue l coinbaseValue script) :
    IsOutput (outputOf l coinbaseValue script) := by
  obtain ⟨r, hr, rfl⟩ := exists_of_mem_scriptsOf hscript
  have hvalid : ∀ s ∈ eligible l, ValidReceipt sha256 s := Accounting.eligible_valid hl
  -- an identifier of the output is a digest in hexadecimal
  have hid : ∀ id ∈ (outputOf l coinbaseValue r.payoutScriptHex).receiptIds,
      ∃ d : Digest, d.hexdigest = id := by
    intro id hmem
    obtain ⟨s, hs, -, rfl⟩ := Accounting.mem_receiptIds_outputOf.1 hmem
    exact ⟨_, (hvalid s hs).receiptId_eq⟩
  have hself : r.receiptId ∈ (outputOf l coinbaseValue r.payoutScriptHex).receiptIds :=
    Accounting.mem_receiptIds_outputOf.2 ⟨r, hr, rfl, rfl⟩
  exact {
    script_length := (hvalid r hr).script_length
    script_hex := (hvalid r hr).script_hex
    value := hvalue
    work := by
      have hpaying : r ∈ Accounting.payingTo (eligible l) r.payoutScriptHex :=
        Accounting.mem_payingTo.2 ⟨hr, rfl⟩
      exact lt_of_lt_of_le (Accounting.workUnits_of_valid (hvalid r hr)).2
        (le_sum_of_mem (mem_map_of_mem hpaying))
    ids_ne := ne_nil_of_mem hself
    ids_sorted := by
      have hsorted := pairwise_insertionSort (· ≤ ·)
        (Accounting.groupOf (eligible l) r.payoutScriptHex).receiptIds
      exact hsorted.insertionSort_eq.symm
    ids_length := fun id hmem => by
      obtain ⟨d, rfl⟩ := hid id hmem
      exact d.length_hexdigest
    ids_hex := fun id hmem => by
      obtain ⟨d, rfl⟩ := hid id hmem
      rw [Digest.hexdigest, fromHex_hex]
      rfl }

theorem receiptIds_perm (l : List Receipt) (coinbaseValue : Nat) :
    ((scriptsOf (eligible l)).flatMap fun script =>
      (outputOf l coinbaseValue script).receiptIds).Perm ((eligible l).map Receipt.receiptId) := by
  have hperm := (Accounting.flatMap_payingTo_perm (eligible l)).map Receipt.receiptId
  rw [map_flatMap] at hperm
  refine Perm.trans (Perm.flatMap_left _ fun script _ => ?_) hperm
  exact perm_insertionSort _ _

def planRaw (p : PayoutPlan) : PlanField → Json
  | .format => .str (ascii "soveroot-labnet-direct-payout-plan-v0")
  | .chain => .str chainName
  | .custody => .str (ascii "none")
  | .settlementStatus => .str (ascii "direct_coinbase_test_plan")
  | .coinbaseValue => .int p.coinbaseValue
  | .receiptSetCommitment => .str p.receiptSetCommitment
  | .eligibleReceiptCount => .int p.eligibleReceiptCount
  | .totalWorkUnits => .int p.totalWorkUnits
  | .outputs => .arr (p.outputs.map Output.toJson)
  | .planCommitment => .str p.commitment

theorem record?_plan (p : PayoutPlan) : Json.record? PlanField p.toJson = some (planRaw p) :=
  Json.record?_ofRecord (planRaw p)

theorem filter_members (p : PayoutPlan) :
    (p.members ++ [(ascii "payout_plan_commitment_sha256", Json.str p.commitment)]).filter
      (fun f => f.1 ≠ Json.Keys.name PlanField.planCommitment) = p.members := by
  have hkeys : ∀ f ∈ p.members, f.1 ≠ Json.Keys.name PlanField.planCommitment := by
    have hnames : Json.Keys.name PlanField.planCommitment ∉ p.members.map Prod.fst := by
      have hlist : p.members.map Prod.fst =
          (Json.Keys.all : List PlanField).dropLast.map Json.Keys.name := rfl
      rw [hlist]
      decide +kernel
    exact fun f hf heq => hnames (heq ▸ mem_map_of_mem hf)
  rw [filter_append, filter_eq_self.2 fun f hf => decide_eq_true (hkeys f hf)]
  exact append_nil _

theorem checkCommitment_hexdigest (d : Digest) (field : String) :
    checkCommitment (.str d.hexdigest) field = .ok () := by
  have htext : (Json.str d.hexdigest).asText.filter (fun t => t.length = 64) = some d.hexdigest :=
    Option.filter_eq_some_iff.2 ⟨rfl, decide_eq_true d.length_hexdigest⟩
  rw [checkCommitment, htext, orRaise_some, ok_bind, Digest.hexdigest, fromHex_hex, orRaise_some,
    ok_bind]
  rfl

theorem map_readOutput (sha256 : HashFn) (l : List Receipt) (coinbaseValue : Nat) :
    (planOf l coinbaseValue sha256).outputs.map readOutput =
      (scriptsOf (eligible l)).map fun script => readOutput (outputOf l coinbaseValue script) :=
  map_map

/-- **The validator accepts.** Every plan of the coordinator passes, when it has as many outputs
as a pooled plan may have. -/
theorem validatePayoutPlan_planOf (hl : IsCollection sha256 l) (hne : eligible l ≠ [])
    (hvalue : ∀ script ∈ scriptsOf (eligible l),
      Accounting.minDirectPayout ≤ payoutValue l coinbaseValue script)
    (hcount : 2 ≤ (planOf l coinbaseValue sha256).outputs.length ∧
      (planOf l coinbaseValue sha256).outputs.length ≤ 1000) :
    validatePayoutPlan sha256 (planOf l coinbaseValue sha256).toJson coinbaseValue =
      .ok ((planOf l coinbaseValue sha256).outputs.map readOutput) := by
  set plan := planOf l coinbaseValue sha256
  have hpos := Accounting.totalWork_pos hl hne
  have hlength : 0 < (eligible l).length := length_pos_of_ne_nil hne
  have hread := map_readOutput sha256 l coinbaseValue
  have hchecked : (plan.outputs.map Output.toJson).mapM checkOutput =
      .ok (plan.outputs.map readOutput) := by
    rw [mapM_map]
    refine mapM_eq_ok_map fun o ho => checkOutput_toJson ?_
    obtain ⟨script, hscript, rfl⟩ := mem_map.1 ho
    exact isOutput_outputOf hl hscript (hvalue script hscript)
  have hscripts : (plan.outputs.map readOutput).map PlanOutput.payoutScriptHex =
      scriptsOf (eligible l) := by
    rw [hread, map_map]
    exact map_id _
  have hvalues : ((plan.outputs.map readOutput).map PlanOutput.value).sum =
      (coinbaseValue : Int) := by
    have hsum := congrArg (Nat.cast : Nat → Int) (Accounting.sum_payoutValue hl hne coinbaseValue)
    rw [Nat.cast_list_sum, map_map] at hsum
    rw [hread, map_map]
    exact hsum
  have hwork : ((plan.outputs.map readOutput).map PlanOutput.workUnits).sum =
      (totalWork (eligible l) : Int) := by
    have hsum := congrArg (Nat.cast : Nat → Int) (Accounting.sum_scriptWork l)
    rw [Nat.cast_list_sum, map_map] at hsum
    rw [hread, map_map]
    exact hsum
  have hids : ((plan.outputs.map readOutput).flatMap PlanOutput.receiptIds).Perm
      ((eligible l).map Receipt.receiptId) := by
    rw [hread, flatMap_map]
    exact receiptIds_perm l coinbaseValue
  have hnodup : ((eligible l).map Receipt.receiptId).Nodup :=
    hl.receiptIds.sublist (filter_sublist.map _)
  have hnumber : (((plan.outputs.map readOutput).flatMap PlanOutput.receiptIds).length : Int) =
      (eligible l).length := by
    rw [hids.length_eq, length_map]
  have hboundary : (planRaw plan .format).isText (ascii "soveroot-labnet-direct-payout-plan-v0") ∧
      (planRaw plan .chain).isText chainName ∧ (planRaw plan .custody).isText (ascii "none") ∧
      (planRaw plan .settlementStatus).isText (ascii "direct_coinbase_test_plan") :=
    ⟨Json.isText_iff.2 rfl, Json.isText_iff.2 rfl, Json.isText_iff.2 rfl, Json.isText_iff.2 rfl⟩
  have hset : checkCommitment (planRaw plan .receiptSetCommitment)
      "receipt_set_commitment_sha256" = .ok () := checkCommitment_hexdigest _ _
  have hplan : checkCommitment (planRaw plan .planCommitment)
      "payout_plan_commitment_sha256" = .ok () := checkCommitment_hexdigest _ _
  have hreceipts : (planRaw plan .eligibleReceiptCount).asInt.filter (fun n => 0 < n) =
      some ((eligible l).length : Int) :=
    Option.filter_eq_some_iff.2 ⟨rfl, decide_eq_true (Int.natCast_pos.2 hlength)⟩
  have htotal : (planRaw plan .totalWorkUnits).asInt.filter (fun n => 0 < n) =
      some (totalWork (eligible l) : Int) :=
    Option.filter_eq_some_iff.2 ⟨rfl, decide_eq_true (Int.natCast_pos.2 hpos)⟩
  have hitems : (planRaw plan .outputs).asArr.filter (fun l => 2 ≤ l.length ∧ l.length ≤ 1000) =
      some (plan.outputs.map Output.toJson) :=
    Option.filter_eq_some_iff.2 ⟨rfl, decide_eq_true (by rwa [length_map])⟩
  have hsorted : scriptsOf (eligible l) = (scriptsOf (eligible l)).insertionSort (· ≤ ·) ∧
      (scriptsOf (eligible l)).Nodup :=
    ⟨(pairwise_insertionSort _ _).insertionSort_eq.symm, Accounting.nodup_scriptsOf _⟩
  have hcommitment : (planRaw plan .planCommitment).isText
      (canonicalHash sha256 (.obj plan.members)) := Json.isText_iff.2 rfl
  rw [validatePayoutPlan, show plan.toJson.asObj = some _ from rfl,
    orRaise_some, ok_bind, record?_plan, orRaise_some, ok_bind, require_of_pos hboundary, ok_bind,
    require_of_pos (show (planRaw plan .coinbaseValue).asIntOrBool =
      some (coinbaseValue : Int) from rfl), ok_bind, hset, ok_bind, hplan, ok_bind, hreceipts,
    orRaise_some, ok_bind, htotal, orRaise_some, ok_bind, hitems, orRaise_some, ok_bind, hchecked,
    ok_bind]
  simp only [hscripts, require_of_pos hsorted, require_of_pos hvalues, require_of_pos hwork,
    require_of_pos (hids.nodup_iff.2 hnodup), require_of_pos hnumber, filter_members,
    require_of_pos hcommitment, ok_bind, pure_eq_ok]

/-! ## The coinbase of a plan -/

/-- The payouts of a collection, as the miner decodes them. -/
def payoutsOf (l : List Receipt) (coinbaseValue : Nat) : List (Int × Bytes) :=
  (scriptsOf (eligible l)).map fun script =>
    (payoutValue l coinbaseValue script, (fromHex script).getD [])

/-- The scripts of the eligible receipts are some bytes, and different bytes where the texts
differ. -/
def ScriptsDistinct (l : List Receipt) : Prop :=
  ∀ r ∈ eligible l, dropSpaces r.payoutScriptHex ≠ [] ∧
    ∀ s ∈ eligible l, dropSpaces r.payoutScriptHex = dropSpaces s.payoutScriptHex →
      r.payoutScriptHex = s.payoutScriptHex

instance (l : List Receipt) : Decidable (ScriptsDistinct l) :=
  inferInstanceAs (Decidable (∀ r ∈ eligible l, _))

theorem fromHex_script (hl : IsCollection sha256 l) (h : script ∈ scriptsOf (eligible l)) :
    fromHex script = some ((fromHex script).getD []) ∧
      dropSpaces script = hex ((fromHex script).getD []) := by
  obtain ⟨r, hr, rfl⟩ := exists_of_mem_scriptsOf h
  have hvalid := Accounting.eligible_valid hl r hr
  obtain ⟨b, hb⟩ := Option.isSome_iff_exists.1 hvalid.script_hex
  rw [hb, Option.getD_some]
  exact ⟨rfl, dropSpaces_of_fromHex hb hvalid.script_lower⟩

theorem decodeOutputs_planOf (hl : IsCollection sha256 l) :
    decodeOutputs ((planOf l coinbaseValue sha256).outputs.map readOutput) =
      some (payoutsOf l coinbaseValue) := by
  have hmap : ∀ scripts : List Text, (∀ script ∈ scripts, script ∈ scriptsOf (eligible l)) →
      decodeOutputs (scripts.map fun script => readOutput (outputOf l coinbaseValue script)) =
        some (scripts.map fun script =>
          ((payoutValue l coinbaseValue script : Int), (fromHex script).getD [])) := by
    intro scripts hscripts
    induction scripts with
    | nil => rfl
    | cons script scripts ih =>
      rw [forall_mem_cons] at hscripts
      have hhead : (fromHex (readOutput (outputOf l coinbaseValue script)).payoutScriptHex).map
          (fun b => ((readOutput (outputOf l coinbaseValue script)).value, b)) =
            some ((payoutValue l coinbaseValue script : Int), (fromHex script).getD []) := by
        rw [show (readOutput (outputOf l coinbaseValue script)).payoutScriptHex = script from rfl,
          (fromHex_script hl hscripts.1).1]
        rfl
      rw [map_cons, map_cons, decodeOutputs, mapM_cons, hhead]
      rw [show List.mapM _ _ = _ from ih hscripts.2]
      rfl
  rw [map_readOutput]
  exact hmap _ fun _ h => h

theorem scripts_iff (coinbaseValue : Nat) (hl : IsCollection sha256 l) :
    ((∀ payout ∈ payoutsOf l coinbaseValue, payout.2 ≠ []) ∧
        ((payoutsOf l coinbaseValue).map Prod.snd).Nodup) ↔ ScriptsDistinct l := by
  have hscript : ∀ r ∈ eligible l, r.payoutScriptHex ∈ scriptsOf (eligible l) := fun r hr =>
    Accounting.mem_scriptsOf.2 (mem_map_of_mem hr)
  have hmap : (payoutsOf l coinbaseValue).map Prod.snd =
      (scriptsOf (eligible l)).map fun script => (fromHex script).getD [] := map_map
  have hnil : ∀ b : Bytes, hex b = [] ↔ b = [] := fun b =>
    ⟨fun h => hex_injective (h.trans (rfl : [] = hex [])), fun h => by rw [h]; rfl⟩
  rw [hmap, nodup_map_iff_inj_on (Accounting.nodup_scriptsOf _)]
  constructor
  · rintro ⟨hne, hinj⟩ r hr
    refine ⟨fun hdrop => ?_, fun s hs hdrop => ?_⟩
    · rw [(fromHex_script hl (hscript r hr)).2, hnil] at hdrop
      exact hne _ (mem_map_of_mem (hscript r hr)) hdrop
    · rw [(fromHex_script hl (hscript r hr)).2, (fromHex_script hl (hscript s hs)).2] at hdrop
      exact hinj _ (hscript r hr) _ (hscript s hs) (hex_injective hdrop)
  · intro h
    refine ⟨fun payout hpayout => ?_, fun script hscript' other hother heq => ?_⟩
    · obtain ⟨script, hscript', rfl⟩ := mem_map.1 hpayout
      obtain ⟨r, hr, rfl⟩ := exists_of_mem_scriptsOf hscript'
      intro hbytes
      refine (h r hr).1 ?_
      rw [(fromHex_script hl hscript').2, hnil]
      exact hbytes
    · obtain ⟨r, hr, rfl⟩ := exists_of_mem_scriptsOf hscript'
      obtain ⟨s, hs, rfl⟩ := exists_of_mem_scriptsOf hother
      refine (h r hr).2 s hs ?_
      rw [(fromHex_script hl hscript').2, (fromHex_script hl hother).2, heq]

theorem directOutputs_plan {value : Int} {payouts direct : List (Int × Bytes)} :
    directOutputs value none (some payouts) = .ok direct ↔
      payouts ≠ [] ∧ (∀ payout ∈ payouts, payout.2 ≠ []) ∧ (payouts.map Prod.snd).Nodup ∧
        (payouts.map Prod.fst).sum = value ∧ payouts = direct := by
  simp only [directOutputs, bind_eq_ok, require_eq_ok, exists_const, pure_eq_ok, Except.ok.injEq]

variable (hl : IsCollection sha256 l) (hne : eligible l ≠ [])
include hl hne

theorem sum_payoutsOf :
    ((payoutsOf l coinbaseValue).map Prod.fst).sum = coinbaseValue := by
  have hsum := congrArg (Nat.cast : Nat → Int) (Accounting.sum_payoutValue hl hne coinbaseValue)
  rw [Nat.cast_list_sum, map_map] at hsum
  rw [payoutsOf, map_map]
  exact hsum

theorem writable_payouts (hmax : coinbaseValue ≤ 0x7FFFFFFFFFFFFFFF) (hcount :
    (payoutsOf l coinbaseValue).length ≤ 1000)
    {commitment : Option Bytes} (hcommitment : ∀ script ∈ commitment, script.length < 2 ^ 64) :
    Writable (committed (payoutsOf l coinbaseValue) commitment) := by
  have hone : (commitment.toList.map fun script => ((0 : Int), script)).length ≤ 1 := by
    cases commitment <;> simp
  refine ⟨?_, fun output houtput => ?_⟩
  · rw [committed, length_append]
    omega
  · rcases mem_append.1 houtput with hpayout | hscript
    · obtain ⟨script, hscript, rfl⟩ := mem_map.1 hpayout
      have hle := le_sum_of_mem (mem_map_of_mem (f := payoutValue l coinbaseValue) hscript)
      rw [Accounting.sum_payoutValue hl hne coinbaseValue] at hle
      obtain ⟨r, hr, rfl⟩ := exists_of_mem_scriptsOf hscript
      have hlength := (Accounting.eligible_valid hl r hr).script_length.2
      have hhex : (dropSpaces r.payoutScriptHex).length ≤ r.payoutScriptHex.length :=
        length_filter_le _ _
      rw [(fromHex_script hl hscript).2, length_hex] at hhex
      simp only
      omega
    · obtain ⟨script, hmem, rfl⟩ := mem_map.1 hscript
      exact ⟨⟨le_rfl, (by decide : (0 : Int) ≤ 0x7FFFFFFFFFFFFFFF)⟩,
        hcommitment script (Option.mem_toList.1 hmem)⟩

end Plans

/-- The miner accepts the plan and builds a coinbase that pays its outputs. -/
def Usable (sha256 : HashFn) (plan : PayoutPlan) (coinbaseValue : Nat) (height : Int)
    (flags : Bytes) (commitment : Option Bytes) : Prop :=
  ∃ outputs payouts c, validatePayoutPlan sha256 plan.toJson coinbaseValue = .ok outputs ∧
    decodeOutputs outputs = some payouts ∧
    Forall₂ (fun o payout => payout.1 = (o.value : Int) ∧
      fromHex o.payoutScriptHex = some payout.2) plan.outputs payouts ∧
    buildCoinbase sha256 height coinbaseValue none (some payouts) flags commitment = .ok c ∧
    ∃ tx : Node.Transaction, tx.vout = (committed payouts commitment).map txOut ∧
      c.serializedOutputs = Node.writeVector Node.TxOut.write tx.vout ∧
      c.blockBytes = tx.serialize true

/-- **Hand-off.** For every collection, every plan of it with two to a thousand outputs, and every
template for which the miner can build a coinbase at all: the plan is usable exactly when the
scripts of the eligible receipts are some bytes and differ as bytes where they differ as texts. -/
theorem plan_usable_iff {sha256 : HashFn} {documents : List Json} {l : List Receipt}
    (haccepted : validateReceiptCollection sha256 documents = .ok l) {coinbaseValue : Nat}
    {plan : PayoutPlan} (hplan : buildPayoutPlan sha256 documents (.int coinbaseValue) = .ok plan)
    (hcount : 2 ≤ plan.outputs.length ∧ plan.outputs.length ≤ 1000) {height : Int} {flags : Bytes}
    {commitment : Option Bytes}
    (htemplate : ∃ script c,
      buildCoinbase sha256 height coinbaseValue (some script) none flags commitment = .ok c) :
    Usable sha256 plan coinbaseValue height flags commitment ↔ ScriptsDistinct l := by
  have hl := (Accounting.validateReceiptCollection_eq_ok.1 haccepted).2
  obtain ⟨⟨-, hmax⟩, hne, hvalue, rfl⟩ := Accounting.planOf_of_buildPayoutPlan haccepted hplan
  obtain ⟨script, c₀, hc₀⟩ := htemplate
  obtain ⟨push, direct, _, hpush, hsig, -, hcommit, hwritable, -⟩ := buildCoinbase_eq_ok.1 hc₀
  obtain ⟨hcommitment, rfl⟩ := withCommitment_eq_ok.1 hcommit
  have hbound : ∀ script ∈ commitment, script.length < 2 ^ 64 := fun script hmem =>
    (hwritable.2 (0, script) (mem_append_right _
      (mem_map_of_mem (Option.mem_toList.2 hmem)))).2
  have hnumber : (payoutsOf l coinbaseValue).length ≤ 1000 := by
    have := hcount.2
    rw [planOf, length_map] at this
    rwa [payoutsOf, length_map]
  have hpayouts : payoutsOf l coinbaseValue ≠ [] := fun hnil =>
    hne (Accounting.scriptsOf_eq_nil.1 (map_eq_nil_iff.1 hnil))
  have hvalid := validatePayoutPlan_planOf hl hne hvalue hcount
  have hdecode : decodeOutputs ((planOf l coinbaseValue sha256).outputs.map readOutput) =
    some (payoutsOf l coinbaseValue) := decodeOutputs_planOf hl
  rw [← scripts_iff coinbaseValue hl]
  constructor
  · rintro ⟨outputs, payouts, c, houtputs, hpayouts', -, hc, -⟩
    obtain rfl := Except.ok.inj (hvalid.symm.trans houtputs)
    obtain rfl := Option.some.inj (hdecode.symm.trans hpayouts')
    obtain ⟨_, direct, _, -, -, hdirect, -⟩ := buildCoinbase_eq_ok.1 hc
    obtain ⟨-, hscripts, hnodup, -⟩ := directOutputs_plan.1 hdirect
    exact ⟨hscripts, hnodup⟩
  · rintro ⟨hscripts, hnodup⟩
    refine ⟨_, _, _, hvalid, hdecode, ?_, buildCoinbase_eq_ok.2 ⟨push, _, _, hpush, hsig,
      directOutputs_plan.2 ⟨hpayouts, hscripts, hnodup, sum_payoutsOf hl hne, rfl⟩,
      withCommitment_eq_ok.2 ⟨hcommitment, rfl⟩, writable_payouts hl hne hmax hnumber hbound, rfl⟩,
      coinbaseTransaction _ _ _, rfl, rfl, rfl⟩
    rw [planOf, payoutsOf, forall₂_map_left_iff, forall₂_map_right_iff, forall₂_same]
    exact fun script hscript => ⟨rfl, (fromHex_script hl hscript).1⟩

/-! ## One script, two texts -/

namespace Sample

open Accounting.Sample

/-- A receipt whose script is that of `first`, with a blank behind it. -/
def spaced : Receipt :=
  { second with
    payoutScriptHex := ascii "51 "
    receiptId := formatHex 64 0x415a64c5fed167dcf3ebc6989535251355582f878a542bf0cd6245005f9c753c }

theorem valid_spaced : ValidReceipt Sha256.sha256 spaced :=
  (Accounting.validateNormalizedReceipt_eq_ok.1 (show Accounting.validateNormalizedReceipt
    Sha256.sha256 spaced.toJson = .ok spaced by decide +kernel)).2

theorem collection_first_spaced :
    validateReceiptCollection Sha256.sha256 [first.toJson, spaced.toJson] = .ok [first, spaced] :=
  Accounting.validateReceiptCollection_eq_ok.2 ⟨Accounting.areDocuments_toJson [first, spaced],
    by simpa using ⟨valid_first, valid_spaced⟩, by decide +kernel,
    by decide +kernel⟩

theorem plan_of_pair {other : Receipt}
    (h : validateReceiptCollection Sha256.sha256 [first.toJson, other.toJson] = .ok [first, other])
    (hne : eligible [first, other] ≠ [])
    (hall : (scriptsOf (eligible [first, other])).find? (fun script =>
      ¬ Accounting.minDirectPayout ≤ payoutValue [first, other] 5000000000 script) = none) :
    buildPayoutPlan Sha256.sha256 [first.toJson, other.toJson] (.int (5000000000 : Nat)) =
      .ok (planOf [first, other] 5000000000 Sha256.sha256) := by
  rw [Accounting.buildPayoutPlan_of_collection h (by decide) (by decide),
    Accounting.planClaims_claimsOf (Accounting.validateReceiptCollection_eq_ok.1 h).2, if_neg hne,
    hall]
  rfl

theorem isScriptSig_300 :
    IsScriptSig (scriptSigOf (Node.pushInt64 (Int64.ofNat 300)) []) :=
  ⟨by decide +kernel, by decide +kernel⟩

theorem template_built : ∃ script c, buildCoinbase Sha256.sha256 (300 : Nat) (5000000000 : Nat)
    (some script) none [] none = .ok c :=
  ⟨[0x51], _, buildCoinbase_eq_ok.2 ⟨_, _, _, encodeBlockHeight_natCast (by decide),
    isScriptSig_300, rfl, rfl, ⟨by decide, by simp⟩, rfl⟩⟩

theorem find_first_spaced : (scriptsOf (eligible [first, spaced])).find? (fun script =>
    ¬ Accounting.minDirectPayout ≤ payoutValue [first, spaced] 5000000000 script) = none := by
  decide +kernel

end Sample

open Accounting.Sample Miner.Sample

/-- The coordinator pays one script twice, under two texts. Its plan passes the validator, and the
miner then refuses to build the coinbase. -/
theorem spaced_script_refused :
    validateReceiptCollection Sha256.sha256 [first.toJson, spaced.toJson] = .ok [first, spaced] ∧
      buildPayoutPlan Sha256.sha256 [first.toJson, spaced.toJson] (.int (5000000000 : Nat)) =
        .ok (planOf [first, spaced] 5000000000 Sha256.sha256) ∧
      (planOf [first, spaced] 5000000000 Sha256.sha256).outputs.length = 2 ∧
      buildCoinbase Sha256.sha256 (300 : Nat) (5000000000 : Nat) none
          (some (payoutsOf [first, spaced] 5000000000)) [] none =
        .error (.miningError "payout-output scripts must be unique") ∧
      ¬ Usable Sha256.sha256 (planOf [first, spaced] 5000000000 Sha256.sha256) 5000000000
        (300 : Nat) [] none := by
  have hl := (Accounting.validateReceiptCollection_eq_ok.1 collection_first_spaced).2
  have hcount : (planOf [first, spaced] 5000000000 Sha256.sha256).outputs.length = 2 := by
    decide +kernel
  have hdirect : directOutputs (5000000000 : Nat) none
      (some (payoutsOf [first, spaced] 5000000000)) =
        .error (.miningError "payout-output scripts must be unique") := by decide +kernel
  have hrefused : buildCoinbase Sha256.sha256 (300 : Nat) (5000000000 : Nat) none
      (some (payoutsOf [first, spaced] 5000000000)) [] none =
        .error (.miningError "payout-output scripts must be unique") :=
    buildCoinbase_of_error (encodeBlockHeight_natCast (by decide)) isScriptSig_300 hdirect
  refine ⟨collection_first_spaced, plan_of_pair collection_first_spaced
    (by decide) find_first_spaced, hcount, hrefused, ?_⟩
  rintro ⟨outputs, payouts, c, houtputs, hpayouts, -, hc, -⟩
  have hvalid : validatePayoutPlan Sha256.sha256
      (planOf [first, spaced] 5000000000 Sha256.sha256).toJson (5000000000 : Nat) = _ :=
    validatePayoutPlan_planOf hl (by decide)
      (fun script hscript => by
        simpa using find?_eq_none.1 find_first_spaced script hscript)
      ⟨hcount.ge, hcount.le.trans (by decide)⟩
  obtain rfl := Except.ok.inj (hvalid.symm.trans houtputs)
  obtain rfl := Option.some.inj ((decodeOutputs_planOf hl).symm.trans hpayouts)
  rw [hrefused] at hc
  cases hc

/-- Two scripts that differ as bytes. -/
theorem plan_usable_first_second :
    ScriptsDistinct [first, second] ∧
      Usable Sha256.sha256 (planOf [first, second] 5000000000 Sha256.sha256) 5000000000
        (300 : Nat) [] none := by
  have hdistinct : ScriptsDistinct [first, second] := by decide +kernel
  have hcount : (planOf [first, second] 5000000000 Sha256.sha256).outputs.length = 2 := by
    decide +kernel
  have hplan := plan_of_pair collection_first_second (by decide)
    (by decide +kernel)
  exact ⟨hdistinct, (plan_usable_iff collection_first_second hplan
    ⟨hcount.ge, hcount.le.trans (by decide)⟩ template_built).2 hdistinct⟩

end Soveroot.Miner
