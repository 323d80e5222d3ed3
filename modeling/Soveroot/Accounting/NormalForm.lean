import Soveroot.Accounting.Replica

/-!
# The normal form of a receipt

`validate_receipt` lower-cases the hexadecimal fields of a report. Everything in a valid receipt is
determined by the fields that a report must have, whatever their letter case
(`ValidReceipt.eq_of_sameField`). The letter case of `hash` and `previous_block_hash` does decide
whether a report is accepted: they are compared with the header before they are lower-cased.
-/

namespace Soveroot.Accounting

open Py Check Accounting.Sample

variable {readFloat : Text → Text} {sha256 : HashFn} {r : Receipt} {f : ReceiptField}

theorem ValidReceipt.lower_raw (h : ValidReceipt sha256 r) (hf : f ∈ hexFields) {t : Text}
    (ht : r.raw f = .str t) : lower t = t := by
  obtain ⟨header, target, hh⟩ := h.header
  cases f with
  | previousBlockHash => rw [← Json.str.inj ht, ← hh.previous, lower_hex]
  | hash => rw [← Json.str.inj ht, ← hh.hash, lower_hex]
  | headerHex => exact Json.str.inj ht ▸ h.header_lower
  | payoutScriptHex => exact Json.str.inj ht ▸ h.script_lower
  | templateCommitmentSha256 => exact Json.str.inj ht ▸ h.commitment_lower
  | _ => exact absurd hf (by decide)

theorem ValidReceipt.eq_of_sameField {s : Receipt} (hr : ValidReceipt sha256 r)
    (hs : ValidReceipt sha256 s) (h : ∀ f ∈ required, SameField f (r.raw f) (s.raw f)) : r = s := by
  have hraw : ∀ f ∈ required, r.raw f = s.raw f := by
    intro f hf
    rcases h f hf with heq | ⟨hhex, t, t', ht, ht', hlower⟩
    · exact heq
    · rw [ht, ht', ← hr.lower_raw hhex ht, ← hs.lower_raw hhex ht', hlower]
  have hreport : Reports r.raw s :=
    ⟨fun f hf => .inl (hraw f hf), hraw .previousBlockHash (by decide), hraw .hash (by decide)⟩
  exact Except.ok.inj ((checkReport_of_reports hr (reports_raw r)).symm.trans
    (checkReport_of_reports hs hreport))

variable {a b : Json}

theorem SameField.symm (h : SameField f a b) : SameField f b a := by
  rcases h with rfl | ⟨hf, t, t', ht, ht', hlower⟩
  · exact .inl rfl
  · exact .inr ⟨hf, t', t, ht', ht, hlower.symm⟩

theorem SameField.trans {c : Json} (h : SameField f a b) (h' : SameField f b c) :
    SameField f a c := by
  rcases h with rfl | ⟨hf, t, t', ht, rfl, hlower⟩
  · exact h'
  rcases h' with rfl | ⟨-, u, u', hu, hu', hlower'⟩
  · exact .inr ⟨hf, t, t', ht, rfl, hlower⟩
  · exact .inr ⟨hf, t, u', ht, hu', by rw [hlower, Json.str.inj hu, hlower']⟩

/-- The values that `validate_receipt` finds in a document. -/
def reported (fields : List (Text × Json)) (f : ReceiptField) : Json :=
  (Json.member fields (Json.Keys.name f)).getD .null

theorem reported_ofRecord (raw : ReceiptField → Json) :
    reported ((Json.Keys.all : List ReceiptField).map fun f => (Json.Keys.name f, raw f)) =
      raw := by
  funext f
  rw [reported, Json.member_map raw f _ (Json.Keys.mem_all f), Option.getD_some]

theorem validateReceipt_eq_ok {document : Json} : validateReceipt sha256 document = .ok r ↔
    ∃ fields, document = .obj fields ∧ ValidReceipt sha256 r ∧ Reports (reported fields) r := by
  simp only [validateReceipt, bind_eq_ok, orRaise_eq_ok, Json.asObj_eq_some, require_eq_ok,
    exists_const]
  constructor
  · rintro ⟨fields, rfl, -, hreport⟩
    exact ⟨fields, rfl, validReceipt_of_checkReport hreport⟩
  · rintro ⟨fields, rfl, hvalid, hreport⟩
    refine ⟨fields, rfl, List.filter_eq_nil_iff.2 fun f hf hnone => ?_,
      checkReport_of_reports hvalid hreport⟩
    -- a field that is missing would be read as `null`
    have hsame := hreport.same f hf
    rw [reported, Option.isNone_iff_eq_none.1 hnone, Option.getD_none] at hsame
    rcases hsame with heq | ⟨-, _, _, heq, -⟩
    · cases f <;> cases heq
    · cases heq

/-- Two reports that differ in the letter case of their hexadecimal fields only. -/
def CaseVariant (document document' : Json) : Prop :=
  ∃ fields fields', document = .obj fields ∧ document' = .obj fields' ∧
    ∀ f, SameField f (reported fields f) (reported fields' f)

/-- `hash` and `previous_block_hash` of a report are in lower case. -/
def LowerHashes (document : Json) : Prop :=
  ∀ fields, document = .obj fields → ∀ f ∈ [ReceiptField.previousBlockHash, .hash], ∀ t,
    reported fields f = .str t → lower t = t

theorem Reports.lower_hashes {fields : ReceiptField → Json} (h : Reports fields r)
    (hvalid : ValidReceipt sha256 r) (hf : f ∈ [ReceiptField.previousBlockHash, .hash]) {t : Text}
    (ht : fields f = .str t) : lower t = t := by
  have hraw : fields f = r.raw f := by
    rcases List.mem_pair.1 hf with rfl | rfl
    · exact h.previousBlockHash
    · exact h.hash
  refine hvalid.lower_raw ?_ (hraw.symm.trans ht)
  rcases List.mem_pair.1 hf with rfl | rfl <;> decide

/-- The variants of a report with these two fields in lower case are reports of the same receipt. -/
theorem Reports.variant {fields fields' : ReceiptField → Json} (h : Reports fields r)
    (hvalid : ValidReceipt sha256 r) (hsame : ∀ f, SameField f (fields f) (fields' f))
    (hlower : ∀ f ∈ [ReceiptField.previousBlockHash, .hash], ∀ t, fields' f = .str t →
      lower t = t) :
    Reports fields' r := by
  have hfields : ∀ f ∈ required, SameField f (fields' f) (r.raw f) :=
    fun f hf => (hsame f).symm.trans (h.same f hf)
  have hexact : ∀ f ∈ [ReceiptField.previousBlockHash, .hash], ∀ t, r.raw f = .str t →
      fields' f = .str t := by
    intro f hf t ht
    obtain ⟨hreq, hhex⟩ : f ∈ required ∧ f ∈ hexFields := by
      rcases List.mem_pair.1 hf with rfl | rfl <;> decide
    obtain ⟨u, hu, hut⟩ := (ht ▸ hfields f hreq).lowered (hvalid.lower_raw hhex ht)
    rw [hu, ← hut, hlower f hf u hu]
  exact ⟨hfields, hexact .previousBlockHash (by simp) _ rfl, hexact .hash (by simp) _ rfl⟩

/-- **A receipt is a normal form of its reports.** It is accepted as it is, by `validate_receipt`
and by `validate_normalized_receipt`; a ledger that takes it gives it back; and a report that
differs in letter case only is accepted just when its `hash` and `previous_block_hash` are in lower
case, with the same receipt, and so the same identifier. -/
theorem validateReceipt_normalForm {document : Json} (h : validateReceipt sha256 document = .ok r) :
    validateReceipt sha256 r.toJson = .ok r ∧
    validateNormalizedReceipt sha256 r.toJson = .ok r ∧
    (∀ ledger kept, Keeps readFloat sha256 ledger kept → (∀ s ∈ kept, Compatible s r) →
      ∃ added documents, (appendReceipts readFloat sha256 ledger [r.toJson]).1 = .ok added ∧
        loadReceipts readFloat sha256 (appendReceipts readFloat sha256 ledger [r.toJson]).2 =
          .ok documents ∧
        some r.raw ∈ documents.map (Json.record? ReceiptField)) ∧
    ∀ document', CaseVariant document document' →
      (LowerHashes document' → validateReceipt sha256 document' = .ok r) ∧
      ∀ r', validateReceipt sha256 document' = .ok r' →
        LowerHashes document' ∧ r'.receiptId = r.receiptId ∧ r' = r := by
  obtain ⟨fields, rfl, hvalid, hreport⟩ := validateReceipt_eq_ok.1 h
  refine ⟨?_, validateNormalizedReceipt_eq_ok.2 ⟨Json.record?_ofRecord r.raw, hvalid⟩,
    fun ledger kept hkeeps hcompat => ?_, ?_⟩
  · exact validateReceipt_eq_ok.2 ⟨_, rfl, hvalid, by rw [reported_ofRecord]; exact reports_raw r⟩
  · have hdoc : AreDocuments [r.toJson] [r] := areDocuments_toJson [r]
    obtain ⟨added, hadded, ⟨-, l, ⟨documents, hload, hdocuments⟩, -, hmem⟩, -⟩ :=
      keeps_append hkeeps
      hdoc ⟨by simpa using hvalid, by simp, by simp⟩ (by simpa using hcompat)
    refine ⟨added, documents, hadded, hload, ?_⟩
    rw [hdocuments]
    exact List.mem_map_of_mem ((hmem r).2 (by simp))
  · rintro _ ⟨_, fields', heq, rfl, hsame⟩
    obtain rfl := Json.obj.inj heq
    refine ⟨fun hlower => ?_, fun r' h' => ?_⟩
    · exact validateReceipt_eq_ok.2
        ⟨fields', rfl, hvalid, hreport.variant hvalid hsame (hlower fields' rfl)⟩
    · obtain ⟨_, heq', hvalid', hreport'⟩ := validateReceipt_eq_ok.1 h'
      obtain rfl := Json.obj.inj heq'
      have hr : r' = r := hvalid'.eq_of_sameField hvalid fun f hf =>
        (hreport'.same f hf).symm.trans ((hsame f).symm.trans (hreport.same f hf))
      refine ⟨fun _ heq f hf t ht => ?_, by rw [hr], hr⟩
      obtain rfl := Json.obj.inj heq
      exact hreport'.lower_hashes hvalid' hf ht

namespace Sample

def upper (t : Text) : Text := t.map fun c => if 97 ≤ c ∧ c ≤ 122 then c - 32 else c

/-- The first report, with another text in one field. -/
def respelled (f : ReceiptField) (t : Text) : Json :=
  Json.ofRecord (Function.update first.raw f (.str t))

theorem caseVariant_respelled (hf : f ∈ hexFields) {t u : Text} (ht : first.raw f = .str t)
    (hu : lower t = lower u) : CaseVariant first.toJson (respelled f u) := by
  refine ⟨_, _, rfl, rfl, fun g => ?_⟩
  rw [reported_ofRecord, reported_ofRecord]
  by_cases hg : g = f
  · subst hg
    exact .inr ⟨hf, t, u, ht, Function.update_self .., hu⟩
  · exact .inl (Function.update_of_ne hg ..).symm

end Sample

theorem validateReceipt_first : validateReceipt Sha256.sha256 first.toJson = .ok first :=
  validateReceipt_eq_ok.2 ⟨_, rfl, valid_first, by rw [reported_ofRecord]; exact reports_raw first⟩

/-- The first receipt, in a new ledger and with its header in capitals. -/
theorem validateReceipt_normalForm_first :
    validateNormalizedReceipt Sha256.sha256 first.toJson = .ok first ∧
      (∃ added documents, (appendReceipts id Sha256.sha256 none [first.toJson]).1 = .ok added ∧
        loadReceipts id Sha256.sha256 (appendReceipts id Sha256.sha256 none [first.toJson]).2 =
          .ok documents ∧
        some first.raw ∈ documents.map (Json.record? ReceiptField)) ∧
      upper first.headerHex ≠ first.headerHex ∧
      validateReceipt Sha256.sha256 (respelled .headerHex (upper first.headerHex)) = .ok first := by
  obtain ⟨-, hnormal, hledger, hvariant⟩ :=
    @validateReceipt_normalForm id _ _ _ validateReceipt_first
  refine ⟨hnormal, hledger none ∅ keeps_none (by simp), by decide +kernel,
    (hvariant _ (caseVariant_respelled (by decide) rfl (by decide +kernel))).1 ?_⟩
  intro fields heq f hf t ht
  obtain rfl := Json.obj.inj heq
  rw [reported_ofRecord] at ht
  rcases List.mem_pair.1 hf with rfl | rfl
  · exact valid_first.lower_raw (f := .previousBlockHash) (by decide) ht
  · exact valid_first.lower_raw (f := .hash) (by decide) ht

theorem upper_hash_refused :
    validateReceipt Sha256.sha256 first.toJson = .ok first ∧
      CaseVariant first.toJson (respelled .hash (upper first.hash)) ∧
      validateReceipt Sha256.sha256 (respelled .hash (upper first.hash)) =
        .error (error "reported hash does not match the header") :=
  ⟨validateReceipt_first, caseVariant_respelled (by decide) rfl (by decide +kernel),
    by decide +kernel⟩

end Soveroot.Accounting
