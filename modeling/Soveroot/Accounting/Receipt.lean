import Soveroot.Sharechain.Profile

/-!
# Work receipts

`validate_receipt` of `contrib/mining_autonomy/share_accounting_coordinator.py` turns a miner's
report of a header into a receipt: the report in normal form, with the identifier of the work and
its own. A receipt that is exchanged or read back has to be in normal form already
(`validateNormalizedReceipt_eq_ok`).
-/

namespace Soveroot.Accounting

open Py Check Option Json

inductive Exn where
  | accountingError (detail : Text)
  | unicodeDecodeError
  deriving DecidableEq

/-- `AccountingError(detail)`. -/
def error (detail : String) : Exn := .accountingError (ascii detail)

def compactTarget (bits : Nat) : Except Exn Nat :=
  decodeCompact (error "header contains an invalid compact target")
    (error "header target is outside the 256-bit range") bits

/-! ## Documents -/

inductive ReceiptField where
  | format
  | chain
  | worker
  | height
  | previousBlockHash
  | headerHex
  | nonce
  | hash
  | bits
  | blockCandidate
  | payoutScriptHex
  | templateCommitmentSha256
  | workIdSha256
  | receiptIdSha256
  deriving DecidableEq

instance : Json.Keys ReceiptField where
  all := [.format, .chain, .worker, .height, .previousBlockHash, .headerHex, .nonce, .hash, .bits,
    .blockCandidate, .payoutScriptHex, .templateCommitmentSha256, .workIdSha256, .receiptIdSha256]
  name
    | .format => ascii "format"
    | .chain => ascii "chain"
    | .worker => ascii "worker"
    | .height => ascii "height"
    | .previousBlockHash => ascii "previous_block_hash"
    | .headerHex => ascii "header_hex"
    | .nonce => ascii "nonce"
    | .hash => ascii "hash"
    | .bits => ascii "bits"
    | .blockCandidate => ascii "block_candidate"
    | .payoutScriptHex => ascii "payout_script_hex"
    | .templateCommitmentSha256 => ascii "template_commitment_sha256"
    | .workIdSha256 => ascii "work_id_sha256"
    | .receiptIdSha256 => ascii "receipt_id_sha256"
  mem_all f := by cases f <;> decide
  nodup := by decide +kernel

/-- `sorted(required)`: the keys a report must have. -/
def required : List ReceiptField :=
  [.blockCandidate, .chain, .hash, .headerHex, .height, .nonce, .payoutScriptHex,
    .previousBlockHash, .templateCommitmentSha256, .worker]

structure Receipt where
  worker : Text
  height : Nat
  previousBlockHash : Text
  headerHex : Text
  nonce : Nat
  hash : Text
  bits : Text
  blockCandidate : Bool
  payoutScriptHex : Text
  templateCommitment : Text
  workId : Text
  receiptId : Text
  deriving DecidableEq

def receiptFormat : Text := ascii "soveroot-labnet-work-receipt-v2"

namespace Receipt

def raw (r : Receipt) : ReceiptField → Json
  | .format => .str receiptFormat
  | .chain => .str chainName
  | .worker => .str r.worker
  | .height => .int r.height
  | .previousBlockHash => .str r.previousBlockHash
  | .headerHex => .str r.headerHex
  | .nonce => .int r.nonce
  | .hash => .str r.hash
  | .bits => .str r.bits
  | .blockCandidate => .bool r.blockCandidate
  | .payoutScriptHex => .str r.payoutScriptHex
  | .templateCommitmentSha256 => .str r.templateCommitment
  | .workIdSha256 => .str r.workId
  | .receiptIdSha256 => .str r.receiptId

def toJson (r : Receipt) : Json := Json.ofRecord r.raw

def workIdentity (r : Receipt) : Json :=
  .obj [(ascii "chain", .str chainName), (ascii "height", .int r.height),
    (ascii "header_hex", .str r.headerHex), (ascii "nonce", .int r.nonce)]

/-- `normalized`, before its identifier is added. -/
def body (r : Receipt) : Json :=
  .obj (((Json.Keys.all : List ReceiptField).filter (· ≠ .receiptIdSha256)).map fun f =>
    (Json.Keys.name f, r.raw f))

end Receipt

/-! ## Validation -/

/-- `WORKER_PATTERN`: one to sixty-four letters, digits, dots, underscores and hyphens. -/
def IsWorker (t : Text) : Prop :=
  1 ≤ t.length ∧ t.length ≤ 64 ∧
    ∀ c ∈ t, (65 ≤ c ∧ c ≤ 90) ∨ (97 ≤ c ∧ c ≤ 122) ∨ (48 ≤ c ∧ c ≤ 57) ∨ c = 46 ∨ c = 95 ∨ c = 45

instance (t : Text) : Decidable (IsWorker t) := inferInstanceAs (Decidable (_ ∧ _ ∧ _))

/-- The texts one after another, `, ` between. -/
def joinComma : List Text → Text
  | [] => []
  | [t] => t
  | t :: ts => t ++ ascii ", " ++ joinComma ts

def hashText (value : Json) (field : String) : Except Exn Text := do
  let text ← orRaise (value.asText.filter fun t => t.length = 64)
    (error s!"{field} must be a 32-byte hexadecimal hash")
  let _ ← orRaise (fromHex text) (error s!"{field} must be hexadecimal")
  pure text

/-- The payout-script checks of `validateReceipt`. -/
def scriptText (value : Json) : Except Exn Text := do
  let script ← orRaise (value.asText.filter fun t => 2 ≤ t.length ∧ t.length ≤ 20000)
    (error "payout_script_hex must encode 1-10000 bytes")
  let _ ← orRaise (fromHex script) (error "payout_script_hex must be hexadecimal")
  pure script

/-- The header checks of `validateReceipt`. -/
def checkHeader (sha256 : HashFn) (headerHex : Text) (nonce : Int) (previous hash : Text)
    (blockCandidate : Bool) : Except Exn Nat := do
  let header ← orRaise (fromHex headerHex) (error "header_hex must be hexadecimal")
  require (header.length = 80) (error "header_hex must encode exactly 80 bytes")
  require ((fromBytesLE ((header.drop 76).take 4) : Int) = nonce)
    (error "reported nonce does not match the header")
  require (hex ((header.drop 4).take 32).reverse = previous)
    (error "reported previous block hash does not match the header")
  let digest := hash256 sha256 header
  require (hex digest.bytes.reverse = hash) (error "reported hash does not match the header")
  let bits := fromBytesLE ((header.drop 72).take 4)
  let target ← compactTarget bits
  require (decide (fromBytesLE digest.bytes ≤ target) = blockCandidate)
    (error "reported block-candidate status is incorrect")
  pure bits

/-- `validate_receipt`, of the values of a report. -/
def checkReport (sha256 : HashFn) (document : ReceiptField → Json) : Except Exn Receipt := do
  require ((document .chain).isText chainName) (error "only chain=labnet receipts are accepted")
  let worker ← orRaise ((document .worker).asText.filter fun t => IsWorker t)
    (error "worker label is invalid")
  let height ← orRaise ((document .height).asInt.filter fun n => 0 ≤ n)
    (error "height must be a non-negative integer")
  let nonce ← orRaise ((document .nonce).asInt.filter fun n => 0 ≤ n ∧ n ≤ 0xFFFFFFFF)
    (error "nonce must be a uint32")
  let blockCandidate ← orRaise (document .blockCandidate).asBool
    (error "block_candidate must be boolean")
  let previous ← hashText (document .previousBlockHash) "previous_block_hash"
  let hash ← hashText (document .hash) "hash"
  let script ← scriptText (document .payoutScriptHex)
  let commitment ← hashText (document .templateCommitmentSha256) "template_commitment_sha256"
  let headerHex ← orRaise (document .headerHex).asText (error "header_hex must be hexadecimal")
  let bits ← checkHeader sha256 headerHex nonce previous hash blockCandidate
  let receipt : Receipt := ⟨worker, height.toNat, previous, lower headerHex, nonce.toNat,
    lower hash, formatHex 8 bits, blockCandidate, lower script, lower commitment, [], []⟩
  let receipt := { receipt with workId := canonicalHash sha256 receipt.workIdentity }
  pure { receipt with receiptId := canonicalHash sha256 receipt.body }

def validateReceipt (sha256 : HashFn) (document : Json) : Except Exn Receipt := do
  let fields ← orRaise document.asObj (error "receipt must be a JSON object")
  let missing := required.filter fun f => (Json.member fields (Json.Keys.name f)).isNone
  require (missing = [])
    (Exn.accountingError (ascii "receipt is missing fields: " ++
      joinComma (missing.map Json.Keys.name)))
  checkReport sha256 fun f => (Json.member fields (Json.Keys.name f)).getD .null

/-- Equality of two dictionaries whose values are texts, integers and Booleans. -/
def sameReceipt (fields : ReceiptField → Json) (r : Receipt) : Bool :=
  (Json.Keys.all : List ReceiptField).all fun f =>
    decide ((fields f).asText = (r.raw f).asText) &&
      decide ((fields f).asIntOrBool = (r.raw f).asIntOrBool)

def validateNormalizedReceipt (sha256 : HashFn) (receipt : Json) : Except Exn Receipt := do
  let _ ← orRaise receipt.asObj (error "replicated receipt must be a JSON object")
  let normalized ← validateReceipt sha256 receipt
  require (((record? ReceiptField receipt).any fun fields =>
      sameReceipt fields normalized) = true)
    (error "replicated receipt is not canonical normalized v2 data")
  pure normalized

/-! ## What is accepted -/

/-- What `checkHeader` asks of the header bytes of a receipt. -/
structure ReceiptHeader (sha256 : HashFn) (r : Receipt) (header : Bytes) (target : Nat) :
    Prop where
  decodes : fromHex r.headerHex = some header
  length : header.length = 80
  nonce : fromBytesLE ((header.drop 76).take 4) = r.nonce
  previous : hex ((header.drop 4).take 32).reverse = r.previousBlockHash
  hash : hex (hash256 sha256 header).bytes.reverse = r.hash
  decoded : compactTarget (fromBytesLE ((header.drop 72).take 4)) = .ok target
  bits : formatHex 8 (fromBytesLE ((header.drop 72).take 4)) = r.bits
  candidate : decide (fromBytesLE (hash256 sha256 header).bytes ≤ target) = r.blockCandidate

def hexFields : List ReceiptField :=
  [.previousBlockHash, .hash, .headerHex, .payoutScriptHex, .templateCommitmentSha256]

/-- The values of a field are the same, or hexadecimal texts that differ in letter case only. -/
def SameField (f : ReceiptField) (a b : Json) : Prop :=
  a = b ∨ f ∈ hexFields ∧ ∃ t t', a = .str t ∧ b = .str t' ∧ lower t = lower t'

/-- A receipt in normal form. -/
structure ValidReceipt (sha256 : HashFn) (r : Receipt) : Prop where
  worker : IsWorker r.worker
  nonce_le : r.nonce ≤ 0xFFFFFFFF
  script_length : 2 ≤ r.payoutScriptHex.length ∧ r.payoutScriptHex.length ≤ 20000
  script_hex : (fromHex r.payoutScriptHex).isSome
  script_lower : lower r.payoutScriptHex = r.payoutScriptHex
  commitment_length : r.templateCommitment.length = 64
  commitment_hex : (fromHex r.templateCommitment).isSome
  commitment_lower : lower r.templateCommitment = r.templateCommitment
  header_lower : lower r.headerHex = r.headerHex
  header : ∃ header target, ReceiptHeader sha256 r header target
  workId_eq : canonicalHash sha256 r.workIdentity = r.workId
  receiptId_eq : canonicalHash sha256 r.body = r.receiptId

/-- The values of a report of a receipt. `hash` and `previous_block_hash` are as in the receipt:
they are compared before anything is lower-cased. -/
structure Reports (fields : ReceiptField → Json) (r : Receipt) : Prop where
  same : ∀ f ∈ required, SameField f (fields f) (r.raw f)
  previousBlockHash : fields .previousBlockHash = .str r.previousBlockHash
  hash : fields .hash = .str r.hash

variable {value : Json} {field : String} {t : Text}

theorem SameField.eq {f : ReceiptField} {a b : Json} (h : SameField f a b)
    (hf : f ∉ hexFields) : a = b :=
  h.resolve_right fun h' => hf h'.1

theorem SameField.lowered {f : ReceiptField} (h : SameField f value (.str t)) (ht : lower t = t) :
    ∃ u, value = .str u ∧ lower u = t := by
  rcases h with rfl | ⟨-, u, t', rfl, ht', hlower⟩
  · exact ⟨t, rfl, ht⟩
  · exact ⟨u, rfl, by rw [hlower, ← Json.str.inj ht', ht]⟩

theorem hashText_eq_ok :
    hashText value field = .ok t ↔ value = .str t ∧ t.length = 64 ∧ (fromHex t).isSome := by
  simp only [hashText, bind_eq_ok, orRaise_eq_ok, filter_eq_some_iff, asText_eq_some,
    decide_eq_true_eq, pure_eq_ok, Except.ok.injEq, isSome_iff_exists]
  constructor
  · rintro ⟨_, ⟨hv, hlen⟩, b, hb, rfl⟩
    exact ⟨hv, hlen, b, hb⟩
  · rintro ⟨hv, hlen, b, hb⟩
    exact ⟨t, ⟨hv, hlen⟩, b, hb, rfl⟩

theorem scriptText_eq_ok : scriptText value = .ok t ↔
      value = .str t ∧ (2 ≤ t.length ∧ t.length ≤ 20000) ∧ (fromHex t).isSome := by
  simp only [scriptText, bind_eq_ok, orRaise_eq_ok, filter_eq_some_iff,
    asText_eq_some, decide_eq_true_eq, pure_eq_ok, Except.ok.injEq, isSome_iff_exists]
  constructor
  · rintro ⟨_, ⟨hv, hlen⟩, b, hb, rfl⟩
    exact ⟨hv, hlen, b, hb⟩
  · rintro ⟨hv, hlen, b, hb⟩
    exact ⟨t, ⟨hv, hlen⟩, b, hb, rfl⟩

variable {sha256 : HashFn} {r : Receipt}

theorem checkHeader_eq_ok {headerHex previous hash : Text} {nonce : Int} {blockCandidate : Bool}
    {bits : Nat} : checkHeader sha256 headerHex nonce previous hash blockCandidate = .ok bits ↔
      ∃ header target, fromHex headerHex = some header ∧ header.length = 80 ∧
        (fromBytesLE ((header.drop 76).take 4) : Int) = nonce ∧
        hex ((header.drop 4).take 32).reverse = previous ∧
        hex (hash256 sha256 header).bytes.reverse = hash ∧
        compactTarget (fromBytesLE ((header.drop 72).take 4)) = .ok target ∧
        decide (fromBytesLE (hash256 sha256 header).bytes ≤ target) = blockCandidate ∧
        fromBytesLE ((header.drop 72).take 4) = bits := by
  simp only [checkHeader, bind_eq_ok, orRaise_eq_ok, require_eq_ok, exists_const, pure_eq_ok,
    Except.ok.injEq]
  constructor
  · rintro ⟨header, hdecodes, hlength, hnonce, hprevious, hhash, target, htarget, hcandidate, hbits⟩
    exact ⟨header, target, hdecodes, hlength, hnonce, hprevious, hhash, htarget, hcandidate, hbits⟩
  · rintro ⟨header, target, hdecodes, hlength, hnonce, hprevious, hhash, htarget, hcandidate, hbits⟩
    exact ⟨header, hdecodes, hlength, hnonce, hprevious, hhash, target, htarget, hcandidate, hbits⟩

variable {fields : ReceiptField → Json}

theorem asText_of_sameReceipt (h : sameReceipt fields r = true) (f : ReceiptField) :
    (fields f).asText = (r.raw f).asText := by
  have hf := List.all_eq_true.1 h f (Json.Keys.mem_all f)
  simp only [Bool.and_eq_true, decide_eq_true_eq] at hf
  exact hf.1

theorem validReceipt_of_checkReport (h : checkReport sha256 fields = .ok r) :
    ValidReceipt sha256 r ∧ Reports fields r := by
  simp only [checkReport, bind_eq_ok, orRaise_eq_ok, require_eq_ok, exists_const, pure_eq_ok,
    Except.ok.injEq, filter_eq_some_iff, decide_eq_true_eq, isText_iff,
    asInt_eq_some, asText_eq_some, asBool_eq_some, hashText_eq_ok,
    scriptText_eq_ok, checkHeader_eq_ok] at h
  obtain ⟨hchain, worker, ⟨hworker, hpattern⟩, height, ⟨hheight, hnonneg⟩, nonce,
    ⟨hnonce, hnonce0, hnonceMax⟩, candidate, hcandidate, previous, ⟨hprevious, -, -⟩, hash,
    ⟨hhash, -, -⟩, script, ⟨hscript, hlen, hdigits⟩, commitment, ⟨hcommitment, hlen', hdigits'⟩,
    headerHex, hheaderHex, bits, ⟨header, target, hdecodes, h80, hheaderNonce, hheaderPrevious,
    hheaderHash, htarget, hmeets, hbits⟩, hr⟩ := h
  obtain ⟨n, rfl⟩ := Int.eq_ofNat_of_zero_le hnonneg
  obtain ⟨k, rfl⟩ := Int.eq_ofNat_of_zero_le hnonce0
  have hlower : lower hash = hash := by rw [← hheaderHash, lower_hex]
  rw [hlower] at hr
  subst hr
  refine ⟨?_, fun f hf => ?_, hprevious, hhash⟩
  · exact {
      worker := hpattern
      nonce_le := by simp only [Int.toNat_natCast]; omega
      script_length := by rwa [length_lower]
      script_hex := by rwa [fromHex_lower]
      script_lower := lower_lower _
      commitment_length := by rwa [length_lower]
      commitment_hex := by rwa [fromHex_lower]
      commitment_lower := lower_lower _
      header_lower := lower_lower _
      header := ⟨header, target, (fromHex_lower _).trans hdecodes, h80, Int.ofNat.inj hheaderNonce,
        hheaderPrevious, hheaderHash, htarget, by rw [hbits], hmeets⟩
      workId_eq := rfl
      receiptId_eq := rfl }
  · cases f with
    | format | bits | workIdSha256 | receiptIdSha256 => exact absurd hf (by decide)
    | payoutScriptHex | templateCommitmentSha256 | headerHex =>
      exact .inr ⟨by decide, _, _, ‹_›, rfl, (lower_lower _).symm⟩
    | _ => exact .inl ‹_›

theorem checkReport_normal (h : checkReport sha256 fields = .ok r)
    (hsame : sameReceipt fields r = true) : fields = r.raw ∧ ValidReceipt sha256 r := by
  obtain ⟨hvalid, hreport⟩ := validReceipt_of_checkReport h
  have htext := asText_of_sameReceipt hsame
  refine ⟨funext fun f => ?_, hvalid⟩
  by_cases hf : f ∈ required
  · rcases hreport.same f hf with heq | ⟨-, t, t', ht, ht', -⟩
    · exact heq
    · have := htext f
      rw [ht, ht'] at this
      rw [ht, ht', Option.some.inj this]
  · cases f with
    | format | bits | workIdSha256 | receiptIdSha256 => exact asText_eq_some.1 (htext _)
    | _ => exact absurd (by decide) hf

theorem hashText_hex {b : Bytes} (h : b.length = 32) :
    hashText (.str (hex b)) field = .ok (hex b) :=
  hashText_eq_ok.2 ⟨rfl, by rw [length_hex, h], by rw [fromHex_hex]; rfl⟩

theorem checkReport_of_reports (h : ValidReceipt sha256 r) (hreport : Reports fields r) :
    checkReport sha256 fields = .ok r := by
  obtain ⟨header, target, hh⟩ := h.header
  have hprevious : ∀ field, hashText (fields .previousBlockHash) field =
      .ok r.previousBlockHash := by
    intro field
    rw [hreport.previousBlockHash, ← hh.previous]
    refine hashText_hex ?_
    simp only [List.length_reverse, List.length_take, List.length_drop, hh.length]
    rfl
  have hhash : ∀ field, hashText (fields .hash) field = .ok r.hash := by
    intro field
    rw [hreport.hash, ← hh.hash]
    exact hashText_hex (by rw [List.length_reverse, (hash256 sha256 header).length_bytes])
  have hlower : lower r.hash = r.hash := by rw [← hh.hash, lower_hex]
  have hnonce := h.nonce_le
  obtain ⟨script, hscript, hscriptLower⟩ :=
    (hreport.same .payoutScriptHex (by decide)).lowered h.script_lower
  obtain ⟨commitment, hcommitment, hcommitmentLower⟩ :=
    (hreport.same .templateCommitmentSha256 (by decide)).lowered h.commitment_lower
  obtain ⟨headerHex, hheaderHex, hheaderLower⟩ :=
    (hreport.same .headerHex (by decide)).lowered h.header_lower
  have hplain : ∀ f ∈ required, f ∉ hexFields → fields f = r.raw f :=
    fun f hf hhex => (hreport.same f hf).eq hhex
  simp only [checkReport, bind_eq_ok, orRaise_eq_ok, require_eq_ok, exists_const, pure_eq_ok,
    Except.ok.injEq, filter_eq_some_iff, decide_eq_true_eq, isText_iff,
    asInt_eq_some, asText_eq_some, asBool_eq_some, scriptText_eq_ok,
    checkHeader_eq_ok]
  refine ⟨hplain .chain (by decide) (by decide), r.worker,
    ⟨hplain .worker (by decide) (by decide), h.worker⟩, r.height,
    ⟨hplain .height (by decide) (by decide), by omega⟩, r.nonce,
    ⟨hplain .nonce (by decide) (by decide), by omega, by omega⟩, r.blockCandidate,
    hplain .blockCandidate (by decide) (by decide), _, hprevious _, _, hhash _, script,
    ⟨hscript, ?_, ?_⟩, commitment, hashText_eq_ok.2 ⟨hcommitment, ?_, ?_⟩, headerHex, hheaderHex, _,
    ⟨header, target, ?_, hh.length, by rw [hh.nonce], hh.previous, hh.hash, hh.decoded,
      hh.candidate, rfl⟩, ?_⟩
  · rw [← length_lower, hscriptLower]
    exact h.script_length
  · rw [← fromHex_lower, hscriptLower]
    exact h.script_hex
  · rw [← length_lower, hcommitmentLower]
    exact h.commitment_length
  · rw [← fromHex_lower, hcommitmentLower]
    exact h.commitment_hex
  · rw [← fromHex_lower, hheaderLower]
    exact hh.decodes
  · simp only [Int.toNat_natCast, hheaderLower, hlower, hh.bits, hscriptLower, hcommitmentLower]
    -- the two identifiers are the ones the receipt has
    show ({ r with
      workId := canonicalHash sha256 r.workIdentity
      receiptId := canonicalHash sha256
        (Receipt.body { r with workId := canonicalHash sha256 r.workIdentity }) } : Receipt) = r
    rw [h.workId_eq, h.receiptId_eq]

theorem reports_raw (r : Receipt) : Reports r.raw r := ⟨fun _ _ => .inl rfl, rfl, rfl⟩

theorem sameReceipt_raw (r : Receipt) : sameReceipt r.raw r = true := by
  simp [sameReceipt]

/-- **Normal form.** A document is accepted as a receipt in normal form exactly when it is the
document of a valid receipt, and it is accepted as that receipt. -/
theorem validateNormalizedReceipt_eq_ok {document : Json} :
    validateNormalizedReceipt sha256 document = .ok r ↔
      record? ReceiptField document = some r.raw ∧ ValidReceipt sha256 r := by
  simp only [validateNormalizedReceipt, validateReceipt, bind_eq_ok, orRaise_eq_ok,
    asObj_eq_some, require_eq_ok, exists_const, pure_eq_ok, Except.ok.injEq,
    any_eq_true]
  constructor
  · rintro ⟨_, rfl, normalized, ⟨fields, hfields, -, hreport⟩, ⟨values, hvalues, hsame⟩, rfl⟩
    obtain ⟨_, heq, -, hmember⟩ := record?_eq_some_iff.1 hvalues
    have hget : (fun f => (Json.member fields (Json.Keys.name f)).getD .null) = values := by
      funext f
      rw [← Json.obj.inj hfields, Json.obj.inj heq, hmember f, getD_some]
    rw [hget] at hreport
    obtain ⟨rfl, hvalid⟩ := checkReport_normal hreport hsame
    exact ⟨hvalues, hvalid⟩
  · rintro ⟨hrecord, hvalid⟩
    obtain ⟨fields, rfl, -, hmember⟩ := record?_eq_some_iff.1 hrecord
    refine ⟨fields, rfl, r, ⟨fields, rfl, ?_, ?_⟩, ⟨r.raw, hrecord, sameReceipt_raw r⟩, rfl⟩
    · simp [hmember]
    · simp only [hmember, getD_some]
      exact checkReport_of_reports hvalid (reports_raw r)

end Soveroot.Accounting
