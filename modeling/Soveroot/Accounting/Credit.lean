import Soveroot.Accounting.Claims

/-!
# One header, one credit

The coordinator tells receipts apart by the work identifier, which hashes the text of the header,
the nonce and the height the miner claims. Nothing ties the height to the header, and the text has
as many spellings as there are ways to put whitespace between its bytes, so one header can be
credited several times (`credited_once_iff`).
-/

namespace Soveroot.Accounting

open Py Check List Json

/-- `receipt["header_hex"]` and `receipt["height"]`. -/
def spelling (receipt : ReceiptField → Json) : Option (Text × Int) := do
  let text ← (receipt .headerHex).asText
  let height ← (receipt .height).asInt
  some (text, height)

/-- `bytes.fromhex(receipt["header_hex"])`. -/
def decoded (receipt : ReceiptField → Json) : Option Bytes :=
  (receipt .headerHex).asText.bind fromHex

def headerSpelling (document : Json) : Option (Text × Int) :=
  (record? ReceiptField document).bind spelling

def decodedHeader (document : Json) : Option Bytes :=
  (record? ReceiptField document).bind decoded

/-- The header of a receipt with `receipt.get("block_candidate") is True`. -/
def candidateHeader (document : Json) : Option Bytes :=
  (record? ReceiptField document).bind fun receipt =>
    if (receipt .blockCandidate).asBool = some true then decoded receipt else none

/-- The work a header shows: `work_units` of its bits. -/
def headerWork (header : Bytes) : Nat :=
  (workUnits (formatHex 8 (fromBytesLE ((header.drop 72).take 4)))).toOption.getD 0

/-- Receipts whose header texts agree up to whitespace have the same text, at the same height. -/
def SpeltOnce (documents : List Json) : Prop :=
  (documents.map headerSpelling).Pairwise fun a b =>
    a.map (fun p => dropSpaces p.1) = b.map (fun p => dropSpaces p.1) → a = b

/-- No two receipts decode to one header, and the claims count the work of each header once. -/
def CreditedOnce (sha256 : HashFn) (documents : List Json) : Prop :=
  (documents.map decodedHeader).Nodup ∧
    ∃ claims, buildClaims sha256 documents = .ok claims ∧
      claims.totalWorkUnits = ((documents.filterMap candidateHeader).dedup.map headerWork).sum

section

variable {sha256 : HashFn} {documents : List Json} {l : List Receipt}

theorem AreDocuments.map_bind (h : AreDocuments documents l) {β : Type}
    (f : (ReceiptField → Json) → Option β) :
    documents.map (fun document => (record? ReceiptField document).bind f) =
      l.map fun r => f r.raw := by
  have hmap : documents.map (fun document => (record? ReceiptField document).bind f) =
      (documents.map (record? ReceiptField)).map fun o => o.bind f := by
    rw [map_map]
    rfl
  rw [hmap, h, map_map]
  rfl

variable {r s : Receipt}

theorem ValidReceipt.workId_eq_of_spelling (hr : ValidReceipt sha256 r) (hs : ValidReceipt sha256 s)
    (hhex : r.headerHex = s.headerHex) (hheight : r.height = s.height) : r.workId = s.workId := by
  obtain ⟨b, _, hb⟩ := hr.header
  obtain ⟨c, _, hc⟩ := hs.header
  have hbc : b = c := Option.some.inj (by rw [← hb.decodes, ← hc.decodes, hhex])
  have hnonce : r.nonce = s.nonce := by rw [← hb.nonce, ← hc.nonce, hbc]
  rw [← hr.workId_eq, ← hs.workId_eq, Receipt.workIdentity, Receipt.workIdentity, hhex, hheight,
    hnonce]

theorem ValidReceipt.fromHex_eq_iff (hr : ValidReceipt sha256 r) (hs : ValidReceipt sha256 s) :
    fromHex r.headerHex = fromHex s.headerHex ↔
      dropSpaces r.headerHex = dropSpaces s.headerHex := by
  obtain ⟨b, _, hb⟩ := hr.header
  obtain ⟨c, _, hc⟩ := hs.header
  rw [hb.decodes, hc.decodes, Option.some.injEq]
  exact Py.fromHex_eq_iff hb.decodes hc.decodes hr.header_lower hs.header_lower

theorem ValidReceipt.receiptWork_eq {header : Bytes} (h : ValidReceipt sha256 r)
    (hdecodes : fromHex r.headerHex = some header) : receiptWork r = headerWork header := by
  obtain ⟨b, _, hb⟩ := h.header
  have hbh : b = header := Option.some.inj (by rw [← hb.decodes, ← hdecodes])
  rw [receiptWork, headerWork, ← hb.bits, hbh]

theorem nodup_header_iff (hdoc : AreDocuments documents l) (hl : IsCollection sha256 l) :
    (documents.map decodedHeader).Nodup ↔ SpeltOnce documents := by
  have hnodup : l.Nodup := Nodup.of_map _ hl.receiptIds
  have hv := hl.valid
  have hdecoded : documents.map decodedHeader = l.map fun r => fromHex r.headerHex :=
    hdoc.map_bind decoded
  have hspelling : documents.map headerSpelling = l.map fun r =>
      some (r.headerHex, (r.height : Int)) :=
    hdoc.map_bind spelling
  rw [SpeltOnce, hdecoded, hspelling, nodup_iff_pairwise_ne, pairwise_map,
    pairwise_map]
  refine ⟨fun hne => ?_, fun hspelt => ?_⟩
  · refine hne.imp_of_mem fun {r s} hr hs hrs hdrop => absurd ?_ hrs
    exact ((hv r hr).fromHex_eq_iff (hv s hs)).2 (Option.some.inj hdrop)
  · refine (hspelt.and hnodup).imp_of_mem fun {r s} hr hs hrs hhex => hrs.2 ?_
    have hdrop := ((hv r hr).fromHex_eq_iff (hv s hs)).1 hhex
    obtain ⟨htext, hheight⟩ := Prod.mk.inj (Option.some.inj (hrs.1 (congrArg some hdrop)))
    exact eq_of_key hl.workIds hr hs
      ((hv r hr).workId_eq_of_spelling (hv s hs) htext (Int.ofNat.inj hheight))

theorem AreDocuments.filterMap_candidateHeader (h : AreDocuments documents l) :
    documents.filterMap candidateHeader = (eligible l).filterMap fun r => fromHex r.headerHex := by
  have hmap := h.map_bind fun receipt =>
    if (receipt .blockCandidate).asBool = some true then decoded receipt else none
  have hid : ∀ {α β : Type} (f : α → Option β) (l : List α),
      l.filterMap f = (l.map f).filterMap id :=
    fun f l => by rw [filterMap_map]; rfl
  rw [hid candidateHeader, show documents.map candidateHeader = _ from hmap, filterMap_map,
    eligible, filterMap_filter]
  refine filterMap_congr fun r _ => ?_
  simp [Receipt.raw, Json.asBool, decoded, Json.asText]

theorem filterMap_fromHex (hl : ∀ r ∈ l, ValidReceipt sha256 r) :
    (l.filterMap fun r => fromHex r.headerHex).map some = l.map (fun r => fromHex r.headerHex) ∧
      (l.filterMap fun r => fromHex r.headerHex).map headerWork = l.map receiptWork := by
  induction l with
  | nil => exact ⟨rfl, rfl⟩
  | cons r l ih =>
    rw [forall_mem_cons] at hl
    obtain ⟨header, _, hh⟩ := hl.1.header
    obtain ⟨hsome, hwork⟩ := ih hl.2
    simp only [filterMap_cons, hh.decodes, map_cons, hsome, hwork,
      hl.1.receiptWork_eq hh.decodes, and_self]

end

/-- **One header, one credit.** In an accepted list each header is credited once exactly when no
header is spelt in two ways or claimed at two heights. -/
theorem credited_once_iff {sha256 : HashFn} {documents : List Json} {l : List Receipt}
    (h : validateReceiptCollection sha256 documents = .ok l) :
    CreditedOnce sha256 documents ↔ SpeltOnce documents := by
  obtain ⟨hdoc, hl⟩ := validateReceiptCollection_eq_ok.1 h
  rw [← nodup_header_iff hdoc hl, CreditedOnce, and_iff_left_iff_imp]
  intro hnodup
  refine ⟨_, buildClaims_eq_ok.2 ⟨l, h, rfl⟩, ?_⟩
  rw [show documents.map decodedHeader = l.map fun r => fromHex r.headerHex from
    hdoc.map_bind decoded] at hnodup
  obtain ⟨hsome, hwork⟩ := filterMap_fromHex (eligible_valid hl)
  -- the headers of the candidates are distinct, being among those of all the receipts
  have hnodup' : ((eligible l).filterMap fun r => fromHex r.headerHex).Nodup := by
    refine Nodup.of_map some ?_
    rw [hsome]
    exact hnodup.sublist ((filter_sublist (l := l)).map _)
  rw [hdoc.filterMap_candidateHeader, hnodup'.dedup, hwork]
  rfl

/-! ## A header credited twice

Three receipts under SHA-256 itself: two headers at height seven, and the first of them once more,
claimed at height eight for another script. -/

namespace Sample

def previousHash : Text := replicate 64 49

def template : Text := replicate 64 50

def header (nonce : Nat) : Text :=
  formatHex 8 0x04000000 ++ previousHash ++ replicate 64 51 ++ formatHex 16 0xffff7f20 ++
    formatHex 8 nonce

def first : Receipt where
  worker := ascii "a"
  height := 7
  previousBlockHash := previousHash
  headerHex := header 0x01000000
  nonce := 1
  hash := formatHex 64 0x5f57fffff4155abbb758baa991c02477887b5487f86156e25cf6e86e67274f0b
  bits := ascii "207fffff"
  blockCandidate := true
  payoutScriptHex := ascii "51"
  templateCommitment := template
  workId := formatHex 64 0x217645196f4a6eb9618204fac7393d135062731bd2d1c644f217ec63e3e76738
  receiptId := formatHex 64 0x36541d8c23968ad29fbec727a2a58fcd7ebcb413d0bdfd3f57d32ce3d4b1db8c

def second : Receipt where
  worker := ascii "b"
  height := 7
  previousBlockHash := previousHash
  headerHex := header 0x05000000
  nonce := 5
  hash := formatHex 64 0x5a678a48bfaa8ffe1bc59c0d90a3972e33bd6feaf5340488a91584d9e0d02852
  bits := ascii "207fffff"
  blockCandidate := true
  payoutScriptHex := ascii "52"
  templateCommitment := template
  workId := formatHex 64 0x4a95fb1ba6de09f5a920f3eae74cb305e441d5719543f2df394e425d3d4bba7b
  receiptId := formatHex 64 0xea45c386c316edd41ab0ad988ed50d5a6f765b6f0c77512796e50dd3a8e7be7b

def again : Receipt :=
  { first with
    worker := ascii "b"
    height := 8
    payoutScriptHex := ascii "52"
    workId := formatHex 64 0x0fcc78c95c17f5ab661cc95a6217fabb34b4ce03bc124505dc6b084ccc3687b4
    receiptId := formatHex 64 0xb121f02e4d0d31ac1549cff445d9da40afb8cd35ec4d27945f88acdb3ce5ddf5 }

theorem validateNormalizedReceipt_samples :
    validateNormalizedReceipt Sha256.sha256 first.toJson = .ok first ∧
    validateNormalizedReceipt Sha256.sha256 second.toJson = .ok second ∧
    validateNormalizedReceipt Sha256.sha256 again.toJson = .ok again := by
  decide +kernel

theorem valid_first : ValidReceipt Sha256.sha256 first :=
  (validateNormalizedReceipt_eq_ok.1 validateNormalizedReceipt_samples.1).2

theorem valid_second : ValidReceipt Sha256.sha256 second :=
  (validateNormalizedReceipt_eq_ok.1 validateNormalizedReceipt_samples.2.1).2

theorem valid_again : ValidReceipt Sha256.sha256 again :=
  (validateNormalizedReceipt_eq_ok.1 validateNormalizedReceipt_samples.2.2).2

theorem collection_first_second :
    validateReceiptCollection Sha256.sha256 [first.toJson, second.toJson] = .ok [first, second] :=
  validateReceiptCollection_eq_ok.2 ⟨areDocuments_toJson [first, second],
    by simpa using ⟨valid_first, valid_second⟩, by decide +kernel, by decide +kernel⟩

theorem collection_first_again :
    validateReceiptCollection Sha256.sha256 [first.toJson, again.toJson] = .ok [first, again] :=
  validateReceiptCollection_eq_ok.2 ⟨areDocuments_toJson [first, again],
    by simpa using ⟨valid_first, valid_again⟩, by decide +kernel, by decide +kernel⟩

end Sample

open Accounting.Sample

/-- The header counts for each of its two heights. -/
theorem header_credited_twice :
    validateReceiptCollection Sha256.sha256 [first.toJson, again.toJson] =
        .ok [first, again] ∧
      decodedHeader first.toJson = decodedHeader again.toJson ∧
      ¬ CreditedOnce Sha256.sha256 [first.toJson, again.toJson] := by
  have hsame : decodedHeader first.toJson = decodedHeader again.toJson := by
    decide +kernel
  refine ⟨collection_first_again, hsame, fun h => ?_⟩
  simpa [hsame] using h.1

theorem credited_once_first_second :
    SpeltOnce [first.toJson, second.toJson] ∧
      CreditedOnce Sha256.sha256 [first.toJson, second.toJson] := by
  have hspelt : SpeltOnce [first.toJson, second.toJson] := by
    unfold SpeltOnce
    decide +kernel
  exact ⟨hspelt, (credited_once_iff collection_first_second).2 hspelt⟩

end Soveroot.Accounting
