import Soveroot.Sharechain.Selection

/-!
# One proof, one share

A proof is counted once when no two shares of an accepted graph decode to the same header. The
validator enforces this through the work identifier, which hashes the *text* of the header and
the round height, not the header bytes.

`bytes.fromhex` skips whitespace, so one header has many spellings, each with a work identifier of
its own. In an accepted graph the headers are distinct exactly when no two shares spell one header
differently (`nodup_decodedHeader_iff`).
-/

namespace Soveroot

open Py Check

/-- `share["header_hex"]` and `share["round_height"]`: what the work identifier hashes. -/
def headerSpelling (value : Json) : Option (Text × Int) := do
  let share ← Json.record? ShareField value
  let text ← (share .headerHex).asText
  let height ← (share .roundHeight).asInt
  some (text, height)

/-- `bytes.fromhex(share["header_hex"])`. -/
def decodedHeader (value : Json) : Option Bytes := (headerSpelling value).bind fun p => fromHex p.1

/-- Shares whose header texts agree up to whitespace have the same text, at the same height. -/
def SpeltOnce (values : List Json) : Prop :=
  (values.map headerSpelling).Pairwise fun a b =>
    a.map (fun p => dropSpaces p.1) = b.map (fun p => dropSpaces p.1) → a = b

section

variable {sha256 : HashFn} {rounds : RoundTable} {s : Share}

theorem headerSpelling_of_validateShare {value : Json}
    (h : validateShare sha256 value rounds = .ok s) :
    headerSpelling value = some (s.headerHex, s.roundHeight) := by
  rw [headerSpelling, (validateShare_eq_ok.1 h).1]
  rfl

variable {t : Share}

section

variable (hs : ValidShare sha256 rounds s) (ht : ValidShare sha256 rounds t)
include hs ht

theorem ValidShare.workId_eq_of_spelling (hhex : s.headerHex = t.headerHex)
    (hheight : s.roundHeight = t.roundHeight) : s.workId = t.workId := by
  rw [← hs.workId_eq, ← ht.workId_eq]
  simp only [workIdentity, Share.raw, hhex, hheight]

/-- Two valid shares decode to one header exactly when their texts agree up to whitespace. -/
theorem ValidShare.fromHex_eq_iff : fromHex s.headerHex = fromHex t.headerHex ↔
      dropSpaces s.headerHex = dropSpaces t.headerHex := by
  obtain ⟨b, hb⟩ := hs.header
  obtain ⟨c, hc⟩ := ht.header
  rw [hb.decodes, hc.decodes, Option.some.injEq]
  exact Py.fromHex_eq_iff hb.decodes hc.decodes hs.header_lower.symm ht.header_lower.symm

end

variable {values : List Json} {l : List Share}

section

variable (h : Validates sha256 rounds values l)
include h

theorem Validates.valid :
    ∀ s ∈ l, ValidShare sha256 rounds s := by
  induction h with
  | nil => simp
  | cons hs _ ih =>
    intro t ht
    obtain rfl | ht := List.mem_cons.1 ht
    · exact (validateShare_eq_ok.1 hs).2
    · exact ih t ht

theorem Validates.map_headerSpelling :
    values.map headerSpelling = l.map fun s => some (s.headerHex, s.roundHeight) := by
  induction h with
  | nil => rfl
  | cons hs _ ih => rw [List.map_cons, List.map_cons, headerSpelling_of_validateShare hs, ih]

theorem Validates.map_decodedHeader :
    values.map decodedHeader = l.map fun s => fromHex s.headerHex := by
  have hmap : values.map decodedHeader =
      (values.map headerSpelling).map fun o => o.bind fun p => fromHex p.1 := by
    rw [List.map_map]
    rfl
  rw [hmap, h.map_headerSpelling, List.map_map]
  rfl

end

/-- Among shares with distinct work identifiers, one spelling belongs to one share. -/
theorem spelling_injective (hd : Distinct l) (hv : ∀ s ∈ l, ValidShare sha256 rounds s) (hs : s ∈ l)
    (ht : t ∈ l) (h : (s.headerHex, s.roundHeight) = (t.headerHex, t.roundHeight)) : s = t := by
  obtain ⟨hhex, hheight⟩ := Prod.mk.inj h
  exact hd.eq_of_workId hs ht ((hv s hs).workId_eq_of_spelling (hv t ht) hhex hheight)

end

/-- **One proof, one share.** In an accepted graph the headers are distinct exactly when no
header is spelt in two ways. -/
theorem nodup_decodedHeader_iff {sha256 : HashFn} {values : List Json} {roundsDocument : Json}
    {st : GraphState} (h : evaluateGraph sha256 (.arr values) roundsDocument = .ok st) :
    (values.map decodedHeader).Nodup ↔ SpeltOnce values := by
  obtain ⟨rounds, _, l, -, heq, -, hvals, hd, -, -⟩ := evaluateGraph_eq_ok.1 h
  obtain rfl := Json.arr.inj heq
  have hv := hvals.valid
  have hnodup : l.Nodup := List.Nodup.of_map _ hd.shareIds
  rw [SpeltOnce, hvals.map_decodedHeader, hvals.map_headerSpelling, List.nodup_iff_pairwise_ne,
    List.pairwise_map, List.pairwise_map]
  refine ⟨fun hne => ?_, fun hspelt => ?_⟩
  · refine hne.imp_of_mem fun {s t} hs ht hst hdrop => absurd ?_ hst
    exact ((hv s hs).fromHex_eq_iff (hv t ht)).2 (Option.some.inj hdrop)
  · refine (hspelt.and hnodup).imp_of_mem fun {s t} hs ht hst hhex => ?_
    have hdrop := ((hv s hs).fromHex_eq_iff (hv t ht)).1 hhex
    exact hst.2 (spelling_injective hd hv hs ht (Option.some.inj (hst.1 (congrArg some hdrop))))

/-! ## A copied proof

Three shares under SHA-256 itself: a root, an honest child, and a child of the root whose header
is the root's, with a blank in front, and whose payout script is another. -/

namespace Sample

def roundPrevious : Text := List.replicate 64 49

def template : Text := List.replicate 64 50

/-- One trusted round, at height seven. -/
def rounds : Json := .arr [Json.ofRecord (F := RoundField) fun
  | .height => .int 7
  | .previousBlockHash => .str roundPrevious
  | .networkBits => .str networkBits
  | .templateCommitmentSha256 => .str template]

def header (nonce : Nat) : Text :=
  formatHex 8 0x04000000 ++ roundPrevious ++ List.replicate 64 51 ++ formatHex 16 0xffff7f20 ++
    formatHex 8 nonce

def root : Share where
  sequence := 0
  previousShareId := zeroId
  roundHeight := 7
  roundPreviousBlockHash := roundPrevious
  headerHex := header 0
  headerHash := formatHex 64 0xb70c105ccdbf8ddf9d2d08c54f4018f3fdfcbf08f7dfa0d40ec2b42297085272
  templateCommitment := template
  payoutScriptHex := ascii "51"
  workId := formatHex 64 0xd9bc4e7ab329c01f6c985e907922603a8fe82ff145210646eb7430ffaa8dbc55
  blockCandidate := false
  shareId := formatHex 64 0x6144f69629d2e3115b2d99e8f71cd0d15d19395e1474390bfae9bf08198cca92

def child : Share where
  sequence := 1
  previousShareId := root.shareId
  roundHeight := 7
  roundPreviousBlockHash := roundPrevious
  headerHex := header 0x04000000
  headerHash := formatHex 64 0xace4943fe60185cca8d60878f2dd7ba44f3d66e669501aa1c4b09c6d3aff78c5
  templateCommitment := template
  payoutScriptHex := ascii "52"
  workId := formatHex 64 0x1ea910e50c9709b575cc018a4730e02c164f49f9e0246a9b0e7618c0be730cf3
  blockCandidate := false
  shareId := formatHex 64 0xa9f2cf76c44dbdfe23d9835b171536d340a359f5daa05a7809c260f331b949f3

def copy : Share where
  sequence := 1
  previousShareId := root.shareId
  roundHeight := 7
  roundPreviousBlockHash := roundPrevious
  headerHex := 32 :: header 0
  headerHash := root.headerHash
  templateCommitment := template
  payoutScriptHex := ascii "52"
  workId := formatHex 64 0xf23037cde08080a6e59473057b8fa48267e0e619a29c9708ef34788f8a2f9e50
  blockCandidate := false
  shareId := formatHex 64 0xfc8699925d2fdcfced5d9934e962ff5c9be4c5cf67d9158322d67334bf436109

/-- The state of a root and one child. -/
def state (tip : Share) : GraphState where
  selectedTipShareId := tip.shareId
  selectedCumulativeWork := 4
  selectedPathShareIds := [root.shareId, tip.shareId]
  finalizedShareIds := []
  payoutWindowShareIds := []
  payoutClaims := []

/-- The table of `rounds`. -/
def table : RoundTable :=
  Dict.empty.set (7, roundPrevious) ⟨7, roundPrevious, template⟩

theorem validateRounds_rounds : validateRounds rounds = .ok table := by decide +kernel

theorem validateShare_samples : validateShare Sha256.sha256 root.toJson table = .ok root ∧
    validateShare Sha256.sha256 child.toJson table = .ok child ∧
    validateShare Sha256.sha256 copy.toJson table = .ok copy := by
  decide +kernel

theorem validateShare_root : validateShare Sha256.sha256 root.toJson table = .ok root :=
  validateShare_samples.1

theorem validateShare_child : validateShare Sha256.sha256 child.toJson table = .ok child :=
  validateShare_samples.2.1

theorem validateShare_copy : validateShare Sha256.sha256 copy.toJson table = .ok copy :=
  validateShare_samples.2.2

theorem evaluateGraph_root_child :
    evaluateGraph Sha256.sha256 (.arr [root.toJson, child.toJson]) rounds = .ok (state child) := by
  have hd : Distinct [root, child] := ⟨by decide +kernel, by decide +kernel⟩
  rw [evaluateGraph_of_validates validateRounds_rounds
    (.cons validateShare_root (.cons validateShare_child .nil)) hd (by simp) (by decide)]
  decide +kernel

theorem evaluateGraph_root_copy :
    evaluateGraph Sha256.sha256 (.arr [root.toJson, copy.toJson]) rounds = .ok (state copy) := by
  have hd : Distinct [root, copy] := ⟨by decide +kernel, by decide +kernel⟩
  rw [evaluateGraph_of_validates validateRounds_rounds
    (.cons validateShare_root (.cons validateShare_copy .nil)) hd (by simp) (by decide)]
  decide +kernel

end Sample

open Sample

/-- The copied header is accepted next to the original, under another payout script. -/
theorem copied_header_accepted :
    evaluateGraph Sha256.sha256 (.arr [root.toJson, copy.toJson]) rounds =
        .ok (state copy) ∧
      decodedHeader root.toJson = decodedHeader copy.toJson ∧
      root.payoutScriptHex ≠ copy.payoutScriptHex := by
  refine ⟨evaluateGraph_root_copy, ?_, ?_⟩
  · decide +kernel
  · decide +kernel

theorem nodup_decodedHeader_root_child :
    SpeltOnce [root.toJson, child.toJson] ∧
      ([root.toJson, child.toJson].map decodedHeader).Nodup := by
  have hspelt : SpeltOnce [root.toJson, child.toJson] := by
    unfold SpeltOnce
    decide +kernel
  exact ⟨hspelt, (nodup_decodedHeader_iff evaluateGraph_root_child).2 hspelt⟩

end Soveroot
