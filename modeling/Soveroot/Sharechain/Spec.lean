import Soveroot.Lib.Forest
import Soveroot.Sharechain.Graph

/-!
# What the reference validator accepts

`ValidShare` lists what a share passes on its own; a document validates to a share exactly when it
is that share's document and the share is valid (`validateShare_eq_ok`).

`Distinct` and `Linked` say when a list of valid shares is a share graph: no identifier twice, one
root, and below it every share one step after its parent. They are all the validator asks, although
it goes through a stable sort, insertion-ordered dictionaries and a table of cumulative work.
-/

namespace Soveroot

open Py Check List Json Dict

/-! ## One share -/

/-- What `validateShare` asks of the header bytes of a share. -/
structure ValidHeader (sha256 : HashFn) (s : Share) (header : Bytes) : Prop where
  decodes : fromHex s.headerHex = some header
  length : header.length = 80
  previous : hex ((header.drop 4).take 32).reverse = s.roundPreviousBlockHash
  bits : formatHex 8 (fromBytesLE ((header.drop 72).take 4)) = networkBits
  hash : hex (hash256 sha256 header).bytes.reverse = s.headerHash
  meets_target : fromBytesLE (hash256 sha256 header).bytes ≤ shareTarget
  candidate : s.blockCandidate =
    decide (fromBytesLE (hash256 sha256 header).bytes ≤ networkTarget)

/-- What a share passes on its own. -/
structure ValidShare (sha256 : HashFn) (rounds : RoundTable) (s : Share) : Prop where
  sequence_le : s.sequence ≤ 0xFFFFFFFF
  previousShareId : IsHex 32 s.previousShareId
  roundPreviousBlockHash : IsHex 32 s.roundPreviousBlockHash
  headerHash : IsHex 32 s.headerHash
  templateCommitment : IsHex 32 s.templateCommitment
  workId : IsHex 32 s.workId
  shareId : IsHex 32 s.shareId
  context : ∃ r, rounds.get? s.round = some r ∧ r.templateCommitment = s.templateCommitment
  script_length : 2 ≤ s.payoutScriptHex.length ∧ s.payoutScriptHex.length ≤ 20000 ∧
    s.payoutScriptHex.length % 2 = 0
  script_hex : (fromHex s.payoutScriptHex).isSome
  script_lower : s.payoutScriptHex = lower s.payoutScriptHex
  header_lower : s.headerHex = lower s.headerHex
  header : ∃ header, ValidHeader sha256 s header
  workId_eq : canonicalHash sha256 (workIdentity s.raw) = s.workId
  shareId_eq : canonicalHash sha256 (shareBody s.raw) = s.shareId

theorem Share.raw_injective : Function.Injective Share.raw := by
  rintro ⟨⟩ ⟨⟩ h
  have hf := And.intro (congrFun h .sequence) <| And.intro (congrFun h .previousShareId) <|
    And.intro (congrFun h .roundHeight) <| And.intro (congrFun h .roundPreviousBlockHash) <|
    And.intro (congrFun h .headerHex) <| And.intro (congrFun h .headerHash) <|
    And.intro (congrFun h .templateCommitmentSha256) <|
    And.intro (congrFun h .payoutScriptHex) <| And.intro (congrFun h .workIdSha256) <|
    And.intro (congrFun h .blockCandidate) (congrFun h .shareIdSha256)
  simpa [Share.raw] using hf

variable {value : Json}

theorem validateScript_eq_ok {t : Text} : validateScript value = .ok t ↔ value = .str t ∧
      (2 ≤ t.length ∧ t.length ≤ 20000 ∧ t.length % 2 = 0) ∧ (fromHex t).isSome ∧ t = lower t := by
  simp only [validateScript, bind_eq_ok, orRaise_eq_ok, Option.filter_eq_some_iff,
    asText_eq_some, decide_eq_true_eq, require_eq_ok, exists_const, pure_eq_ok,
    Except.ok.injEq, Option.isSome_iff_exists]
  constructor
  · rintro ⟨_, ⟨hv, hlen⟩, b, hb, hlow, rfl⟩
    exact ⟨hv, hlen, ⟨b, hb⟩, hlow⟩
  · rintro ⟨hv, hlen, ⟨b, hb⟩, hlow⟩
    exact ⟨t, ⟨hv, hlen⟩, b, hb, hlow, rfl⟩

variable {sha256 : HashFn} {rounds : RoundTable} {s : Share}

/-- A document validates to `s` exactly when it is the document of `s` and `s` is valid. -/
theorem validateShare_eq_ok : validateShare sha256 value rounds = .ok s ↔
      record? ShareField value = some s.raw ∧ ValidShare sha256 rounds s := by
  simp only [validateShare, bind_eq_ok, orRaise_eq_ok, require_eq_ok, requireHex_eq_ok,
    validateScript_eq_ok, pure_eq_ok, Except.ok.injEq, Option.filter_eq_some_iff, decide_eq_true_eq,
      isText_iff,
    asInt_eq_some, asText_eq_some, asBool_eq_some, exists_const]
  constructor
  · rintro ⟨share, hrec, ⟨hformat, hprofile, hchain⟩, n, ⟨hseq, hn, hmax⟩, height, hheight, prev,
      ⟨hprev, hprevHex⟩, roundPrev, ⟨hroundPrev, hroundHex⟩, hash, ⟨hhash, hhashHex⟩, template,
      ⟨htemplate, htemplateHex⟩, work, ⟨hwork, hworkHex⟩, ident, ⟨hident, hidentHex⟩, htarget,
      hbits, r, ⟨hr, hcommit⟩, script, ⟨hscript, hlen, hdigits, hlower⟩, candidate, hcandidate,
      headerText, hheaderText, header, hdecode, ⟨h80, hheaderLower⟩, hprevious, hheaderBits,
      hheaderHash, hmeets, hcand, hworkId, hshareId, rfl⟩
    obtain ⟨k, rfl⟩ := Int.eq_ofNat_of_zero_le hn
    have hraw : share = Share.raw ⟨k, prev, height, roundPrev, headerText, hash, template,
        script, work, candidate, ident⟩ := by
      funext f
      cases f <;> assumption
    subst hraw
    have hk : k ≤ 0xFFFFFFFF := by omega
    exact ⟨hrec, hk, hprevHex, hroundHex, hhashHex, htemplateHex, hworkHex, hidentHex,
      ⟨r, hr, hcommit⟩, hlen, hdigits, hlower, hheaderLower,
      ⟨header, hdecode, h80, hprevious, hheaderBits, hheaderHash, hmeets, hcand⟩, hworkId,
      hshareId⟩
  · rintro ⟨hrec, h⟩
    obtain ⟨r, hr, hcommit⟩ := h.context
    obtain ⟨header, hh⟩ := h.header
    have hseq := h.sequence_le
    exact ⟨s.raw, hrec, ⟨rfl, rfl, rfl⟩, s.sequence, ⟨rfl, by omega, by omega⟩,
      s.roundHeight, rfl, _, ⟨rfl, h.previousShareId⟩, _, ⟨rfl, h.roundPreviousBlockHash⟩, _,
      ⟨rfl, h.headerHash⟩, _, ⟨rfl, h.templateCommitment⟩, _, ⟨rfl, h.workId⟩, _,
      ⟨rfl, h.shareId⟩, rfl, rfl, r, ⟨hr, hcommit⟩, _,
      ⟨rfl, h.script_length, h.script_hex, h.script_lower⟩, _, rfl, _, rfl, header, hh.decodes,
        ⟨hh.length, h.header_lower⟩,
      hh.previous, hh.bits, hh.hash, hh.meets_target, hh.candidate, h.workId_eq, h.shareId_eq,
      rfl⟩

/-- The document of a share validates exactly when the share is valid, and to that share. -/
theorem validateShare_toJson {t : Share} :
    validateShare sha256 s.toJson rounds = .ok t ↔ t = s ∧ ValidShare sha256 rounds s := by
  rw [validateShare_eq_ok, Share.toJson, record?_ofRecord, Option.some.injEq,
    Share.raw_injective.eq_iff]
  constructor
  · rintro ⟨rfl, h⟩
    exact ⟨rfl, h⟩
  · rintro ⟨rfl, h⟩
    exact ⟨rfl, h⟩

/-! ## Indexing -/

/-- No share or proof identifier occurs twice. -/
structure Distinct (l : List Share) : Prop where
  shareIds : (l.map Share.shareId).Nodup
  workIds : (l.map Share.workId).Nodup

def Index.ofShares (l : List Share) : Index :=
  ⟨l, Dict.ofList (l.map fun s => (s.shareId, s)), Dict.ofList (l.map fun s => (s.workId, s))⟩

theorem Index.push_ofShares (l : List Share) (s : Share) :
    (Index.ofShares l).push s = Index.ofShares (l ++ [s]) := by
  simp only [Index.ofShares, Index.push, map_append, map_cons, map_nil,
    ofList_append_singleton]

variable {l : List Share} {k : Text}

theorem mem_keys_byId : k ∈ (Index.ofShares l).byId.keys ↔ k ∈ l.map Share.shareId := by
  simp [Index.ofShares, mem_keys_ofList]

theorem mem_keys_byWork : k ∈ (Index.ofShares l).byWork.keys ↔ k ∈ l.map Share.workId := by
  simp [Index.ofShares, mem_keys_ofList]

namespace Distinct

variable {l : List Share} {s : Share} (h : Distinct l)
include h

theorem get?_byId {k : Text} :
    (Index.ofShares l).byId.get? k = some s ↔ s ∈ l ∧ s.shareId = k := by
  rw [Index.ofShares, get?_ofList (by simpa [Function.comp_def] using h.shareIds)]
  simp only [mem_map, Prod.mk.injEq]
  constructor
  · rintro ⟨s, hs, rfl, rfl⟩
    exact ⟨hs, rfl⟩
  · rintro ⟨hs, rfl⟩
    exact ⟨s, hs, rfl, rfl⟩

theorem size_byId : (Index.ofShares l).byId.size = l.length := by
  rw [Index.ofShares, Dict.size, entries_ofList (by simpa [Function.comp_def] using h.shareIds),
    length_map]

theorem keys_byId : (Index.ofShares l).byId.keys = l.map Share.shareId := by
  rw [Index.ofShares, Dict.keys, entries_ofList (by simpa [Function.comp_def] using h.shareIds),
    map_map]
  rfl

variable {t : Share}

theorem eq_of_shareId (hs : s ∈ l) (ht : t ∈ l) (hst : s.shareId = t.shareId) :
    s = t :=
  inj_on_of_nodup_map h.shareIds hs ht hst

theorem eq_of_workId (hs : s ∈ l) (ht : t ∈ l) (hst : s.workId = t.workId) :
    s = t :=
  inj_on_of_nodup_map h.workIds hs ht hst

variable {l' : List Share}

theorem perm (hp : l.Perm l') : Distinct l' :=
  ⟨(hp.map _).nodup_iff.1 h.shareIds, (hp.map _).nodup_iff.1 h.workIds⟩

theorem sublist (hs : l'.Sublist l) : Distinct l' :=
  ⟨(hs.map _).nodup h.shareIds, (hs.map _).nodup h.workIds⟩

end Distinct

theorem distinct_nil : Distinct [] := ⟨nodup_nil, nodup_nil⟩

theorem distinct_append_singleton : Distinct (l ++ [s]) ↔
      Distinct l ∧ s.shareId ∉ l.map Share.shareId ∧ s.workId ∉ l.map Share.workId := by
  have hnodup : ∀ (f : Share → Text),
      ((l ++ [s]).map f).Nodup ↔ (l.map f).Nodup ∧ f s ∉ l.map f := fun f => by
    rw [map_append, map_singleton, nodup_append_comm, singleton_append,
      nodup_cons, and_comm]
  constructor
  · rintro ⟨hid, hwork⟩
    obtain ⟨hid, hs⟩ := (hnodup _).1 hid
    obtain ⟨hwork, hw⟩ := (hnodup _).1 hwork
    exact ⟨⟨hid, hwork⟩, hs, hw⟩
  · rintro ⟨⟨hid, hwork⟩, hs, hw⟩
    exact ⟨(hnodup _).2 ⟨hid, hs⟩, (hnodup _).2 ⟨hwork, hw⟩⟩

variable {ix : Index}

theorem indexShare_eq_ok {ix' : Index} : indexShare sha256 rounds ix value = .ok ix' ↔
      ∃ s, validateShare sha256 value rounds = .ok s ∧ s.shareId ∉ ix.byId.keys ∧
        s.workId ∉ ix.byWork.keys ∧ ix' = ix.push s := by
  rw [indexShare, bind_eq_ok]
  refine exists_congr fun s => and_congr_right fun _ => ?_
  simp only [bind_eq_ok, require_eq_ok, exists_const, contains_eq_false_iff]
  refine and_congr_right fun _ => ?_
  rw [← get?_eq_none_iff]
  cases ix.byWork.get? s.workId with
  | none => simp [eq_comm]
  | some prior => simp [bind_eq_ok]

/-- The documents of a list validate one by one to the given shares. -/
def Validates (sha256 : HashFn) (rounds : RoundTable) : List Json → List Share → Prop :=
  Forall₂ fun value s => validateShare sha256 value rounds = .ok s

/-- The first loop of `evaluateGraph` succeeds on the lists of valid shares without repeated
identifiers, and builds their index. -/
theorem foldlM_indexShare_eq_ok {values : List Json} {done : List Share} (hd : Distinct done) :
    values.foldlM (indexShare sha256 rounds) (Index.ofShares done) = .ok ix ↔
      ∃ l, Validates sha256 rounds values l ∧ Distinct (done ++ l) ∧
        ix = Index.ofShares (done ++ l) := by
  induction values generalizing done with
  | nil =>
    rw [foldlM_nil, pure_eq_ok, Except.ok.injEq]
    constructor
    · rintro rfl
      exact ⟨[], .nil, by simpa using hd, by simp⟩
    · rintro ⟨l, hv, -, rfl⟩
      cases hv
      simp
  | cons value values ih =>
    rw [foldlM_cons, bind_eq_ok]
    constructor
    · rintro ⟨ix₁, h₁, h⟩
      obtain ⟨s, hs, hid, hwork, rfl⟩ := indexShare_eq_ok.1 h₁
      rw [mem_keys_byId] at hid
      rw [mem_keys_byWork] at hwork
      rw [Index.push_ofShares] at h
      obtain ⟨l, hv, hd', rfl⟩ := (ih (distinct_append_singleton.2 ⟨hd, hid, hwork⟩)).1 h
      exact ⟨s :: l, .cons hs hv, by simpa using hd', by simp⟩
    · rintro ⟨l, hv, hd', rfl⟩
      cases hv with
      | @cons _ s _ l hs hv =>
        rw [append_cons] at hd'
        obtain ⟨-, hid, hwork⟩ := distinct_append_singleton.1
          (hd'.sublist (sublist_append_left _ l))
        refine ⟨(Index.ofShares done).push s, indexShare_eq_ok.2 ⟨s, hs, ?_, ?_, rfl⟩, ?_⟩
        · rwa [mem_keys_byId]
        · rwa [mem_keys_byWork]
        · rw [Index.push_ofShares]
          exact (ih (hd'.sublist (sublist_append_left _ l))).2 ⟨l, hv, hd', by simp⟩

/-! ## The shape of a graph -/

/-- What `checkTransition` asks. -/
def Transition (p s : Share) : Prop :=
  if s.round = p.round then p.blockCandidate = false
  else p.blockCandidate = true ∧ s.roundHeight = p.roundHeight + 1 ∧
    s.roundPreviousBlockHash = p.headerHash

theorem checkTransition_cases (p s : Share) :
    (Transition p s ∧ checkTransition p s = .ok ()) ∨
      (¬ Transition p s ∧
        ∃ d, checkTransition p s = .error (.profileError .roundTransition d)) := by
  unfold Transition checkTransition require
  split_ifs with _ h h
  · exact .inl ⟨h, rfl⟩
  · exact .inr ⟨h, _, rfl⟩
  · exact .inl ⟨h, rfl⟩
  · exact .inr ⟨h, _, rfl⟩

def Share.IsRoot (s : Share) : Prop := s.previousShareId = zeroId

instance (s : Share) : Decidable s.IsRoot := inferInstanceAs (Decidable (_ = _))

/-- `p` is the share `s` names as its parent. -/
def Share.IsParent (p s : Share) : Prop := ¬ s.IsRoot ∧ s.previousShareId = p.shareId

/-- `s` may follow its parent `p`. -/
structure Extends (p s : Share) : Prop where
  parent : s.previousShareId = p.shareId
  sequence : s.sequence = p.sequence + 1
  transition : Transition p s

/-- A share is placed in a graph: it is a root or extends one of the others. -/
def Placed (l : List Share) (s : Share) : Prop := s.IsRoot ∨ ∃ p ∈ l, Extends p s

/-- Exactly one root, of sequence zero, and every share placed. -/
structure Linked (l : List Share) : Prop where
  root : (l.filter fun s => s.IsRoot).map Share.sequence = [0]
  placed : ∀ s ∈ l, Placed l s

namespace Linked

variable {l : List Share}

theorem exists_root (h : Linked l) : ∃ r ∈ l, r.IsRoot ∧ r.sequence = 0 ∧
    ∀ s ∈ l, s.IsRoot → s = r := by
  obtain ⟨r, hr, hseq⟩ := map_eq_singleton_iff.1 h.root
  have hmem : ∀ s, s ∈ l ∧ s.IsRoot ↔ s = r := fun s => by
    rw [← mem_singleton, ← hr, mem_filter, decide_eq_true_eq]
  obtain ⟨hrl, hroot⟩ := (hmem r).2 rfl
  exact ⟨r, hrl, hroot, hseq, fun s hs hsr => (hmem s).1 ⟨hs, hsr⟩⟩

theorem ne_nil (h : Linked l) : l ≠ [] := by
  obtain ⟨r, hr, -⟩ := h.exists_root
  exact ne_nil_of_mem hr

theorem perm {l' : List Share} (h : Linked l) (hp : l.Perm l') : Linked l' := by
  constructor
  · have hroots := (hp.filter fun s => decide s.IsRoot).map Share.sequence
    rw [h.root] at hroots
    exact perm_singleton.1 hroots.symm
  · intro s hs
    obtain hr | ⟨p, hpl, hext⟩ := h.placed s (hp.mem_iff.2 hs)
    · exact .inl hr
    · exact .inr ⟨p, hp.mem_iff.1 hpl, hext⟩

theorem ranked (h : Linked l) (hd : Distinct l) :
    Forest.Ranked Share.IsRoot Share.IsParent Share.sequence l where
  rank_root s hs hr := by
    obtain ⟨r, -, -, hr0, huniq⟩ := h.exists_root
    rw [huniq s hs hr, hr0]
  rank_link p hp s hs hlink := by
    obtain hr | ⟨q, hq, hext⟩ := h.placed s hs
    · exact absurd hr hlink.1
    · rw [hd.eq_of_shareId hp hq (hlink.2.symm.trans hext.parent)]
      exact hext.sequence
  covered s hs := by
    obtain hr | ⟨p, hp, hext⟩ := h.placed s hs
    · exact .inl hr
    · by_cases hr : s.IsRoot
      · exact .inl hr
      · exact .inr ⟨p, hp, hr, hext.parent⟩

end Linked

end Soveroot
