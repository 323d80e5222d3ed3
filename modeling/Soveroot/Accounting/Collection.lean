import Soveroot.Accounting.Receipt

/-!
# Collections of receipts

`validate_receipt_collection` and `merge_receipts`. A collection has no receipt twice, and no two
receipts for one work identity (`IsCollection`). Merging returns the receipts that are new, in the
order of their identifiers, unless one contradicts a known one (`mergeReceipts_eq_ok`).
-/

namespace Soveroot.Accounting

open Py Check List

/-! ## Validation -/

/-- The variables of the loop of `validateReceiptCollection`, with the receipts so far. -/
structure Collected where
  receipts : List Receipt
  byReceipt : Dict Text Receipt
  byWork : Dict Text Receipt

/-- `by_receipt[receipt_id] = receipt` and `by_work[work_id] = receipt`. -/
def Collected.push (c : Collected) (r : Receipt) : Collected :=
  ⟨c.receipts ++ [r], c.byReceipt.set r.receiptId r, c.byWork.set r.workId r⟩

/-- The body of the loop of `validateReceiptCollection`. -/
def collectNext (sha256 : HashFn) (c : Collected) (rawReceipt : Json) :
    Except Exn Collected := do
  let receipt ← validateNormalizedReceipt sha256 rawReceipt
  match c.byReceipt.get? receipt.receiptId with
  | some previous => do
      require (previous = receipt) (error "conflicting content for one receipt identifier")
      throw (error "duplicate receipt identifier in receipt set")
  | none => do
      require ((c.byWork.get? receipt.workId).all fun previous => previous = receipt)
        (error "one work identity has conflicting receipt content")
      pure (c.push receipt)

/-- `validate_receipt_collection`. It returns nothing in the source; here it returns the receipts
it has read, which is what its callers go on to use. -/
def validateReceiptCollection (sha256 : HashFn) (receipts : List Json) :
    Except Exn (List Receipt) := do
  let c ← receipts.foldlM (collectNext sha256) ⟨[], Dict.empty, Dict.empty⟩
  pure c.receipts

structure IsCollection (sha256 : HashFn) (l : List Receipt) : Prop where
  valid : ∀ r ∈ l, ValidReceipt sha256 r
  receiptIds : (l.map Receipt.receiptId).Nodup
  workIds : (l.map Receipt.workId).Nodup

/-- The documents of a list of receipts, whatever the order of their keys. -/
def AreDocuments (documents : List Json) (l : List Receipt) : Prop :=
  documents.map (Json.record? ReceiptField) = l.map fun r => some r.raw

theorem areDocuments_toJson (l : List Receipt) : AreDocuments (l.map Receipt.toJson) l := by
  rw [AreDocuments, map_map]
  exact map_congr_left fun r _ => Json.record?_ofRecord r.raw

theorem raw_injective : Function.Injective Receipt.raw := by
  intro r s h
  have hfield : ∀ f, r.raw f = s.raw f := congrFun h
  cases r
  cases s
  simp only [Receipt.mk.injEq]
  exact ⟨Json.str.inj (hfield .worker), Int.ofNat.inj (Json.int.inj (hfield .height)),
    Json.str.inj (hfield .previousBlockHash), Json.str.inj (hfield .headerHex),
    Int.ofNat.inj (Json.int.inj (hfield .nonce)), Json.str.inj (hfield .hash),
    Json.str.inj (hfield .bits), Json.bool.inj (hfield .blockCandidate),
    Json.str.inj (hfield .payoutScriptHex), Json.str.inj (hfield .templateCommitmentSha256),
    Json.str.inj (hfield .workIdSha256), Json.str.inj (hfield .receiptIdSha256)⟩

variable {documents : List Json} {l l' : List Receipt}

theorem AreDocuments.unique (h : AreDocuments documents l) (h' : AreDocuments documents l') :
    l = l' :=
  map_injective_iff.2 (fun _ _ heq => raw_injective (Option.some.inj heq)) (h.symm.trans h')

theorem areDocuments_iff : AreDocuments documents l ↔
      Forall₂ (fun d r => Json.record? ReceiptField d = some r.raw) documents l := by
  rw [AreDocuments, ← forall₂_eq_eq_eq, forall₂_map_left_iff, forall₂_map_right_iff]

theorem AreDocuments.perm {documents' : List Json} (h : AreDocuments documents l)
    (hperm : documents'.Perm documents) : ∃ l', AreDocuments documents' l' ∧ l'.Perm l := by
  obtain ⟨l', hl', hperm'⟩ := perm_comp_forall₂ hperm (areDocuments_iff.1 h)
  exact ⟨l', areDocuments_iff.2 hl', hperm'⟩

def Collected.ofList (l : List Receipt) : Collected :=
  ⟨l, Dict.ofList (l.map fun r => (r.receiptId, r)), Dict.ofList (l.map fun r => (r.workId, r))⟩

theorem Collected.push_ofList (l : List Receipt) (r : Receipt) :
    (Collected.ofList l).push r = Collected.ofList (l ++ [r]) := by
  simp only [ofList, push, map_append, map_cons, map_nil,
    Dict.ofList_append_singleton]

section Dictionaries

variable {key : Receipt → Text} {l : List Receipt} {k : Text}

/-- A dictionary of receipts by a key that no two of them share. -/
theorem get?_byKey (h : (l.map key).Nodup) {r : Receipt} :
    (Dict.ofList (l.map fun r => (key r, r))).get? k = some r ↔ r ∈ l ∧ key r = k := by
  rw [Dict.get?_ofList (by simpa [Function.comp_def] using h)]
  simp only [mem_map, Prod.mk.injEq]
  constructor
  · rintro ⟨r, hr, rfl, rfl⟩
    exact ⟨hr, rfl⟩
  · rintro ⟨hr, rfl⟩
    exact ⟨r, hr, rfl, rfl⟩

theorem get?_byKey_eq_none :
    (Dict.ofList (l.map fun r => (key r, r))).get? k = none ↔ k ∉ l.map key := by
  rw [Dict.get?_eq_none_iff, Dict.mem_keys_ofList, map_map]
  rfl

theorem nodup_map_concat {r : Receipt} :
    ((l ++ [r]).map key).Nodup ↔ (l.map key).Nodup ∧ key r ∉ l.map key := by
  rw [map_append, map_singleton, nodup_append']
  simp

theorem nodup_map_of_append {l' : List Receipt} (h : ((l ++ l').map key).Nodup) :
    (l.map key).Nodup :=
  ((sublist_append_left l l').map key).nodup h

end Dictionaries

variable {sha256 : HashFn} {c : Collected}

theorem collectNext_eq_ok {done : List Receipt} {document : Json}
    (hids : (done.map Receipt.receiptId).Nodup) (hwork : (done.map Receipt.workId).Nodup) :
    collectNext sha256 (Collected.ofList done) document = .ok c ↔
      ∃ r, validateNormalizedReceipt sha256 document = .ok r ∧
        r.receiptId ∉ done.map Receipt.receiptId ∧ r.workId ∉ done.map Receipt.workId ∧
        c = Collected.ofList (done ++ [r]) := by
  rw [collectNext, bind_eq_ok]
  refine exists_congr fun r => and_congr_right fun _ => ?_
  simp only [Collected.push_ofList]
  cases hget : (Collected.ofList done).byReceipt.get? r.receiptId with
  | some previous =>
    have hmem := (get?_byKey hids).1 hget
    have hid : r.receiptId ∈ done.map Receipt.receiptId :=
      mem_map.2 ⟨previous, hmem.1, hmem.2⟩
    simp [hid, bind_eq_ok]
  | none =>
    have hid : r.receiptId ∉ done.map Receipt.receiptId := get?_byKey_eq_none.1 hget
    -- an equal receipt would have been found by its identifier
    have hnew : ((Collected.ofList done).byWork.get? r.workId).all (fun previous => previous = r) =
        true ↔ r.workId ∉ done.map Receipt.workId := by
      cases hw : (Collected.ofList done).byWork.get? r.workId with
      | none => simpa using get?_byKey_eq_none.1 hw
      | some previous =>
        have hmem := (get?_byKey hwork).1 hw
        have hin : r.workId ∈ done.map Receipt.workId :=
          mem_map.2 ⟨previous, hmem.1, hmem.2⟩
        have hne : previous ≠ r := fun heq => hid (mem_map_of_mem (heq ▸ hmem.1))
        simp [hin, hne]
    simp only [bind_eq_ok, require_eq_ok, hnew, exists_const, pure_eq_ok, Except.ok.injEq,
      hid, not_false_eq_true, true_and]
    exact and_congr_right fun _ => eq_comm

theorem foldlM_collectNext_eq_ok : ∀ {done : List Receipt}, (done.map Receipt.receiptId).Nodup →
      (done.map Receipt.workId).Nodup →
      (documents.foldlM (collectNext sha256) (Collected.ofList done) = .ok c ↔
        ∃ l, AreDocuments documents l ∧ (∀ r ∈ l, ValidReceipt sha256 r) ∧
          ((done ++ l).map Receipt.receiptId).Nodup ∧ ((done ++ l).map Receipt.workId).Nodup ∧
          c = Collected.ofList (done ++ l)) := by
  induction documents with
  | nil =>
    intro done hids hwork
    simp only [foldlM_nil, pure_eq_ok, Except.ok.injEq, AreDocuments, map_nil]
    constructor
    · rintro rfl
      exact ⟨[], rfl, by simp, by simpa using hids, by simpa using hwork, by simp⟩
    · rintro ⟨l, hl, -, -, -, rfl⟩
      obtain rfl : l = [] := map_eq_nil_iff.1 hl.symm
      rw [append_nil]
  | cons document documents ih =>
    intro done hids hwork
    have happend : ∀ (r : Receipt) (l : List Receipt), done ++ [r] ++ l = done ++ r :: l :=
      fun r l => by simp
    simp only [foldlM_cons, bind_eq_ok, collectNext_eq_ok hids hwork,
      validateNormalizedReceipt_eq_ok]
    constructor
    · rintro ⟨_, ⟨r, ⟨hrecord, hvalid⟩, hid, hw, rfl⟩, hrest⟩
      obtain ⟨l, hl, hvalid', hids'', hwork'', rfl⟩ :=
        (ih (nodup_map_concat.2 ⟨hids, hid⟩) (nodup_map_concat.2 ⟨hwork, hw⟩)).1 hrest
      rw [happend] at hids'' hwork'' ⊢
      refine ⟨r :: l, ?_, forall_mem_cons.2 ⟨hvalid, hvalid'⟩, hids'', hwork'', rfl⟩
      rw [AreDocuments, map_cons, map_cons, hrecord, hl]
    · rintro ⟨l, hl, hvalid, hids', hwork', rfl⟩
      obtain ⟨r, l, rfl⟩ : ∃ r l', l = r :: l' := by
        cases l with
        | nil => simp [AreDocuments] at hl
        | cons r l => exact ⟨r, l, rfl⟩
      rw [AreDocuments, map_cons, map_cons, List.cons.injEq] at hl
      rw [forall_mem_cons] at hvalid
      rw [← happend] at hids' hwork'
      have hids'' := nodup_map_of_append hids'
      have hwork'' := nodup_map_of_append hwork'
      exact ⟨_, ⟨r, ⟨hl.1, hvalid.1⟩, (nodup_map_concat.1 hids'').2, (nodup_map_concat.1 hwork'').2,
        rfl⟩, (ih hids'' hwork'').2 ⟨l, hl.2, hvalid.2, hids', hwork', by rw [happend]⟩⟩

theorem validateReceiptCollection_eq_ok : validateReceiptCollection sha256 documents = .ok l ↔
      AreDocuments documents l ∧ IsCollection sha256 l := by
  have hfold : ∀ c, documents.foldlM (collectNext sha256) (Collected.ofList []) = .ok c ↔ _ :=
    fun c => foldlM_collectNext_eq_ok nodup_nil nodup_nil
  have hempty : (⟨[], Dict.empty, Dict.empty⟩ : Collected) = Collected.ofList [] := rfl
  simp only [validateReceiptCollection, bind_eq_ok, hempty, hfold, nil_append, pure_eq_ok,
    Except.ok.injEq]
  constructor
  · rintro ⟨c, ⟨l, hl, hvalid, hids, hwork, rfl⟩, rfl⟩
    exact ⟨hl, hvalid, hids, hwork⟩
  · rintro ⟨hl, hvalid, hids, hwork⟩
    exact ⟨_, ⟨l, hl, hvalid, hids, hwork, rfl⟩, rfl⟩

/-! ## Merging -/

/-- The variables of the loop of `mergeReceipts`. -/
structure Merge where
  byReceipt : Dict Text Receipt
  byWork : Dict Text Receipt
  additions : List Receipt

/-- `by_receipt[receipt_id] = receipt`, `by_work[work_id] = receipt` and
`additions.append(receipt)`. -/
def Merge.push (m : Merge) (r : Receipt) : Merge :=
  ⟨m.byReceipt.set r.receiptId r, m.byWork.set r.workId r, m.additions ++ [r]⟩

/-- The body of the loop of `mergeReceipts`. -/
def mergeNext (m : Merge) (receipt : Receipt) : Except Exn Merge :=
  match m.byReceipt.get? receipt.receiptId with
  | some known => do
      require (known = receipt) (error "conflicting content for one receipt identifier")
      pure m
  | none => do
      require ((m.byWork.get? receipt.workId).all fun known => known = receipt)
        (error "one work identity has conflicting receipt content")
      pure (m.push receipt)

/-- `sorted(receipts, key=lambda item: item["receipt_id_sha256"])`. -/
def sortById (l : List Receipt) : List Receipt :=
  l.insertionSort fun a b => a.receiptId ≤ b.receiptId

def mergeReceipts (sha256 : HashFn) (existing incoming : List Json) :
    Except Exn (List Receipt) := do
  let existing ← validateReceiptCollection sha256 existing
  let incoming ← validateReceiptCollection sha256 incoming
  let m ← (sortById incoming).foldlM mergeNext
    ⟨Dict.ofList (existing.map fun r => (r.receiptId, r)),
      Dict.ofList (existing.map fun r => (r.workId, r)), []⟩
  pure m.additions

/-- Two receipts that share an identifier are the same receipt. -/
def Compatible (r s : Receipt) : Prop :=
  (r.receiptId = s.receiptId → r = s) ∧ (r.workId = s.workId → r = s)

/-- The variables of the loop of `mergeReceipts` when the receipts `known` are in the
dictionaries. -/
def Merge.ofList (known additions : List Receipt) : Merge :=
  ⟨Dict.ofList (known.map fun r => (r.receiptId, r)),
    Dict.ofList (known.map fun r => (r.workId, r)),
    additions⟩

theorem Merge.push_ofList (known additions : List Receipt) (r : Receipt) :
    (Merge.ofList known additions).push r = Merge.ofList (known ++ [r]) (additions ++ [r]) := by
  simp only [ofList, push, map_append, map_cons, map_nil,
    Dict.ofList_append_singleton]

variable {r : Receipt}

theorem eq_of_key {key : Receipt → Text} (h : (l.map key).Nodup) {s : Receipt} (hr : r ∈ l)
    (hs : s ∈ l) (heq : key r = key s) : r = s :=
  inj_on_of_nodup_map h hr hs heq

variable {known additions : List Receipt} {m : Merge}

/-- A receipt that contradicts none of the known ones is added unless it is one of them. -/
theorem mergeNext_eq_ok (hids : (known.map Receipt.receiptId).Nodup)
    (hwork : (known.map Receipt.workId).Nodup) :
    mergeNext (Merge.ofList known additions) r = .ok m ↔
      (∀ s ∈ known, Compatible s r) ∧
        m = if r ∈ known then Merge.ofList known additions
          else Merge.ofList (known ++ [r]) (additions ++ [r]) := by
  rw [mergeNext]
  cases hget : (Merge.ofList known additions).byReceipt.get? r.receiptId with
  | some k =>
    obtain ⟨hk, hid⟩ := (get?_byKey hids).1 hget
    have hcompat : (∀ s ∈ known, Compatible s r) ↔ k = r := by
      refine ⟨fun h => (h k hk).1 hid, ?_⟩
      rintro rfl s hs
      exact ⟨eq_of_key hids hs hk, eq_of_key hwork hs hk⟩
    simp only [bind_eq_ok, require_eq_ok, exists_const, pure_eq_ok, Except.ok.injEq, hcompat]
    refine and_congr_right fun heq => ?_
    rw [if_pos (heq ▸ hk)]
    exact eq_comm
  | none =>
    have hid : r.receiptId ∉ known.map Receipt.receiptId := get?_byKey_eq_none.1 hget
    have hnew : r ∉ known := fun h => hid (mem_map_of_mem h)
    have hcompat : ((Merge.ofList known additions).byWork.get? r.workId).all
        (fun k => k = r) = true ↔ ∀ s ∈ known, Compatible s r := by
      cases hw : (Merge.ofList known additions).byWork.get? r.workId with
      | none =>
        have hw' : r.workId ∉ known.map Receipt.workId := get?_byKey_eq_none.1 hw
        simp only [Option.all_none, true_iff]
        intro s hs
        exact ⟨fun h => absurd (h ▸ mem_map_of_mem hs) hid,
          fun h => absurd (h ▸ mem_map_of_mem hs) hw'⟩
      | some k =>
        obtain ⟨hk, hkw⟩ := (get?_byKey hwork).1 hw
        have hne : k ≠ r := fun heq => hnew (heq ▸ hk)
        simp only [Option.all_some, hne, decide_false, Bool.false_eq_true, false_iff]
        exact fun h => hne ((h k hk).2 hkw)
    simp only [bind_eq_ok, require_eq_ok, exists_const, pure_eq_ok, Except.ok.injEq, hcompat,
      if_neg hnew, Merge.push_ofList]
    exact and_congr_right fun _ => eq_comm

def newReceipts (known l : List Receipt) : List Receipt := l.filter fun r => r ∉ known

theorem newReceipts_concat (h : r ∉ l) : newReceipts (known ++ [r]) l = newReceipts known l := by
  refine filter_congr fun s hs => ?_
  have hne : s ≠ r := fun heq => h (heq ▸ hs)
  simp [hne]

theorem foldlM_mergeNext_eq_ok :
    ∀ {known additions : List Receipt}, (known.map Receipt.receiptId).Nodup →
      (known.map Receipt.workId).Nodup → (l.map Receipt.receiptId).Nodup →
      (l.map Receipt.workId).Nodup →
      (l.foldlM mergeNext (Merge.ofList known additions) = .ok m ↔
        (∀ s ∈ known, ∀ r ∈ l, Compatible s r) ∧
          m = Merge.ofList (known ++ newReceipts known l) (additions ++ newReceipts known l)) := by
  induction l with
  | nil =>
    intro known additions _ _ _ _
    simp [newReceipts, eq_comm]
  | cons r l ih =>
    intro known additions hids hwork hids' hwork'
    rw [map_cons, nodup_cons] at hids' hwork'
    have hr : r ∉ l := fun h => hids'.1 (mem_map_of_mem h)
    simp only [foldlM_cons, bind_eq_ok, mergeNext_eq_ok hids hwork, forall_mem_cons]
    by_cases hk : r ∈ known
    · have hcons : newReceipts known (r :: l) = newReceipts known l := by
        simp [newReceipts, hk]
      simp only [if_pos hk, hcons]
      constructor
      · rintro ⟨_, ⟨hcompat, rfl⟩, hrest⟩
        obtain ⟨hcompat', rfl⟩ := (ih hids hwork hids'.2 hwork'.2).1 hrest
        exact ⟨fun s hs => ⟨hcompat s hs, hcompat' s hs⟩, rfl⟩
      · rintro ⟨hcompat, rfl⟩
        exact ⟨_, ⟨fun s hs => (hcompat s hs).1, rfl⟩,
          (ih hids hwork hids'.2 hwork'.2).2 ⟨fun s hs => (hcompat s hs).2, rfl⟩⟩
    · have hcons : newReceipts known (r :: l) = r :: newReceipts known l := by
        simp [newReceipts, hk]
      -- the receipts that follow have other identifiers than `r`
      have hother : ∀ s ∈ l, Compatible r s := fun s hs =>
        ⟨fun h => absurd (h ▸ mem_map_of_mem hs) hids'.1,
          fun h => absurd (h ▸ mem_map_of_mem hs) hwork'.1⟩
      have happend : ∀ xs : List Receipt, xs ++ r :: newReceipts known l =
          xs ++ [r] ++ newReceipts (known ++ [r]) l := fun xs => by
        rw [newReceipts_concat hr, append_assoc, singleton_append]
      -- a compatible receipt that is not known has new identifiers
      have hnodup : ∀ key : Receipt → Text, (∀ s ∈ known, key s = key r → s = r) →
          (known.map key).Nodup → ((known ++ [r]).map key).Nodup := fun key h hkey => by
        refine nodup_map_concat.2 ⟨hkey, fun hin => ?_⟩
        obtain ⟨s, hs, heq⟩ := mem_map.1 hin
        exact hk (h s hs heq ▸ hs)
      simp only [if_neg hk, hcons, happend]
      constructor
      · rintro ⟨_, ⟨hcompat, rfl⟩, hrest⟩
        obtain ⟨hcompat', rfl⟩ := (ih (hnodup _ (fun s hs => (hcompat s hs).1) hids)
          (hnodup _ (fun s hs => (hcompat s hs).2) hwork) hids'.2 hwork'.2).1 hrest
        exact ⟨fun s hs => ⟨hcompat s hs, hcompat' s (mem_append_left _ hs)⟩, rfl⟩
      · rintro ⟨hcompat, rfl⟩
        refine ⟨_, ⟨fun s hs => (hcompat s hs).1, rfl⟩,
          (ih (hnodup _ (fun s hs => (hcompat s hs).1.1) hids)
            (hnodup _ (fun s hs => (hcompat s hs).1.2) hwork) hids'.2 hwork'.2).2 ⟨?_, rfl⟩⟩
        intro s hs
        rcases mem_append.1 hs with hs | hs
        · exact (hcompat s hs).2
        · rw [mem_singleton.1 hs]
          exact hother

theorem sortById_perm (l : List Receipt) : (sortById l).Perm l :=
  perm_insertionSort _ l

theorem pairwise_sortById (l : List Receipt) :
    (sortById l).Pairwise fun a b => a.receiptId ≤ b.receiptId :=
  pairwise_insertionSort _ l

theorem sortById_congr (h : l.Perm l') (hids : (l.map Receipt.receiptId).Nodup) :
    sortById l = sortById l' := by
  have hperm : (sortById l).Perm (sortById l') :=
    (sortById_perm l).trans (h.trans (sortById_perm l').symm)
  refine hperm.eq_of_pairwise ?_ (pairwise_sortById l) (pairwise_sortById l')
  intro a b ha hb hab hba
  have hb' : b ∈ l := h.mem_iff.2 ((sortById_perm l').mem_iff.1 hb)
  exact eq_of_key hids ((sortById_perm l).mem_iff.1 ha) hb' (le_antisymm hab hba)

variable {existing incoming : List Json}

/-- **Merging.** Two collections merge when no receipt of the one contradicts one of the other,
and what is added are the incoming receipts that are new. -/
theorem mergeReceipts_eq_ok : mergeReceipts sha256 existing incoming = .ok additions ↔
      ∃ known l, AreDocuments existing known ∧ IsCollection sha256 known ∧
        AreDocuments incoming l ∧ IsCollection sha256 l ∧
        (∀ s ∈ known, ∀ r ∈ l, Compatible s r) ∧
        additions = newReceipts known (sortById l) := by
  simp only [mergeReceipts, bind_eq_ok, validateReceiptCollection_eq_ok, pure_eq_ok,
    Except.ok.injEq]
  have hfold : ∀ {known l : List Receipt} {m : Merge}, IsCollection sha256 known →
      IsCollection sha256 l → ((sortById l).foldlM mergeNext (Merge.ofList known []) = .ok m ↔
        (∀ s ∈ known, ∀ r ∈ l, Compatible s r) ∧
          m = Merge.ofList (known ++ newReceipts known (sortById l))
            (newReceipts known (sortById l))) := by
    intro known l m hk hl
    have hperm := sortById_perm l
    rw [foldlM_mergeNext_eq_ok hk.receiptIds hk.workIds
      ((hperm.map _).nodup_iff.2 hl.receiptIds) ((hperm.map _).nodup_iff.2 hl.workIds)]
    simp only [hperm.mem_iff, nil_append]
  constructor
  · rintro ⟨known, ⟨hdk, hk⟩, l, ⟨hdl, hl⟩, m, hm, rfl⟩
    obtain ⟨hcompat, rfl⟩ := (hfold hk hl).1 hm
    exact ⟨known, l, hdk, hk, hdl, hl, hcompat, rfl⟩
  · rintro ⟨known, l, hdk, hk, hdl, hl, hcompat, rfl⟩
    exact ⟨known, ⟨hdk, hk⟩, l, ⟨hdl, hl⟩, _, (hfold hk hl).2 ⟨hcompat, rfl⟩, rfl⟩

/-! ## Collections -/

theorem IsCollection.sublist (h : IsCollection sha256 l') (hl : l.Sublist l') :
    IsCollection sha256 l where
  valid r hr := h.valid r (hl.subset hr)
  receiptIds := h.receiptIds.sublist (hl.map _)
  workIds := h.workIds.sublist (hl.map _)

theorem mem_newReceipts : r ∈ newReceipts known l ↔ r ∈ l ∧ r ∉ known := by
  rw [newReceipts, mem_filter, decide_eq_true_eq]

theorem IsCollection.append_new (hknown : IsCollection sha256 known) (hl : IsCollection sha256 l)
    (hcompat : ∀ s ∈ known, ∀ r ∈ l, Compatible s r) :
    IsCollection sha256 (known ++ newReceipts known l) := by
  have hsub := hl.sublist (filter_sublist : (newReceipts known l).Sublist l)
  have hnodup : ∀ {key : Receipt → Text}, (known.map key).Nodup →
      ((newReceipts known l).map key).Nodup → (∀ s ∈ known, ∀ r ∈ l, key s = key r → s = r) →
      ((known ++ newReceipts known l).map key).Nodup := by
    intro key hk hn hkey
    rw [map_append, nodup_append']
    refine ⟨hk, hn, fun t ht ht' => ?_⟩
    obtain ⟨s, hs, rfl⟩ := mem_map.1 ht
    obtain ⟨r, hr, heq⟩ := mem_map.1 ht'
    obtain ⟨hrl, hrk⟩ := mem_newReceipts.1 hr
    exact hrk (hkey s hs r hrl heq.symm ▸ hs)
  exact {
    valid := fun r hr => (mem_append.1 hr).elim (hknown.valid r) (hsub.valid r)
    receiptIds := hnodup hknown.receiptIds hsub.receiptIds fun s hs r hr => (hcompat s hs r hr).1
    workIds := hnodup hknown.workIds hsub.workIds fun s hs r hr => (hcompat s hs r hr).2 }

theorem IsCollection.sort (h : IsCollection sha256 l) : IsCollection sha256 (sortById l) where
  valid r hr := h.valid r ((sortById_perm l).mem_iff.1 hr)
  receiptIds := ((sortById_perm l).map _).nodup_iff.2 h.receiptIds
  workIds := ((sortById_perm l).map _).nodup_iff.2 h.workIds

theorem isCollection_of_mergeReceipts (h : mergeReceipts sha256 existing incoming = .ok additions) :
    ∃ known, AreDocuments existing known ∧ IsCollection sha256 (known ++ additions) := by
  obtain ⟨known, l, hknown, hk, -, hl, hcompat, rfl⟩ := mergeReceipts_eq_ok.1 h
  exact ⟨known, hknown, hk.append_new hl.sort fun s hs r hr =>
    hcompat s hs r ((sortById_perm l).mem_iff.1 hr)⟩

end Soveroot.Accounting
