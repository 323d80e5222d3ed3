import Soveroot.Accounting.Ledger

/-!
# Torn appends

`append_receipts` writes its lines in one go and then flushes. When the process dies in between,
some start of the text has reached the file. `append_recovers_iff` says which starts the ledger
survives: nothing, or, behind a finished line, whole lines; the last line break may be missing.
-/

namespace Soveroot.Accounting

open Py Check List

variable {readFloat : Text → Text} {sha256 : HashFn}

/-- The ledger loads, and to the existing receipts followed by the first few of the additions. -/
def Recovers (readFloat : Text → Text) (sha256 : HashFn) (existing : List Json)
    (additions : List Receipt) (ledger : Ledger) : Prop :=
  ∃ k documents, loadReceipts readFloat sha256 ledger = .ok documents ∧
    documents.map (Json.record? ReceiptField) =
      existing.map (Json.record? ReceiptField) ++ (additions.take k).map fun r => some r.raw

variable {known additions : List Receipt} {ledger : Ledger}

theorem recovers_iff {existing : List Json} (h : AreDocuments existing known) :
    Recovers readFloat sha256 existing additions ledger ↔
      ∃ k, Holds readFloat sha256 ledger (known ++ additions.take k) := by
  simp only [Recovers, Holds, AreDocuments, map_append]
  rw [show existing.map (Json.record? ReceiptField) = known.map fun r => some r.raw from h]

variable {s : Text}

/-- **Torn lines.** What has been written of the lines: some whole ones, and a start of the next. -/
theorem torn_cases (h : s <+: ledgerText additions) :
    ∃ k q, s = ledgerText (additions.take k) ++ q ∧
      (q = [] ∨ ∃ r rest, additions.drop k = r :: rest ∧ q ≠ [] ∧ q <+: receiptLine r) := by
  induction additions generalizing s with
  | nil => exact ⟨0, [], by simpa [ledgerText] using h, .inl rfl⟩
  | cons r additions ih =>
    have hcons : ledgerText (r :: additions) = receiptLine r ++ [10] ++ ledgerText additions := rfl
    rcases prefix_or_prefix_of_prefix h (prefix_append _ _) with hs | ⟨s', rfl⟩
    · rcases prefix_concat_iff.1 hs with rfl | hs
      · exact ⟨1, [], by simp [ledgerText], .inl rfl⟩
      · by_cases hne : s = []
        · exact ⟨0, [], by simp [hne, ledgerText], .inl rfl⟩
        · exact ⟨0, s, rfl, .inr ⟨r, additions, rfl, hne, hs⟩⟩
    · obtain ⟨k, q, rfl, hq⟩ := ih ((prefix_append_right_inj _).1 h)
      exact ⟨k + 1, q, by simp [ledgerText], hq⟩

/-- A start of a line that is not the whole line is no document, and does not look like one. -/
theorem loads_torn (readFloat : Text → Text) {r : Receipt} (hr : ValidReceipt sha256 r) {q t : Text}
    (hline : q ++ t = receiptLine r) (hq : q ≠ []) (ht : t ≠ []) :
    Json.loads readFloat q = none ∧ ∀ c ∈ q, c ≠ 10 ∧ c ≠ 125 := by
  obtain ⟨document, hloads, -⟩ := isLine_receiptLine readFloat hr
  obtain ⟨inner, hinner, hchars⟩ := receiptLine_eq hr
  obtain ⟨c, q, rfl⟩ := exists_cons_of_ne_nil hq
  obtain ⟨t, last, rfl⟩ := (eq_nil_or_concat' t).resolve_left ht
  rw [← hline] at hloads
  rw [hinner, cons_append, ← append_assoc] at hline
  obtain ⟨rfl, htail⟩ := List.cons.inj hline
  obtain ⟨rfl, hlast⟩ := append_inj' htail rfl
  obtain rfl := (List.cons.inj hlast).1
  have hskip : Json.skipWs (t ++ [125]) ≠ [] := by
    intro hnil
    exact absurd (dropWhile_eq_nil_iff.1 hnil 125 (by simp)) (by decide)
  refine ⟨Json.loads_cut hloads (.inr ?_) hskip, forall_mem_cons.2 ⟨by decide, fun c hc => ?_⟩⟩
  · rw [Json.skipWs_cons rfl]
    rfl
  · have hin := hchars c (mem_append_left _ hc)
    have hle := hin.1
    exact ⟨by omega, hin.2.2⟩

theorem torn_iff (h : Holds readFloat sha256 ledger known) (hfinished : Finished ledger)
    (hcoll : IsCollection sha256 (known ++ additions)) (hs : s <+: ledgerText additions)
    (hne : s ≠ []) : (∃ k, Holds readFloat sha256 (some (ledger.contents ++ encodeAscii s))
        (known ++ additions.take k)) ↔ s.getLast? = some 10 ∨ s.getLast? = some 125 := by
  have hvalid : ∀ r ∈ additions, ValidReceipt sha256 r := fun r hr =>
    hcoll.valid r (mem_append_right _ hr)
  have hvalid' : ∀ k, ∀ r ∈ additions.take k, ValidReceipt sha256 r := fun k r hr =>
    hvalid r (mem_of_mem_take hr)
  -- the first lines are read when the lines of `s` are theirs
  have hread : ∀ k, splitlines s = (additions.take k).map receiptLine →
      ∃ k, Holds readFloat sha256 (some (ledger.contents ++ encodeAscii s))
        (known ++ additions.take k) := fun k hk =>
    ⟨k, (holds_append h hfinished (isAppended_of_isPrefix hvalid hs)).2
      ⟨_, rfl, hk ▸ forall₂_isLine (hvalid' k),
        hcoll.sublist ((take_sublist k additions).append_left known)⟩⟩
  obtain ⟨k, q, rfl, rfl | ⟨r, rest, hdrop, hq, t, ht⟩⟩ := torn_cases hs
  · rw [append_nil] at hne hread ⊢
    have hsplit := splitlines_ledgerText (hvalid' k) []
    rw [append_nil, splitlines, append_nil] at hsplit
    exact iff_of_true (hread k hsplit) (.inl (getLast?_ledgerText hne))
  · have hr := hvalid r (mem_of_mem_drop (i := k) (by rw [hdrop]; exact mem_cons_self))
    have hbreak : ∀ c ∈ q, isLineBreak c = false := fun c hc =>
      notBreak_receiptLine hr c (ht ▸ mem_append_left _ hc)
    have hsplit := splitlines_ledgerText (hvalid' k) q
    rw [splitlines_unfinished hbreak hq] at hsplit
    rw [getLast?_append_of_ne_nil _ hq]
    by_cases hwhole : t = []
    · -- the line is whole, only its line break is missing
      rw [hwhole, append_nil] at ht
      have htake : additions.take (k + 1) = additions.take k ++ [r] := by
        rw [take_add_one, ← head?_drop, hdrop]
        rfl
      refine iff_of_true (hread (k + 1) ?_) (.inr ?_)
      · rw [hsplit, htake, map_append, map_singleton, ht]
      · obtain ⟨inner, hinner, -⟩ := receiptLine_eq hr
        rw [ht, hinner, ← cons_append, getLast?_concat]
    · obtain ⟨hnone, hchars⟩ := loads_torn readFloat hr ht hq hwhole
      refine iff_of_false ?_ ?_
      · rintro ⟨j, hj⟩
        obtain ⟨l', -, hl', -⟩ := (holds_append h hfinished (isAppended_of_isPrefix hvalid hs)).1 hj
        rw [hsplit] at hl'
        obtain ⟨_, _, -, -, hq'⟩ := forall₂_of_append hl'
        obtain ⟨_, _, ⟨document, hloads, -⟩, -⟩ := forall₂_cons_left_iff.1 hq'
        rw [hnone] at hloads
        cases hloads
      · rintro (hlast | hlast)
        · exact (hchars 10 (mem_of_getLast? hlast)).1 rfl
        · exact (hchars 125 (mem_of_getLast? hlast)).2 rfl

theorem getLast?_encodeAscii (hs : ∀ c ∈ s, c < 128) {d : Nat} (hd : d < 128) :
    (encodeAscii s).getLast? = some (UInt8.ofNat d) ↔ s.getLast? = some d := by
  rw [encodeAscii, getLast?_map, Option.map_eq_some_iff]
  constructor
  · rintro ⟨c, hc, heq⟩
    have hmod := congrArg UInt8.toNat heq
    rw [UInt8.toNat_ofNat_of_lt'
      (by have := hs c (mem_of_getLast? hc); exact lt_trans this (by decide)),
      UInt8.toNat_ofNat_of_lt' (lt_trans hd (by decide))] at hmod
    rw [hc, hmod]
  · exact fun h => ⟨d, h, rfl⟩

/-- **Torn appends.** For every ledger that loads, every batch that merges and every start of the
text that has been written: the ledger recovers exactly when nothing was written, or the ledger
ended with a line break and the last byte written is one or the brace in front of one. -/
theorem append_recovers_iff {readFloat : Text → Text} {sha256 : HashFn} {ledger : Ledger}
    {existing receipts : List Json} {additions : List Receipt} {written : Bytes}
    (hload : loadReceipts readFloat sha256 ledger = .ok existing)
    (hmerge : mergeReceipts sha256 existing receipts = .ok additions)
    (hwritten : written <+: encodeAscii (ledgerText additions)) :
    Recovers readFloat sha256 existing additions (some (ledger.contents ++ written)) ↔
      written = [] ∨
        (Finished ledger ∧ (written.getLast? = some 10 ∨ written.getLast? = some 125)) := by
  obtain ⟨known, hknown, hcoll⟩ := isCollection_of_mergeReceipts hmerge
  have hholds : Holds readFloat sha256 ledger known := ⟨existing, hload, hknown⟩
  have hvalid : ∀ r ∈ additions, ValidReceipt sha256 r := fun r hr =>
    hcoll.valid r (mem_append_right _ hr)
  obtain ⟨s, hs, rfl⟩ : ∃ s, s <+: ledgerText additions ∧ written = encodeAscii s := by
    refine ⟨(ledgerText additions).take written.length, take_prefix _ _, ?_⟩
    rw [encodeAscii, map_take]
    exact prefix_iff_eq_take.1 hwritten
  rw [recovers_iff hknown]
  by_cases hne : s = []
  · subst hne
    refine iff_of_true ⟨0, ?_⟩ (.inl rfl)
    rw [encodeAscii, map_nil, append_nil, take_zero, append_nil]
    exact holds_contents.1 hholds
  · have hne' : encodeAscii s ≠ [] := by simpa [encodeAscii] using hne
    by_cases hfinished : Finished ledger
    · have hascii := (isAppended_of_isPrefix hvalid hs).ascii
      have hlast10 : (encodeAscii s).getLast? = some 10 ↔ s.getLast? = some 10 :=
        getLast?_encodeAscii hascii (by decide)
      have hlast125 : (encodeAscii s).getLast? = some 125 ↔ s.getLast? = some 125 :=
        getLast?_encodeAscii hascii (by decide)
      rw [torn_iff hholds hfinished hcoll hs hne, hlast10, hlast125]
      simp [hne', hfinished]
    · refine iff_of_false ?_ (by simp [hne', hfinished])
      rintro ⟨k, hk⟩
      exact not_holds_append hholds hfinished (isAppended_of_isPrefix hvalid hs)
        (head?_of_isPrefix hvalid hs hne) hk

namespace Sample

theorem merge_first : mergeReceipts Sha256.sha256 [] [first.toJson] = .ok [first] :=
  mergeReceipts_eq_ok.2 ⟨[], [first], rfl, ⟨by simp, nodup_nil, nodup_nil⟩,
    areDocuments_toJson [first], ⟨by simpa using valid_first, by simp, by simp⟩, by simp, rfl⟩

end Sample

open Accounting.Sample

/-- One byte of the first line has been written. -/
theorem torn_append_lost :
    loadReceipts id Sha256.sha256 none = .ok [] ∧
      mergeReceipts Sha256.sha256 [] [first.toJson] = .ok [first] ∧
      [123] <+: encodeAscii (ledgerText [first]) ∧
      loadReceipts id Sha256.sha256 (some [123]) = .error (lineError 1 " is malformed JSON") ∧
      ¬ Recovers id Sha256.sha256 [] [first] (some [123]) := by
  have herror : loadReceipts id Sha256.sha256 (some [123]) =
      .error (lineError 1 " is malformed JSON") := rfl
  refine ⟨rfl, merge_first, ⟨_, rfl⟩, herror, ?_⟩
  rintro ⟨k, documents, hload, -⟩
  cases hload

/-- The whole line has been written to a new ledger. -/
theorem append_recovers_first :
    Finished none ∧ Recovers id Sha256.sha256 [] [first]
      (some (encodeAscii (ledgerText [first]))) := by
  have hfinished : Finished none := by
    intro text htext
    obtain rfl := Option.some.inj htext
    exact fun c hc => by cases hc
  have hlast : (encodeAscii (ledgerText [first])).getLast? = some 10 := by decide +kernel
  exact ⟨hfinished, (@append_recovers_iff id Sha256.sha256 none [] _ _ _ rfl merge_first
    (prefix_refl _)).2 (.inr ⟨hfinished, .inl hlast⟩)⟩

end Soveroot.Accounting
