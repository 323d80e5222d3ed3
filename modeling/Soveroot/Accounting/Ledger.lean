import Soveroot.Accounting.Credit
import Soveroot.Lib.JsonText
import Soveroot.Lib.Lines

/-!
# The ledger

The receipts stand in a file, one JSON document a line: `load_receipts` and `append_receipts`. A
ledger holds a list of receipts (`Holds`) when its lines are documents of them and they are a
collection. Appending to a ledger whose last line is finished appends to what it holds
(`holds_append`).
-/

namespace Soveroot.Accounting

open Py Check List Json

/-- The file, when it exists. -/
abbrev Ledger := Option Bytes

def Ledger.contents (ledger : Ledger) : Bytes := ledger.getD []

section Program

variable (readFloat : Text → Text) (sha256 : HashFn)

/-- `ledger line {number} {detail}`. -/
def lineError (number : Nat) (detail : String) : Exn :=
  .accountingError (ascii "ledger line " ++ decimalNat number ++ ascii detail)

/-- `isinstance(receipt, dict) and receipt.get("format") == ...`. -/
def isReceiptDocument (document : Json) : Bool :=
  document.asObj.any fun fields =>
    (Json.member fields (ascii "format")).any (·.isText receiptFormat)

/-- The body of the loop of `loadReceipts`. -/
def parseLine (line : Text × Nat) : Except Exn Json := do
  let receipt ← orRaise (Json.loads readFloat line.1) (lineError line.2 " is malformed JSON")
  require (isReceiptDocument receipt = true) (lineError line.2 " is not a normalized v2 receipt")
  pure receipt

def loadReceipts (ledger : Ledger) : Except Exn (List Json) :=
  match ledger with
  | none => pure []
  | some file => do
      let lines ← orRaise (readLines file) .unicodeDecodeError
      let receipts ← (lines.zipIdx 1).mapM (parseLine readFloat)
      let _ ← validateReceiptCollection sha256 receipts
      pure receipts

/-- `json.dumps(receipt, separators=(",", ":"), sort_keys=True)`. -/
def receiptLine (r : Receipt) : Text := r.toJson.dumps

/-- The text `appendReceipts` writes. -/
def ledgerText (additions : List Receipt) : Text := additions.flatMap fun r => receiptLine r ++ [10]

/-- `append_receipts`: what it returns, and the file behind it. -/
def appendReceipts (ledger : Ledger) (receipts : List Json) : Except Exn Nat × Ledger :=
  match (do
    let existing ← loadReceipts readFloat sha256 ledger
    mergeReceipts sha256 existing receipts) with
  | .error e => (.error e, ledger)
  | .ok [] => (.ok 0, ledger)
  | .ok additions =>
    (.ok additions.length, some (ledger.contents ++ encodeAscii (ledgerText additions)))

end Program

/-! ## What a ledger holds -/

variable {readFloat : Text → Text} {sha256 : HashFn}

def IsLine (readFloat : Text → Text) (line : Text) (r : Receipt) : Prop :=
  ∃ document, Json.loads readFloat line = some document ∧
    record? ReceiptField document = some r.raw

def Holds (readFloat : Text → Text) (sha256 : HashFn) (ledger : Ledger) (l : List Receipt) : Prop :=
  ∃ documents, loadReceipts readFloat sha256 ledger = .ok documents ∧ AreDocuments documents l

variable {document : Json}

theorem parseLine_eq_ok {line : Text × Nat} : parseLine readFloat line = .ok document ↔
      Json.loads readFloat line.1 = some document ∧ isReceiptDocument document = true := by
  simp only [parseLine, bind_eq_ok, orRaise_eq_ok, require_eq_ok, exists_const, pure_eq_ok,
    Except.ok.injEq]
  constructor
  · rintro ⟨d, hd, hformat, rfl⟩
    exact ⟨hd, hformat⟩
  · rintro ⟨hd, hformat⟩
    exact ⟨document, hd, hformat, rfl⟩

theorem parseLines_eq_ok {lines : List Text} {documents : List Json} :
    ∀ {k : Nat}, (lines.zipIdx k).mapM (parseLine readFloat) = .ok documents ↔
      Forall₂ (fun line document => Json.loads readFloat line = some document ∧
        isReceiptDocument document = true) lines documents := by
  induction lines generalizing documents with
  | nil =>
    intro k
    rw [zipIdx_nil, mapM_nil, pure_eq_ok, Except.ok.injEq]
    constructor
    · rintro rfl
      exact .nil
    · rintro ⟨⟩
      rfl
  | cons line lines ih =>
    intro k
    simp only [zipIdx_cons, mapM_cons, bind_eq_ok, parseLine_eq_ok, pure_eq_ok,
      Except.ok.injEq, forall₂_cons_left_iff]
    constructor
    · rintro ⟨document, hdocument, documents, hdocuments, rfl⟩
      exact ⟨document, documents, hdocument, ih.1 hdocuments, rfl⟩
    · rintro ⟨document, documents, hdocument, hdocuments, rfl⟩
      exact ⟨document, hdocument, documents, ih.2 hdocuments, rfl⟩

theorem isReceiptDocument_of_record {r : Receipt}
    (h : record? ReceiptField document = some r.raw) : isReceiptDocument document = true := by
  obtain ⟨fields, rfl, -, hmember⟩ := record?_eq_some_iff.1 h
  have hformat : Json.member fields (ascii "format") = some (.str receiptFormat) := hmember .format
  simp [isReceiptDocument, Json.asObj, hformat, isText_iff]

variable {α β : Type} {R : α → β → Prop}

theorem forall₂_comp {γ : Type} {S : β → γ → Prop} {l : List α} {n : List γ} :
    (∃ m, Forall₂ R l m ∧ Forall₂ S m n) ↔
      Forall₂ (fun a c => ∃ b, R a b ∧ S b c) l n := by
  constructor
  · rintro ⟨m, hR, hS⟩
    induction hR generalizing n with
    | nil => cases hS; exact .nil
    | cons ha _ ih =>
      cases hS with
      | cons hb hS => exact .cons ⟨_, ha, hb⟩ (ih hS)
  · intro h
    induction h with
    | nil => exact ⟨[], .nil, .nil⟩
    | cons hac _ ih =>
      obtain ⟨b, hab, hbc⟩ := hac
      obtain ⟨m, hR, hS⟩ := ih
      exact ⟨b :: m, .cons hab hR, .cons hbc hS⟩

theorem forall₂_of_append {a b : List α} {l : List β} (h : Forall₂ R (a ++ b) l) :
    ∃ l₁ l₂, l = l₁ ++ l₂ ∧ Forall₂ R a l₁ ∧ Forall₂ R b l₂ := by
  induction a generalizing l with
  | nil => exact ⟨[], l, rfl, .nil, h⟩
  | cons x a ih =>
    cases h with
    | cons hx h =>
      obtain ⟨l₁, l₂, rfl, h₁, h₂⟩ := ih h
      exact ⟨_ :: l₁, l₂, rfl, .cons hx h₁, h₂⟩

variable {l : List Receipt}

/-- **Loading.** A file holds the receipts of its lines. -/
theorem holds_iff {file : Bytes} : Holds readFloat sha256 (some file) l ↔
      ∃ lines, readLines file = some lines ∧ Forall₂ (IsLine readFloat) lines l ∧
        IsCollection sha256 l := by
  simp only [Holds, loadReceipts, bind_eq_ok, orRaise_eq_ok, parseLines_eq_ok, pure_eq_ok,
    Except.ok.injEq]
  constructor
  · rintro ⟨_, ⟨lines, hlines, documents, hdocuments, l', hl', rfl⟩, hl⟩
    obtain ⟨hdoc', hcoll⟩ := validateReceiptCollection_eq_ok.1 hl'
    obtain rfl : l = l' := hl.unique hdoc'
    refine ⟨lines, hlines, ?_, hcoll⟩
    refine (forall₂_comp.1 ⟨documents, hdocuments, areDocuments_iff.1 hl⟩).imp ?_
    rintro line r ⟨document, ⟨hloads, -⟩, hrecord⟩
    exact ⟨document, hloads, hrecord⟩
  · rintro ⟨lines, hlines, hl, hcoll⟩
    have hlines' : Forall₂ (fun line r => ∃ d, (Json.loads readFloat line = some d ∧
        isReceiptDocument d = true) ∧ record? ReceiptField d = some r.raw) lines l :=
      hl.imp fun line r ⟨d, hloads, hrecord⟩ =>
        ⟨d, ⟨hloads, isReceiptDocument_of_record hrecord⟩, hrecord⟩
    obtain ⟨documents, hloads, hdoc⟩ := forall₂_comp.2 hlines'
    exact ⟨documents, ⟨lines, hlines, documents, hloads, l,
      validateReceiptCollection_eq_ok.2 ⟨areDocuments_iff.2 hdoc, hcoll⟩, rfl⟩,
      areDocuments_iff.2 hdoc⟩

/-! ## The line of a receipt -/

/-- A character of a receipt: ASCII, and not the brace that closes it. -/
def IsPlain (t : Text) : Prop := ∀ c ∈ t, c < 128 ∧ c ≠ 125

variable {c : Nat}

theorem plain_of_isSpace (h : isSpace c = true) : c < 128 ∧ c ≠ 125 := by
  simp only [isSpace, Bool.or_eq_true, Bool.and_eq_true, decide_eq_true_eq, beq_iff_eq] at h
  omega

theorem plain_of_hexValue {n : Nat} (h : hexValue c = some n) : c < 128 ∧ c ≠ 125 := by
  unfold hexValue at h
  split_ifs at h <;> omega

theorem isPlain_of_fromHex : ∀ {t : Text} {b : Bytes}, fromHex t = some b → IsPlain t
  | [], _, _ => fun c hc => by cases hc
  | [c], b, h => by
    by_cases hc : isSpace c = true
    · exact fun d hd => mem_singleton.1 hd ▸ plain_of_isSpace hc
    · simp [fromHex, hc] at h
  | c :: d :: rest, b, h => by
    by_cases hc : isSpace c = true
    · rw [fromHex, if_pos hc] at h
      exact forall_mem_cons.2 ⟨plain_of_isSpace hc, isPlain_of_fromHex h⟩
    · obtain ⟨hi, lo, tail, hhi, hlo, htail, -⟩ := fromHex_pair (Bool.not_eq_true _ ▸ hc) h
      exact forall_mem_cons.2 ⟨plain_of_hexValue hhi,
        forall_mem_cons.2 ⟨plain_of_hexValue hlo, isPlain_of_fromHex htail⟩⟩

theorem isPlain_hex (b : Bytes) : IsPlain (hex b) := isPlain_of_fromHex (fromHex_hex b)

theorem isPlain_formatHex (width n : Nat) : IsPlain (formatHex width n) := by
  have hdigit : ∀ d < 16, hexDigit d < 128 ∧ hexDigit d ≠ 125 := by decide
  intro c hc
  rcases mem_append.1 hc with hc | hc
  · rw [eq_of_mem_replicate hc]
    decide
  · obtain ⟨d, hd, rfl⟩ := mem_map.1 hc
    exact hdigit d (Nat.digits_lt_base (by decide) (mem_reverse.1 hd))

variable {r : Receipt}

theorem braceless_raw (h : ValidReceipt sha256 r) (f : ReceiptField) :
    Json.Braceless (r.raw f) := by
  have htext : ∀ {t : Text}, IsPlain t → Json.Braceless (.str t) := fun ht =>
    ⟨fun c hc => (ht c hc).1, fun s hs hc => (ht 125 (Json.str.inj hs ▸ hc)).2 rfl⟩
  obtain ⟨header, target, hh⟩ := h.header
  obtain ⟨script, hscript⟩ := Option.isSome_iff_exists.1 h.script_hex
  obtain ⟨commitment, hcommitment⟩ := Option.isSome_iff_exists.1 h.commitment_hex
  cases f with
  | format => exact htext (by unfold IsPlain; decide)
  | chain => exact htext (by unfold IsPlain; decide)
  | worker =>
    refine htext fun c hc => ?_
    have := h.worker.2.2 c hc
    omega
  | height => exact ⟨Int.natCast_nonneg _, fun s hs => by cases hs⟩
  | nonce => exact ⟨Int.natCast_nonneg _, fun s hs => by cases hs⟩
  | blockCandidate => exact ⟨trivial, fun s hs => by cases hs⟩
  | previousBlockHash => exact htext (hh.previous ▸ isPlain_hex _)
  | headerHex => exact htext (isPlain_of_fromHex hh.decodes)
  | hash => exact htext (hh.hash ▸ isPlain_hex _)
  | bits => exact htext (hh.bits ▸ isPlain_formatHex _ _)
  | payoutScriptHex => exact htext (isPlain_of_fromHex hscript)
  | templateCommitmentSha256 => exact htext (isPlain_of_fromHex hcommitment)
  | workIdSha256 => exact htext (h.workId_eq ▸ isPlain_hex _)
  | receiptIdSha256 => exact htext (h.receiptId_eq ▸ isPlain_hex _)

theorem isPlain_name (f : ReceiptField) : IsPlain (Json.Keys.name f) := by
  unfold IsPlain
  cases f <;> decide

theorem isLine_receiptLine (readFloat : Text → Text) (h : ValidReceipt sha256 r) :
    IsLine readFloat (receiptLine r) r :=
  loads_ofRecord (by decide) (fun f c hc => (isPlain_name f c hc).1)
    fun f => (braceless_raw h f).1

theorem receiptLine_eq (h : ValidReceipt sha256 r) :
    ∃ inner, receiptLine r = 123 :: (inner ++ [125]) ∧ ∀ c ∈ inner, Json.Inner c := by
  refine dumps_obj_eq (fun m hm => ?_) fun m hm => ?_
  · obtain ⟨f, -, rfl⟩ := mem_map.1 hm
    exact isPlain_name f
  · obtain ⟨f, -, rfl⟩ := mem_map.1 hm
    exact braceless_raw h f

/-! ## Appending -/

def Finished (ledger : Ledger) : Prop :=
  ∀ text, decodeUtf8 ledger.contents = some text → EndsLine (translateNewlines text)

theorem loadReceipts_contents (ledger : Ledger) :
    loadReceipts readFloat sha256 ledger =
      loadReceipts readFloat sha256 (some ledger.contents) := by
  cases ledger <;> rfl

variable {ledger : Ledger}

theorem holds_contents :
    Holds readFloat sha256 ledger l ↔ Holds readFloat sha256 (some ledger.contents) l := by
  rw [Holds, Holds, loadReceipts_contents]

theorem isLine_unique : Relator.RightUnique (IsLine readFloat) := by
  rintro line r s ⟨document, hloads, hrecord⟩ ⟨document', hloads', hrecord'⟩
  obtain rfl : document = document' := Option.some.inj (hloads.symm.trans hloads')
  exact raw_injective (Option.some.inj (hrecord.symm.trans hrecord'))

/-- Text that `appendReceipts` may write, whole or in part. -/
structure IsAppended (s : Text) : Prop where
  ascii : ∀ c ∈ s, c < 128
  newline : ∀ c ∈ s, c ≠ 13
  head : s.head? ≠ some 10

theorem Holds.text (h : Holds readFloat sha256 ledger l) :
    ∃ text, decodeUtf8 ledger.contents = some text ∧
      Forall₂ (IsLine readFloat) (splitlines (translateNewlines text)) l ∧
      IsCollection sha256 l := by
  obtain ⟨lines, hlines, hl, hcoll⟩ := holds_iff.1 (holds_contents.1 h)
  obtain ⟨text, htext, rfl⟩ := Option.map_eq_some_iff.1 hlines
  exact ⟨text, htext, hl, hcoll⟩

variable {known : List Receipt} {s : Text}

/-- **Appending.** Behind a finished line, the lines that are appended are read as they are. -/
theorem holds_append (h : Holds readFloat sha256 ledger known) (hfinished : Finished ledger)
    (hs : IsAppended s) : Holds readFloat sha256 (some (ledger.contents ++ encodeAscii s)) l ↔
      ∃ l', l = known ++ l' ∧ Forall₂ (IsLine readFloat) (splitlines s) l' ∧
        IsCollection sha256 l := by
  obtain ⟨text, htext, hknown, -⟩ := h.text
  rw [holds_iff, readLines_append htext hs.ascii hs.newline hs.head,
    splitlines_append _ (hfinished text htext) hs.head]
  constructor
  · rintro ⟨_, hlines, hl, hcoll⟩
    rw [← Option.some.inj hlines] at hl
    obtain ⟨l₁, l', rfl, hl₁, hl'⟩ := forall₂_of_append hl
    obtain rfl := isLine_unique.forall₂ hknown hl₁
    exact ⟨l', rfl, hl', hcoll⟩
  · rintro ⟨l', rfl, hl', hcoll⟩
    exact ⟨_, rfl, rel_append hknown hl', hcoll⟩

/-- Nothing is read when something is appended to a line that is not finished. -/
theorem not_holds_append (h : Holds readFloat sha256 ledger known) (hopen : ¬ Finished ledger)
    (hs : IsAppended s) (hbrace : s.head? = some 123) :
    ¬ Holds readFloat sha256 (some (ledger.contents ++ encodeAscii s)) l := by
  obtain ⟨text, htext, hknown, -⟩ := h.text
  have hopen' : ¬ EndsLine (translateNewlines text) := fun hends => hopen fun text' htext' => by
    rwa [Option.some.inj (htext'.symm.trans htext)]
  obtain ⟨lines, last, hlines, happend⟩ := splitlines_append_of_open hopen' hs.head
  -- the line that is continued was the document of a receipt
  rw [hlines] at hknown
  obtain ⟨_, l₂, -, -, hlast⟩ := forall₂_of_append hknown
  obtain ⟨r, -, ⟨document, hloads, hrecord⟩, -⟩ := forall₂_cons_left_iff.1 hlast
  obtain ⟨fields, rfl, -⟩ := record?_eq_some_iff.1 hrecord
  obtain ⟨line, rest, hsplit, hline⟩ : ∃ line rest, splitlines s = line :: rest ∧
      Json.skipWs line ≠ [] := by
    obtain ⟨s, rfl⟩ := head?_eq_some_iff.1 hbrace
    obtain ⟨line, rest, hsplit⟩ := splitlines_cons (c := 123) rfl s
    exact ⟨_, rest, hsplit, by rw [skipWs_cons rfl]; exact cons_ne_nil _ _⟩
  rw [holds_iff, readLines_append htext hs.ascii hs.newline hs.head, happend, hsplit]
  rintro ⟨_, hall, hl, -⟩
  rw [← Option.some.inj hall] at hl
  obtain ⟨_, _, -, -, hl⟩ := forall₂_of_append hl
  obtain ⟨_, _, ⟨document, hloads', -⟩, -⟩ := forall₂_cons_left_iff.1 hl
  rw [loads_append_of_obj hloads (head?_of_loads_obj hloads) hline] at hloads'
  cases hloads'

/-! ## Appending receipts -/

section Additions

variable {additions : List Receipt}

theorem mem_ledgerText (h : ∀ r ∈ additions, ValidReceipt sha256 r) {c : Nat}
    (hc : c ∈ ledgerText additions) : c = 10 ∨ (32 ≤ c ∧ c ≤ 126) := by
  obtain ⟨r, hr, hc⟩ := mem_flatMap.1 hc
  obtain ⟨inner, hline, hinner⟩ := receiptLine_eq (h r hr)
  rw [hline] at hc
  simp only [cons_append, append_assoc, nil_append, mem_cons,
    mem_append, not_mem_nil, or_false] at hc
  rcases hc with rfl | hc | rfl | rfl
  · exact .inr ⟨by decide, by decide⟩
  · exact .inr ⟨(hinner c hc).1, (hinner c hc).2.1⟩
  · exact .inr ⟨by decide, by decide⟩
  · exact .inl rfl

theorem head?_ledgerText (h : ∀ r ∈ additions, ValidReceipt sha256 r) (hne : additions ≠ []) :
    (ledgerText additions).head? = some 123 := by
  obtain ⟨r, rest, rfl⟩ := exists_cons_of_ne_nil hne
  obtain ⟨inner, hline, -⟩ := receiptLine_eq (h r (by simp))
  rfl

variable {s : Text}

section

variable (h : ∀ r ∈ additions, ValidReceipt sha256 r) (hs : s <+: ledgerText additions)
include h hs

theorem head?_of_isPrefix (hne : s ≠ []) : s.head? = some 123 := by
  obtain ⟨t, ht⟩ := hs
  have hne' : additions ≠ [] := by
    rintro rfl
    exact hne (append_eq_nil_iff.1 ht).1
  rw [← head?_ledgerText h hne', ← ht, head?_append_of_ne_nil _ hne]

theorem isAppended_of_isPrefix : IsAppended s where
  ascii c hc := by
    have := mem_ledgerText h (hs.subset hc)
    omega
  newline c hc := by
    have := mem_ledgerText h (hs.subset hc)
    omega
  head := by
    by_cases hne : s = []
    · simp [hne]
    · rw [head?_of_isPrefix h hs hne]
      decide

end

theorem notBreak_receiptLine {r : Receipt} (h : ValidReceipt sha256 r) :
    ∀ c ∈ receiptLine r, isLineBreak c = false := by
  intro c hc
  obtain ⟨inner, hline, hinner⟩ := receiptLine_eq h
  have hrange : 32 ≤ c ∧ c ≤ 126 := by
    rw [hline] at hc
    simp only [mem_cons, mem_append, not_mem_nil, or_false] at hc
    rcases hc with rfl | hc | rfl
    · exact ⟨by decide, by decide⟩
    · exact ⟨(hinner c hc).1, (hinner c hc).2.1⟩
    · exact ⟨by decide, by decide⟩
  simp only [isLineBreak, Bool.or_eq_false_iff, Bool.and_eq_false_iff, decide_eq_false_iff_not]
  omega

theorem splitlines_ledgerText (h : ∀ r ∈ additions, ValidReceipt sha256 r) (s : Text) :
    splitlines (ledgerText additions ++ s) = additions.map receiptLine ++ splitlines s := by
  induction additions with
  | nil => rfl
  | cons r additions ih =>
    rw [forall_mem_cons] at h
    have hcons : ledgerText (r :: additions) ++ s =
        receiptLine r ++ 10 :: (ledgerText additions ++ s) := by
      simp [ledgerText]
    rw [hcons, splitlines_line (notBreak_receiptLine h.1), ih h.2]
    rfl

theorem forall₂_isLine (h : ∀ r ∈ additions, ValidReceipt sha256 r) :
    Forall₂ (IsLine readFloat) (additions.map receiptLine) additions := by
  rw [forall₂_map_left_iff, forall₂_same]
  exact fun r hr => isLine_receiptLine readFloat (h r hr)

theorem getLast?_ledgerText (h : ledgerText additions ≠ []) :
    (ledgerText additions).getLast? = some 10 := by
  rcases eq_nil_or_concat' additions with rfl | ⟨init, r, rfl⟩
  · exact absurd rfl h
  · rw [ledgerText, flatMap_append, flatMap_singleton, ← append_assoc,
      getLast?_concat]

end Additions

end Soveroot.Accounting
