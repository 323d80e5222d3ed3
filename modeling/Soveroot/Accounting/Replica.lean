import Soveroot.Accounting.Ledger
import Soveroot.Accounting.Payout
import Soveroot.Lib.Gossip

/-!
# Replicas

A coordinator reconciles with a peer by appending the peer's receipt set to its own ledger. Seen
from above, a ledger is a set of receipts and appending is joining (`keeps_append`), so replicas
that the same collections have reached hold the same receipts (`ledgers_join`). The collections must
not contradict each other: one receipt to a work identity.
-/

namespace Soveroot.Accounting

open Py Check List Function
open Gossip (Event)

/-! ## What a coordinator serves and does -/

section Program

variable (readFloat : Text → Text) (sha256 : HashFn)

/-- `GET /receipts`. -/
def serveReceipts (ledger : Ledger) : Except Exn ReceiptSet := do
  receiptSetDocument sha256 (← loadReceipts readFloat sha256 ledger)

/-- `GET /claims`. -/
def serveClaims (ledger : Ledger) : Except Exn Claims := do
  buildClaims sha256 (← loadReceipts readFloat sha256 ledger)

/-- `GET /plan`. -/
def servePlan (coinbaseValue : Json) (ledger : Ledger) : Except Exn PayoutPlan := do
  buildPayoutPlan sha256 (← loadReceipts readFloat sha256 ledger) coinbaseValue

/-- The receipts of the peer's set, appended to the own ledger. -/
def absorb (own peer : Ledger) : Except Exn Nat × Ledger :=
  match serveReceipts readFloat sha256 peer with
  | .error e => (.error e, own)
  | .ok peerSet => appendReceipts readFloat sha256 own (peerSet.receipts.map Receipt.toJson)

variable {ι κ : Type} [DecidableEq ι] (documents : κ → List Json)

/-- What an event returns, and the ledger of its replica behind it. -/
def handle (ledgers : ι → Ledger) : Event ι κ → Except Exn Nat × Ledger
  | .submit i k => appendReceipts readFloat sha256 (ledgers i) (documents k)
  | .reconcile i j => absorb readFloat sha256 (ledgers i) (ledgers j)

def stepLedgers (ledgers : ι → Ledger) (e : Event ι κ) : ι → Ledger :=
  Function.update ledgers e.target (handle readFloat sha256 documents ledgers e).2

/-- The ledgers behind a schedule; there is no file at first. -/
def runLedgers (events : List (Event ι κ)) : ι → Ledger :=
  events.foldl (stepLedgers readFloat sha256 documents) fun _ => none

end Program

variable {readFloat : Text → Text} {sha256 : HashFn}

/-! ## Receipt identifiers -/

/-- What the receipt identifier hashes. -/
def identityBytes (r : Receipt) : Bytes := r.body.canonicalBytes

/-- The members of the body. -/
def Receipt.bodyFields (r : Receipt) : List (Text × Json) :=
  ((Json.Keys.all : List ReceiptField).filter (· ≠ .receiptIdSha256)).map fun f =>
    (Json.Keys.name f, r.raw f)

theorem Receipt.bodyFields_ne_nil (r : Receipt) : r.bodyFields ≠ [] := by
  rw [bodyFields, ne_eq, map_eq_nil_iff]
  decide

theorem Receipt.nodup_bodyFields (r : Receipt) : (r.bodyFields.map Prod.fst).Nodup := by
  rw [bodyFields, map_map]
  exact Json.Keys.nodup.sublist (filter_sublist.map _)

variable {r : Receipt}

theorem isPlain_dumps_body (h : ValidReceipt sha256 r) : ∀ c ∈ r.body.dumps, c < 128 := by
  obtain ⟨inner, heq, hinner⟩ : ∃ inner, r.body.dumps = 123 :: (inner ++ [125]) ∧
      ∀ c ∈ inner, Json.Inner c := by
    refine Json.dumps_obj_eq (fun m hm => ?_) fun m hm => ?_
    · obtain ⟨f, -, rfl⟩ := mem_map.1 hm
      exact isPlain_name f
    · obtain ⟨f, -, rfl⟩ := mem_map.1 hm
      exact braceless_raw h f
  rw [heq]
  intro c hc
  simp only [mem_cons, mem_append, not_mem_nil, or_false] at hc
  rcases hc with rfl | hc | rfl
  · decide
  · have := (hinner c hc).2.1
    omega
  · decide

variable {s : Receipt}

theorem raw_eq_of_identityBytes (hr : ValidReceipt sha256 r) (hs : ValidReceipt sha256 s)
    (h : identityBytes r = identityBytes s) {f : ReceiptField} (hf : f ≠ .receiptIdSha256) :
    r.raw f = s.raw f := by
  have hdumps : r.body.dumps = s.body.dumps := by
    have hdecode := congrArg decodeUtf8 h
    rw [identityBytes, identityBytes, Json.canonicalBytes, Json.canonicalBytes,
      decodeUtf8_encodeAscii (isPlain_dumps_body hr),
      decodeUtf8_encodeAscii (isPlain_dumps_body hs)] at hdecode
    exact Option.some.inj hdecode
  have hmembers : ∀ {t : Receipt}, ValidReceipt sha256 t → ∀ m ∈ t.bodyFields,
      (∀ c ∈ m.1, c < 128) ∧ Json.Plain m.2 := by
    intro t ht m hm
    obtain ⟨g, -, rfl⟩ := mem_map.1 hm
    exact ⟨fun c hc => (isPlain_name g c hc).1, (braceless_raw ht g).1⟩
  have hall : ∀ m ∈ r.bodyFields ++ s.bodyFields, (∀ c ∈ m.1, c < 128) ∧ Json.Plain m.2 :=
    forall_mem_append.2 ⟨hmembers hr, hmembers hs⟩
  have hperm : r.bodyFields.Perm s.bodyFields :=
    Json.perm_of_dumps_eq r.bodyFields_ne_nil s.bodyFields_ne_nil (fun m hm => (hall m hm).1)
      (fun m hm => (hall m hm).2) r.nodup_bodyFields s.nodup_bodyFields hdumps
  have hmem : (Json.Keys.name f, r.raw f) ∈ s.bodyFields := hperm.mem_iff.1
    (mem_map.2 ⟨f, mem_filter.2 ⟨Json.Keys.mem_all f, decide_eq_true hf⟩, rfl⟩)
  obtain ⟨g, -, hg⟩ := mem_map.1 hmem
  obtain ⟨hname, hraw⟩ := Prod.mk.inj hg
  rw [← hraw, Json.name_injective hname]

/-- Where the hash has no collision, a receipt identifier belongs to one receipt. -/
theorem eq_of_receiptId {bodies : Set Bytes} (hhash : Set.InjOn sha256 bodies)
    (hr : ValidReceipt sha256 r) (hs : ValidReceipt sha256 s) (hrb : identityBytes r ∈ bodies)
    (hsb : identityBytes s ∈ bodies) (h : r.receiptId = s.receiptId) : r = s := by
  have hdigest : sha256 (identityBytes r) = sha256 (identityBytes s) := by
    have hbytes : (sha256 (identityBytes r)).bytes = (sha256 (identityBytes s)).bytes :=
      hex_injective ((hr.receiptId_eq.trans h).trans hs.receiptId_eq.symm)
    generalize sha256 (identityBytes r) = a at hbytes
    generalize sha256 (identityBytes s) = b at hbytes
    cases b
    cases hbytes
    rfl
  refine raw_injective (funext fun f => ?_)
  by_cases hf : f = .receiptIdSha256
  · rw [hf, Receipt.raw, Receipt.raw, h]
  · exact raw_eq_of_identityBytes hr hs (hhash hrb hsb hdigest) hf

/-! ## A ledger as a set of receipts -/

variable {ledger : Ledger}

/-- What `appendReceipts` leaves behind: the additions stand after what the ledger held. -/
theorem holds_append_additions {known additions : List Receipt}
    (h : Holds readFloat sha256 ledger known) (hfinished : Finished ledger)
    (hcoll : IsCollection sha256 (known ++ additions)) (hne : additions ≠ []) :
    Holds readFloat sha256 (some (ledger.contents ++ encodeAscii (ledgerText additions)))
        (known ++ additions) ∧
      Finished (some (ledger.contents ++ encodeAscii (ledgerText additions))) := by
  have hvalid : ∀ r ∈ additions, ValidReceipt sha256 r := fun r hr =>
    hcoll.valid r (mem_append_right _ hr)
  have happended := isAppended_of_isPrefix hvalid (prefix_refl (ledgerText additions))
  have hlines := splitlines_ledgerText hvalid []
  rw [append_nil, splitlines, append_nil] at hlines
  refine ⟨(holds_append h hfinished happended).2 ⟨additions, rfl, ?_, hcoll⟩, ?_⟩
  · rw [hlines]
    exact forall₂_isLine hvalid
  · obtain ⟨text, htext, -⟩ := h.text
    have hhead := head?_ledgerText hvalid hne
    have htext_ne : ledgerText additions ≠ [] := fun hnil => by
      rw [hnil] at hhead
      cases hhead
    intro text' htext'
    have hdecode :
        decodeUtf8 (ledger.contents ++ encodeAscii (ledgerText additions)) = some text' :=
      htext'
    rw [decodeUtf8_append htext, decodeUtf8_encodeAscii happended.ascii, Option.map_some,
      Option.some.injEq] at hdecode
    rw [← hdecode, translateNewlines_append _ happended.head,
      translateNewlines_eq_self happended.newline]
    intro c hc
    rw [getLast?_append_of_ne_nil _ htext_ne, getLast?_ledgerText htext_ne] at hc
    obtain rfl := Option.some.inj hc
    rfl

/-- The ledger holds the receipts of a set, and its last line is finished. -/
def Keeps (readFloat : Text → Text) (sha256 : HashFn) (ledger : Ledger) (kept : Set Receipt) :
    Prop :=
  Finished ledger ∧ ∃ l, Holds readFloat sha256 ledger l ∧ IsCollection sha256 l ∧
    ∀ r, r ∈ l ↔ r ∈ kept

variable {x : Exn}

/-- An append that raises has not opened the file for writing. -/
theorem appendReceipts_of_error {received : List Json}
    (h : (appendReceipts readFloat sha256 ledger received).1 = .error x) :
    (appendReceipts readFloat sha256 ledger received).2 = ledger := by
  unfold appendReceipts at h ⊢
  split at h <;> first | rfl | cases h

variable {own peer : Ledger}

theorem absorb_of_error (h : (absorb readFloat sha256 own peer).1 = .error x) :
    (absorb readFloat sha256 own peer).2 = own := by
  unfold absorb at h ⊢
  split at h
  · rfl
  · exact appendReceipts_of_error h

theorem keeps_none : Keeps readFloat sha256 none ∅ := by
  refine ⟨fun text htext c hc => ?_, [], ⟨[], rfl, rfl⟩, ⟨by simp, by simp, by simp⟩, by simp⟩
  obtain rfl := Option.some.inj htext
  cases hc

variable {kept : Set Receipt}

/-- **Appending is joining.** -/
theorem keeps_append {documents : List Json} {l : List Receipt}
    (h : Keeps readFloat sha256 ledger kept) (hdoc : AreDocuments documents l)
    (hl : IsCollection sha256 l) (hcompat : ∀ s ∈ kept, ∀ r ∈ l, Compatible s r) :
    ∃ added, (appendReceipts readFloat sha256 ledger documents).1 = .ok added ∧
      Keeps readFloat sha256 (appendReceipts readFloat sha256 ledger documents).2
        (kept ∪ {r | r ∈ l}) ∧
      ((∀ r ∈ l, r ∈ kept) →
        appendReceipts readFloat sha256 ledger documents = (.ok 0, ledger)) := by
  obtain ⟨hfinished, known, hholds, hknown, hmem⟩ := h
  have hcompat' : ∀ s ∈ known, ∀ r ∈ l, Compatible s r := fun s hs => hcompat s ((hmem s).1 hs)
  obtain ⟨existing, hload, hexisting⟩ := id hholds
  have hmerge : (do
      let existing ← loadReceipts readFloat sha256 ledger
      mergeReceipts sha256 existing documents) = .ok (newReceipts known (sortById l)) := by
    rw [hload, ok_bind]
    exact mergeReceipts_eq_ok.2 ⟨known, l, hexisting, hknown, hdoc, hl, hcompat', rfl⟩
  have hnew : ∀ r, r ∈ known ++ newReceipts known (sortById l) ↔ r ∈ kept ∪ {r | r ∈ l} := by
    intro r
    rw [mem_append, mem_newReceipts, (sortById_perm l).mem_iff, hmem, Set.mem_union,
      Set.mem_ofPred_eq]
    tauto
  have hcoll : IsCollection sha256 (known ++ newReceipts known (sortById l)) :=
    hknown.append_new hl.sort fun s hs r hr => hcompat' s hs r ((sortById_perm l).mem_iff.1 hr)
  rw [appendReceipts, hmerge]
  cases hadd : newReceipts known (sortById l) with
  | nil =>
    rw [hadd, append_nil] at hnew
    exact ⟨0, rfl, ⟨hfinished, known, hholds, hknown, hnew⟩, fun _ => rfl⟩
  | cons r rest =>
    rw [hadd] at hnew hcoll
    obtain ⟨hholds', hfinished'⟩ := holds_append_additions hholds hfinished hcoll (by simp)
    refine ⟨_, rfl, ⟨hfinished', _, hholds', hcoll, hnew⟩, fun hall => ?_⟩
    -- the first addition is new
    have hr : r ∈ newReceipts known (sortById l) := hadd ▸ mem_cons_self
    obtain ⟨hrl, hrk⟩ := mem_newReceipts.1 hr
    exact absurd ((hmem r).2 (hall r ((sortById_perm l).mem_iff.1 hrl))) hrk

theorem serve_eq {ledger' : Ledger} (h : Keeps readFloat sha256 ledger kept)
    (h' : Keeps readFloat sha256 ledger' kept) :
    serveReceipts readFloat sha256 ledger = serveReceipts readFloat sha256 ledger' ∧
      serveClaims readFloat sha256 ledger = serveClaims readFloat sha256 ledger' ∧
      ∀ coinbaseValue, servePlan readFloat sha256 coinbaseValue ledger =
        servePlan readFloat sha256 coinbaseValue ledger' := by
  obtain ⟨-, l, ⟨documents, hload, hdoc⟩, hl, hmem⟩ := h
  obtain ⟨-, l', ⟨documents', hload', hdoc'⟩, hl', hmem'⟩ := h'
  have hperm : l.Perm l' := (perm_ext_iff_of_nodup hl.receiptIds.of_map hl'.receiptIds.of_map).2
    fun r => (hmem r).trans (hmem' r).symm
  have hset : receiptSetDocument sha256 documents = receiptSetDocument sha256 documents' := by
    rw [receiptSetDocument, receiptSetDocument, validateReceiptCollection_eq_ok.2 ⟨hdoc, hl⟩,
      validateReceiptCollection_eq_ok.2 ⟨hdoc', hl'⟩, ok_bind, ok_bind, receiptSetOf_perm hperm hl]
  have hclaims : buildClaims sha256 documents = buildClaims sha256 documents' := by
    rw [buildClaims_eq_ok.2 ⟨l, validateReceiptCollection_eq_ok.2 ⟨hdoc, hl⟩, rfl⟩,
      buildClaims_eq_ok.2 ⟨l', validateReceiptCollection_eq_ok.2 ⟨hdoc', hl'⟩, rfl⟩,
      claimsOf_perm hperm hl]
  refine ⟨?_, ?_, fun coinbaseValue => ?_⟩
  · rw [serveReceipts, serveReceipts, hload, hload', ok_bind, ok_bind, hset]
  · rw [serveClaims, serveClaims, hload, hload', ok_bind, ok_bind, hclaims]
  · rw [servePlan, servePlan, hload, hload', ok_bind, ok_bind, buildPayoutPlan, buildPayoutPlan,
      hclaims]

theorem keeps_absorb {kept' : Set Receipt} (h : Keeps readFloat sha256 own kept)
    (h' : Keeps readFloat sha256 peer kept') (hcompat : ∀ s ∈ kept, ∀ r ∈ kept', Compatible s r) :
    ∃ added, (absorb readFloat sha256 own peer).1 = .ok added ∧
      Keeps readFloat sha256 (absorb readFloat sha256 own peer).2 (kept ∪ kept') ∧
      (kept' ⊆ kept → absorb readFloat sha256 own peer = (.ok 0, own)) := by
  obtain ⟨-, l, ⟨documents, hload, hdoc⟩, hl, hmem⟩ := h'
  have hserve : serveReceipts readFloat sha256 peer = .ok (receiptSetOf sha256 l) := by
    rw [serveReceipts, hload, ok_bind, receiptSetDocument,
      validateReceiptCollection_eq_ok.2 ⟨hdoc, hl⟩, ok_bind]
    rfl
  have hsort : ∀ r, r ∈ sortById l ↔ r ∈ kept' := fun r =>
    ((sortById_perm l).mem_iff).trans (hmem r)
  obtain ⟨added, hok, hkeeps, hagain⟩ := keeps_append h (areDocuments_toJson (sortById l)) hl.sort
    fun s hs r hr => hcompat s hs r ((hsort r).1 hr)
  have hset : {r | r ∈ sortById l} = kept' := Set.ext hsort
  rw [hset] at hkeeps
  rw [absorb, hserve]
  exact ⟨added, hok, hkeeps, fun hsub => hagain fun r hr => hsub ((hsort r).1 hr)⟩

/-! ## Schedules -/

section Schedules

variable {ι κ : Type} {documents : κ → List Json} {collections : κ → List Receipt}

structure Consistent (sha256 : HashFn) (documents : κ → List Json)
    (collections : κ → List Receipt) : Prop where
  documents : ∀ k, AreDocuments (documents k) (collections k)
  collection : ∀ k, IsCollection sha256 (collections k)
  compatible : ∀ k m, ∀ s ∈ collections k, ∀ r ∈ collections m, Compatible s r

def receiptsOf (collections : κ → List Receipt) (k : κ) : Set Receipt := {r | r ∈ collections k}

variable (h : Consistent sha256 documents collections)

include h

/-- What every event does to ledgers that keep parts of the collections. -/
theorem Consistent.handle {ledgers : ι → Ledger} {kept : ι → Set Receipt}
    (hkeeps : ∀ i, Keeps readFloat sha256 (ledgers i) (kept i))
    (hkept : ∀ i, ∀ r ∈ kept i, ∃ k, r ∈ collections k) (e : Event ι κ) :
    ∃ added, (handle readFloat sha256 documents ledgers e).1 = .ok added ∧
      Keeps readFloat sha256 (handle readFloat sha256 documents ledgers e).2
        (kept e.target ⊔ e.source (receiptsOf collections) kept) ∧
      (e.source (receiptsOf collections) kept ⊆ kept e.target →
        handle readFloat sha256 documents ledgers e = (.ok 0, ledgers e.target)) := by
  cases e with
  | submit i k =>
    refine keeps_append (hkeeps i) (h.documents k) (h.collection k) fun s hs r hr => ?_
    obtain ⟨m, hm⟩ := hkept i s hs
    exact h.compatible m k s hm r hr
  | reconcile i j =>
    refine keeps_absorb (hkeeps i) (hkeeps j) fun s hs r hr => ?_
    obtain ⟨m, hm⟩ := hkept i s hs
    obtain ⟨k, hk⟩ := hkept j r hr
    exact h.compatible m k s hm r hk

/-- **Refinement.** The ledgers of a schedule keep what the schedule joins. -/
theorem Consistent.keeps_run [DecidableEq ι] (events : List (Event ι κ)) (i : ι) :
    Keeps readFloat sha256 (runLedgers readFloat sha256 documents events i)
      (Gossip.run (receiptsOf collections) events i) := by
  induction events using reverseRecOn generalizing i with
  | nil => exact keeps_none
  | append_singleton events e ih =>
    have hconcat : runLedgers readFloat sha256 documents (events ++ [e]) =
        stepLedgers readFloat sha256 documents
          (runLedgers readFloat sha256 documents events) e := by
      rw [runLedgers, foldl_append]
      rfl
    rw [hconcat, Gossip.run_concat, stepLedgers, Gossip.step]
    by_cases hi : i = e.target
    · obtain ⟨_, -, hkeeps, -⟩ := h.handle ih (fun j r hr => by
        obtain ⟨k, -, hk⟩ := Gossip.mem_run_iff.1 hr
        exact ⟨k, hk⟩) e
      rw [hi, update_self, update_self]
      exact hkeeps
    · rw [update_of_ne hi, update_of_ne hi]
      exact ih i

end Schedules

/-- **Ledgers join.** Collections that have one receipt to a work identity are submitted to
replicas, which absorb each other's sets, in any order and any number of times. Nothing raises, and
two replicas that the same collections have reached serve the same documents. An append that raises
leaves its file as it was, whatever the file. -/
theorem ledgers_join {readFloat : Text → Text} {sha256 : HashFn} {ι κ : Type} [DecidableEq ι]
    {documents : κ → List Json} {collections : κ → List Receipt}
    (haccepted : ∀ k, validateReceiptCollection sha256 (documents k) = .ok (collections k))
    (hwork : ∀ k m, ∀ r ∈ collections k, ∀ s ∈ collections m, r.workId = s.workId → r = s)
    (hhash : Set.InjOn sha256 {b | ∃ k, ∃ r ∈ collections k, identityBytes r = b})
    (events : List (Event ι κ)) :
    (∀ e, ∃ added, (handle readFloat sha256 documents
        (runLedgers readFloat sha256 documents events) e).1 = .ok added) ∧
      (∀ i, ∃ l, Holds readFloat sha256 (runLedgers readFloat sha256 documents events i) l ∧
        ∀ r, r ∈ l ↔ ∃ k ∈ Gossip.heard events i, r ∈ collections k) ∧
      (∀ i j, Gossip.heard events i = Gossip.heard events j →
        serveReceipts readFloat sha256 (runLedgers readFloat sha256 documents events i) =
            serveReceipts readFloat sha256 (runLedgers readFloat sha256 documents events j) ∧
          serveClaims readFloat sha256 (runLedgers readFloat sha256 documents events i) =
            serveClaims readFloat sha256 (runLedgers readFloat sha256 documents events j) ∧
          ∀ coinbaseValue,
            servePlan readFloat sha256 coinbaseValue
                (runLedgers readFloat sha256 documents events i) =
              servePlan readFloat sha256 coinbaseValue
                (runLedgers readFloat sha256 documents events j)) ∧
      (∀ e : Event ι κ, e.source (fun k => {k}) (Gossip.heard events) ⊆
          Gossip.heard events e.target →
        handle readFloat sha256 documents (runLedgers readFloat sha256 documents events) e =
          (.ok 0, runLedgers readFloat sha256 documents events e.target)) ∧
      ∀ (own peer : Ledger) (received : List Json) (x : Exn),
        ((appendReceipts readFloat sha256 own received).1 = .error x →
            (appendReceipts readFloat sha256 own received).2 = own) ∧
          ((absorb readFloat sha256 own peer).1 = .error x →
            (absorb readFloat sha256 own peer).2 = own) := by
  have hconsistent : Consistent sha256 documents collections := by
    have hcoll : ∀ k, IsCollection sha256 (collections k) := fun k =>
      (validateReceiptCollection_eq_ok.1 (haccepted k)).2
    refine ⟨fun k => (validateReceiptCollection_eq_ok.1 (haccepted k)).1, hcoll, ?_⟩
    intro k m s hs r hr
    exact ⟨eq_of_receiptId hhash ((hcoll k).valid s hs) ((hcoll m).valid r hr) ⟨k, s, hs, rfl⟩
      ⟨m, r, hr, rfl⟩, hwork k m s hs r hr⟩
  have hkeeps : ∀ i, Keeps readFloat sha256 (runLedgers readFloat sha256 documents events i)
      (Gossip.run (receiptsOf collections) events i) := hconsistent.keeps_run events
  have hkept : ∀ i, ∀ r ∈ Gossip.run (receiptsOf collections) events i, ∃ k, r ∈ collections k := by
    intro i r hr
    obtain ⟨k, -, hk⟩ := Gossip.mem_run_iff.1 hr
    exact ⟨k, hk⟩
  refine ⟨fun e => ?_, fun i => ?_, fun i j hij => ?_, fun e he => ?_,
    fun own peer received x => ⟨appendReceipts_of_error, absorb_of_error⟩⟩
  · obtain ⟨added, hok, -⟩ := hconsistent.handle hkeeps hkept e
    exact ⟨added, hok⟩
  · obtain ⟨-, l, hl, -, hmem⟩ := hkeeps i
    exact ⟨l, hl, fun r => (hmem r).trans Gossip.mem_run_iff⟩
  · have hset : Gossip.run (receiptsOf collections) events i =
        Gossip.run (receiptsOf collections) events j := by
      ext r
      rw [Gossip.mem_run_iff, Gossip.mem_run_iff, hij]
    exact serve_eq (hkeeps i) (hset ▸ hkeeps j)
  · obtain ⟨-, -, -, hagain⟩ := hconsistent.handle hkeeps hkept e
    refine hagain fun r hr => ?_
    cases e with
    | submit i k => exact Gossip.mem_run_iff.2 ⟨k, he rfl, hr⟩
    | reconcile i j =>
      obtain ⟨k, hk, hrk⟩ := Gossip.mem_run_iff.1 hr
      exact Gossip.mem_run_iff.2 ⟨k, he hk, hrk⟩

namespace Sample

def ownDocuments : Bool → List Json
  | false => [first.toJson]
  | true => [second.toJson]

def exchange : List (Event Bool Bool) :=
  [.submit false false, .submit true true, .reconcile false true, .reconcile true false]

end Sample

open Accounting.Sample

/-- Two replicas that have absorbed each other's receipts. -/
theorem ledgers_join_first_second :
    Gossip.heard exchange false = Gossip.heard exchange true ∧
      serveReceipts id Sha256.sha256
          (runLedgers id Sha256.sha256 ownDocuments exchange false) =
        serveReceipts id Sha256.sha256
          (runLedgers id Sha256.sha256 ownDocuments exchange true) := by
  have hheard : Gossip.heard exchange false = Gossip.heard exchange true := by
    ext k
    cases k <;> simp [exchange, Gossip.heard, Gossip.run, Gossip.step, Event.target,
      Event.source]
  have hids : first.receiptId ≠ second.receiptId ∧
      first.workId ≠ second.workId := by decide +kernel
  refine ⟨hheard, ((@ledgers_join id Sha256.sha256 Bool Bool _ ownDocuments
    (fun k => cond k [second] [first]) ?_ ?_ ?_ exchange).2.2.1 false true hheard).1⟩
  · rintro (_ | _)
    · exact validateReceiptCollection_eq_ok.2 ⟨areDocuments_toJson [first],
        by simpa using valid_first, by simp, by simp⟩
    · exact validateReceiptCollection_eq_ok.2 ⟨areDocuments_toJson [second],
        by simpa using valid_second, by simp, by simp⟩
  · rintro (_ | _) (_ | _) r hr s hs heq <;> obtain rfl := mem_singleton.1 hr <;>
      obtain rfl := mem_singleton.1 hs
    · rfl
    · exact absurd heq hids.2
    · exact absurd heq.symm hids.2
    · rfl
  · have hne : Sha256.sha256 (identityBytes first) ≠
        Sha256.sha256 (identityBytes second) := fun heq =>
      hids.1 (valid_first.receiptId_eq.symm.trans
        ((congrArg Digest.hexdigest heq).trans valid_second.receiptId_eq))
    rintro _ ⟨_ | _, r, hr, rfl⟩ _ ⟨_ | _, s, hs, rfl⟩ heq <;>
      obtain rfl := mem_singleton.1 hr <;> obtain rfl := mem_singleton.1 hs
    · rfl
    · exact absurd heq hne
    · exact absurd heq.symm hne
    · rfl

end Soveroot.Accounting
