import Soveroot.TxRequest.Tracker

/-!
# What is tracked

The specification in `src/txrequest.h`: which announcements there are, whether each is a candidate,
has been requested or has failed, and which of them are to be requested now, chosen afresh at every
call. There is no selection to maintain and there are no indexes.
-/

namespace Soveroot.TxRequest

/-- What has become of an announcement. -/
inductive Status where
  | candidate (reqtime : Int)
  | requested (expiry : Int)
  | completed
  deriving DecidableEq

/-- An announcement. `order` is the number of announcements made before it, in 59 bits. -/
structure Entry where
  gtxid : GenTxid
  preferred : Bool
  order : Nat
  status : Status
  deriving DecidableEq

abbrev Row : Type := NodeId → Option Entry

/-- The announcements, and the number of those that were ever made. -/
structure Book where
  entries : TxHash → Row
  announced : Nat

inductive Call where
  | receivedInv (peer : NodeId) (gtxid : GenTxid) (preferred : Bool) (reqtime : Int)
  | requestedTx (peer : NodeId) (txhash : TxHash) (expiry : Int)
  | receivedResponse (peer : NodeId) (txhash : TxHash)
  | forgetTxHash (txhash : TxHash)
  | disconnectedPeer (peer : NodeId)
  | getRequestable (peer : NodeId) (now : Int)

namespace Entry

def fail (e : Entry) : Entry := { e with status := .completed }

/-- A request whose expiry has come. -/
@[grind] def Expired (now : Int) (e : Entry) : Prop := ∃ expiry, e.status = .requested expiry ∧
    expiry ≤ now

/-- A request that is waited for. -/
@[grind] def Outstanding (now : Int) (e : Entry) : Prop := ∃ expiry, e.status = .requested expiry ∧
    now < expiry

/-- A candidate whose time has come. -/
@[grind] def Ready (now : Int) (e : Entry) : Prop := ∃ reqtime, e.status = .candidate reqtime ∧
    reqtime ≤ now

def IsCandidate (e : Entry) : Prop := ∃ reqtime, e.status = .candidate reqtime

/-- A request that has been given up. -/
@[grind] def giveUp (e : Entry) : Entry :=
  match e.status with
  | .requested _ => e.fail
  | _ => e

end Entry

namespace Row

open Classical

/-- The announcements are forgotten when all of them have failed. -/
noncomputable def settle (row : Row) : Row := fun p =>
  if ∀ p e, row p = some e → e.status = .completed then none else row p

/-- The announcements of a kind fail. -/
noncomputable def failing (q : NodeId → Entry → Prop) (row : Row) : Row :=
  settle fun p => (row p).map fun e => if q p e then e.fail else e

noncomputable def disconnect (peer : NodeId) (row : Row) : Row :=
  settle fun p => if p = peer then none else row p

/-- A request is made of a candidate, in place of any other request. -/
noncomputable def request (peer : NodeId) (expiry : Int) (row : Row) : Row := fun p =>
  if ∃ e, row peer = some e ∧ e.IsCandidate then
    (row p).map fun e => if p = peer then { e with status := .requested expiry } else e.giveUp
  else row p

end Row

namespace Book

def empty : Book := ⟨fun _ _ => none, 0⟩

def onRow (b : Book) (txhash : TxHash) (f : Row → Row) : Book :=
  { b with entries := fun h p => if h = txhash then f (b.entries h) p else b.entries h p }

/-- What a call changes. A request fails at the first `GetRequestable` at or past its expiry. -/
noncomputable def step (b : Book) : Call → Book
  | .receivedInv peer gtxid preferred reqtime =>
    if b.entries gtxid.hash peer ≠ none then b
    else
      { entries := fun h p =>
          if h = gtxid.hash ∧
            p = peer then some ⟨gtxid, preferred, b.announced % 2 ^ 59, .candidate reqtime⟩
          else b.entries h p
        announced := b.announced + 1 }
  | .requestedTx peer txhash expiry => b.onRow txhash (Row.request peer expiry)
  | .receivedResponse peer txhash => b.onRow txhash (Row.failing fun p _ => p = peer)
  | .forgetTxHash txhash => b.onRow txhash fun _ _ => none
  | .disconnectedPeer peer => { b with entries := fun txhash => (b.entries txhash).disconnect peer }
  | .getRequestable _ now =>
    { b with entries := fun txhash => (b.entries txhash).failing fun _ e => e.Expired now }

/-- What a sequence of calls leaves. -/
noncomputable def after (b : Book) (calls : List Call) : Book := calls.foldl step b

variable (computer : Computer)

/-- An announcement is to be requested now: it is a candidate whose time has come, no request for
the transaction hash is outstanding, and no other such candidate has a higher priority. -/
def ToRequest (b : Book) (peer : NodeId) (now : Int) (txhash : TxHash) (e : Entry) : Prop :=
  b.entries txhash peer = some e ∧ e.Ready now ∧
    (∀ q e', b.entries txhash q = some e' → ¬ e'.Outstanding now) ∧
    ∀ q e', b.entries txhash q = some e' → e'.Ready now →
      computer txhash q e'.preferred ≤ computer txhash peer e.preferred

/-- The list of what is to be requested, by the numbers of the announcements in 59 bits. As long as
the numbers have 59 bits this is the order in which the announcements were made. -/
def Requestable (b : Book) (peer : NodeId) (now : Int) (ret : List GenTxid) : Prop :=
  ∃ es : List Entry, ret = es.map Entry.gtxid ∧ es.Nodup ∧
    (∀ e, e ∈ es ↔ ToRequest computer b peer now e.gtxid.hash e) ∧
    (es.Pairwise fun e e' => e.order ≤ e'.order) ∧
    (b.announced ≤ 2 ^ 59 → es.Pairwise fun e e' => e.order < e'.order)

end Book

/-! ## Failing -/

namespace Row

variable {row : Row} {p peer : NodeId} {e : Entry} {q : NodeId → Entry → Prop} {now expiry : Int}

theorem settle_alive : settle row p = some e ∧ e.status ≠ .completed ↔
    row p = some e ∧ e.status ≠ .completed := by
  unfold settle
  grind

theorem settle_of_alive (h : row p = some e) (hstatus : e.status ≠ .completed) :
    settle row = row := by
  unfold settle
  grind

theorem settle_of_dead (h : ∀ p e, row p = some e → e.status = .completed) : settle row = fun _ =>
    none := by
  unfold settle
  grind

theorem settle_eq_some (h : settle row p = some e) : row p = some e := by
  unfold settle at h
  grind

/-- What is a candidate or a request stays one, unless it fails. -/
theorem failing_alive : failing q row p = some e ∧ e.status ≠ .completed ↔
    row p = some e ∧ e.status ≠ .completed ∧ ¬ q p e := by
  rw [failing, settle_alive]
  cases h : row p <;> grind [Entry.fail]

theorem settle_settle {f : NodeId → Option Entry → Option Entry}
    (hf : ∀ p e e', f p (some e) = some e' → e.status = .completed → e'.status = .completed)
    (hnone : ∀ p, f p none = none) : settle (fun p => f p (settle row p)) = settle fun p =>
      f p (row p) := by
  by_cases hdead : ∀ p e, row p = some e → e.status = .completed
  · funext p
    unfold settle
    have hdead' : ∀ p e, f p (row p) = some e → e.status = .completed := by
      intro p e he
      cases h : row p <;> grind
    grind
  · have hsame : settle row = row := by
      unfold settle
      grind
    rw [hsame]

open Classical in
theorem failing_failing {r : NodeId → Entry → Prop} (h : ∀ p e, row p = some e → r p e → q p e) :
    failing q (failing r row) = failing q row := by
  refine (settle_settle (f := fun p o => o.map fun e =>
    if q p e then e.fail else e) ?_ (by simp)).trans
    (congrArg settle (funext fun p => ?_))
  · grind [Entry.fail]
  · cases hp : row p <;> grind [Entry.fail]

theorem failing_of_failed (h : ∀ p e, row p = some e → q p e → e.status = .completed) :
    failing q row = settle row := by
  refine congrArg settle (funext fun p => ?_)
  cases hp : row p <;> grind [Entry.fail, cases Entry]

theorem failing_of_none (h : ∀ p e, row p = some e → ¬ q p e) : failing q row = settle row :=
  failing_of_failed fun p e he hq => absurd hq (h p e he)

theorem disconnect_failing : disconnect peer (failing (fun p _ => p = peer) row) =
    disconnect peer row := by
  refine (settle_settle (f := fun p o => if p = peer then none else o) (by grind) (by simp)).trans
    (congrArg settle (funext fun p => ?_))
  cases hp : row p <;> grind

theorem disconnect_disconnect : disconnect peer (disconnect peer row) = disconnect peer row := by
  refine (settle_settle (f := fun p o => if p = peer then none else o) (by grind) (by simp)).trans
    (congrArg settle (funext fun p => ?_))
  grind

theorem disconnect_of_none (h : row peer = none) : disconnect peer row = settle row := by
  refine congrArg settle (funext fun p => ?_)
  grind

end Row

/-! ## What a call can do to an announcement -/

namespace Book

variable {b : Book} {h : TxHash} {p : NodeId} {e : Entry}

theorem step_entry (c : Call) (he : (b.step c).entries h p = some e) :
    (∃ f, b.entries h p = some f ∧ e.order = f.order ∧ e.gtxid = f.gtxid ∧
      e.preferred = f.preferred ∧
      (e.IsCandidate → f.IsCandidate)) ∨
    ∃ gtxid preferred reqtime, c = .receivedInv p gtxid preferred reqtime ∧ gtxid.hash = h ∧
      b.entries h p = none ∧ e = ⟨gtxid, preferred, b.announced % 2 ^ 59, .candidate reqtime⟩ := by
  cases c with
  | receivedInv peer gtxid preferred reqtime => grind [step]
  | requestedTx peer txhash expiry =>
    by_cases hh : h = txhash
    · simp only [step, onRow, if_pos hh, Row.request] at he
      cases hf : b.entries h p <;> simp only [hf, Option.map_none, Option.map_some] at he <;>
        split at he <;>
        grind [Entry.fail, Entry.IsCandidate]
    · grind [step, onRow]
  | receivedResponse peer txhash =>
    by_cases hh : h = txhash
    · simp only [step, onRow, if_pos hh] at he
      have := Row.settle_eq_some he
      cases hf : b.entries h p <;> grind [Entry.fail, Entry.IsCandidate]
    · grind [step, onRow]
  | forgetTxHash txhash => grind [step, onRow]
  | disconnectedPeer peer =>
    have := Row.settle_eq_some he
    grind
  | getRequestable peer now =>
    have := Row.settle_eq_some he
    cases hf : b.entries h p <;> grind [Entry.fail, Entry.IsCandidate]

/-- Announcements stand at the transaction hash they are of, and are numbered as they are made. -/
structure Numbered (b : Book) : Prop where
  hash : ∀ h p e, b.entries h p = some e → e.gtxid.hash = h
  lt : b.announced ≤ 2 ^ 59 → ∀ h p e, b.entries h p = some e → e.order < b.announced
  injective : b.announced ≤ 2 ^ 59 → ∀ h p e h' p' e', b.entries h p = some e →
    b.entries h' p' = some e' →
    e.order = e'.order → h = h' ∧ p = p'

theorem announced_step (b : Book) (c : Call) : b.announced ≤ (b.step c).announced ∧
    ∀ p g pref r, c = .receivedInv p g pref r → b.entries g.hash p = none →
      (b.step c).announced = b.announced + 1 := by
  cases c <;> grind [step, onRow]

theorem numbered_step (hb : b.Numbered) (c : Call) : (b.step c).Numbered := by
  obtain ⟨h1, h2, h3⟩ := hb
  obtain ⟨hle, hnew⟩ := announced_step b c
  have hentry := fun h p e => step_entry (b := b) (h := h) (p := p) (e := e) c
  constructor
  · grind
  · grind
  · intro hbound h p e h' p' e' he he' heq
    rcases hentry h' p' e' he' with ⟨f', hf', -⟩ | ⟨g', pref', r', hc', hh', hnone', rfl⟩ <;> grind

theorem numbered_after (hb : b.Numbered) (calls : List Call) : (b.after calls).Numbered := by
  induction calls generalizing b with
  | nil => exact hb
  | cons c calls ih => exact ih (numbered_step hb c)

theorem numbered_empty : empty.Numbered := by
  constructor <;> simp [empty]

theorem after_append (b : Book) (calls later : List Call) :
    b.after (calls ++ later) = (b.after calls).after later :=
  List.foldl_append

variable (calls : List Call) (he : (b.after calls).entries h p = some e)
include he

theorem entry_after :
    (∃ f, b.entries h p = some f ∧ e.preferred = f.preferred) ∨
      ∃ gtxid reqtime, .receivedInv p gtxid e.preferred reqtime ∈ calls ∧ gtxid.hash = h := by
  induction calls generalizing b with
  | nil => exact .inl ⟨e, he, rfl⟩
  | cons c calls ih =>
    rcases ih he with ⟨f, hf, hpref⟩ | h
    · rcases step_entry c hf with ⟨f', hf', -, -, hpref', -⟩ | h <;> grind
    · grind

/-- What is a candidate has been one, or has been announced since, when it was not known. -/
theorem candidate_after (hc : e.IsCandidate) :
    (∃ f, b.entries h p = some f ∧ f.IsCandidate) ∨
    ∃ before gtxid preferred reqtime later,
      calls = before ++ .receivedInv p gtxid preferred reqtime :: later ∧ gtxid.hash = h ∧
        (b.after before).entries h p = none := by
  induction calls generalizing b with
  | nil => exact .inl ⟨e, he, hc⟩
  | cons c calls ih =>
    rcases ih he with ⟨f, hf, hfc⟩ | ⟨before, g, pref, r, later, hcalls, hh, hnone⟩
    · rcases step_entry c hf with ⟨f', hf', -, -, -, hcandidate⟩ | ⟨g, pref, r, rfl, hh, hnone, -⟩
      · exact .inl ⟨f', hf', hcandidate hfc⟩
      · exact .inr ⟨[], g, pref, r, calls, rfl, hh, hnone⟩
    · exact .inr ⟨c :: before, g, pref, r, later, by rw [hcalls]; rfl, hh, hnone⟩

end Book

end Soveroot.TxRequest
