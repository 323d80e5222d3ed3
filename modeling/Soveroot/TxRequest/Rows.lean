import Soveroot.TxRequest.Book
import Soveroot.TxRequest.Selection

/-!
# What the tracker shows

The announcements of the container as the entries of the specification, and what the helpers of the
tracker change in them. Which candidate is selected does not show: `PromoteCandidateReady` and the
reselection change no entry.
-/

namespace Soveroot.TxRequest

open SortedView List

variable {computer : Computer}

@[grind] def Announcement.status (a : Announcement) : Status :=
  match a.state with
  | .requested => .requested a.time
  | .completed => .completed
  | _ => .candidate a.time

@[grind] def Announcement.entry (a : Announcement) : Entry :=
  ⟨a.gtxid, a.preferred, a.sequence, a.status⟩

theorem Announcement.entry_setState {a : Announcement} {s : State}
    (ha : a.state ≠ .requested ∧ a.state ≠ .completed)
    (hs : s ≠ .requested ∧ s ≠ .completed) : (a.setState s).entry = a.entry := by
  cases h : a.state <;> cases s <;> simp_all [entry, status, setState]

/-- The entries of a transaction hash. -/
def rows (index : List Announcement) (h : TxHash) : Row := fun p =>
  (index.find? fun a => a.id = (p, h)).map Announcement.entry

section

variable {index index' : List Announcement} {h : TxHash} {p : NodeId} {e : Entry} {a : Announcement}

theorem rows_eq_some (hunique : Unique index) :
    rows index h p = some e ↔ ∃ a ∈ index, a.hash = h ∧ a.peer = p ∧ a.entry = e := by
  rw [rows, Option.map_eq_some_iff]
  constructor
  · intro ⟨a, ha, he⟩
    have hid : a.id = (p, h) := by simpa using find?_some ha
    exact ⟨a, mem_of_find?_eq_some ha, congrArg Prod.snd hid, congrArg Prod.fst hid, he⟩
  · intro ⟨a, ha, hh, hp, he⟩
    have hid : a.id = (p, h) := by rw [Announcement.id, hh, hp]
    cases hfind : index.find? fun a => a.id = (p, h) with
    | none => exact absurd hid (by simpa using find?_eq_none.1 hfind a ha)
    | some b =>
      have hb : b.id = (p, h) := by simpa using find?_some hfind
      rw [hunique.eq (mem_of_find?_eq_some hfind) ha (hb.trans hid.symm)]
      exact ⟨a, rfl, he⟩

theorem rows_of_mem (hunique : Unique index) (ha : a ∈ index) :
    rows index a.hash a.peer = some a.entry :=
  (rows_eq_some hunique).2 ⟨a, ha, rfl, rfl, rfl⟩

theorem rows_eq_none : rows index h p = none ↔ ∀ a ∈ index, a.hash = h → a.peer ≠ p := by
  simp only [rows, Option.map_eq_none_iff, find?_eq_none, Announcement.id, decide_eq_true_eq,
    Prod.mk.injEq]
  grind

theorem rows_eq (hunique : Unique index) {row : Row}
    (hrow : ∀ p e, row p = some e ↔ ∃ a ∈ index, a.hash = h ∧ a.peer = p ∧ a.entry = e) :
    rows index h = row := by
  funext p
  apply Option.ext
  intro e
  rw [rows_eq_some hunique, hrow]

theorem rows_congr (hunique : Unique index) (hunique' : Unique index')
    (hsame : ∀ a : Announcement, a.hash = h → (a ∈ index' ↔ a ∈ index)) :
    rows index' h = rows index h := by
  refine rows_eq hunique' fun p e => ?_
  rw [rows_eq_some hunique]
  exact exists_congr fun a => by grind

end

namespace Tracker

variable {t t' t'' : Tracker} {it : Announcement} {h : TxHash} {row row' : Row}

/-! ## Single changes -/

section

variable (hunique : Unique t.index) (hit : it ∈ t.index)
include hunique hit

theorem rows_modify {modifier : Announcement → Announcement}
    (hid : (modifier it).id = it.id) :
    rows (t.modify it modifier).index it.hash =
      fun p => if p = it.peer then some (modifier it).entry else rows t.index it.hash p := by
  have hhash : (modifier it).hash = it.hash := congrArg Prod.snd hid
  have hpeer : (modifier it).peer = it.peer := congrArg Prod.fst hid
  refine rows_eq (unique_modify hid hunique) fun p e => ?_
  have hold := rows_eq_some hunique (h := it.hash) (p := p) (e := e)
  split
  · rw [Option.some.injEq]
    constructor
    · exact fun he => ⟨_, (mem_modify hit).2 (Or.inl rfl), hhash, by grind, he⟩
    · grind [Announcement.id]
  · rw [hold]
    exact exists_congr fun a => by grind

variable {s : State}

theorem rows_setState_of_candidate (hstate : it.state ≠ .requested ∧ it.state ≠ .completed) (hs :
    s ≠ .requested ∧ s ≠ .completed) :
    rows (t.setState it s).index = rows t.index := by
  funext h
  by_cases hh : h = it.hash
  · rw [hh, setState, rows_modify hunique hit rfl, Announcement.entry_setState hstate hs]
    grind [rows_of_mem hunique hit]
  · exact rows_congr hunique (unique_setState hunique) (by grind)

theorem rows_erase :
    rows (t.erase it).index it.hash = fun p => if p = it.peer then
      none else rows t.index it.hash p := by
  refine rows_eq (unique_erase hunique) fun p e => ?_
  split
  · grind [Announcement.id]
  · rw [rows_eq_some hunique]
    exact exists_congr fun a => by grind

end

/-! ## The invariant -/

/-- What holds between calls. -/
structure Inv (computer : Computer) (t : Tracker) : Prop where
  sane : Sane computer t.index
  accounted : t.Accounted

/-- The entries of a transaction hash do not stay when all have failed. -/
theorem Inv.settle (hi : Inv computer t) (h : TxHash) :
    (rows t.index h).settle = rows t.index h := by
  funext p
  cases hp : rows t.index h p with
  | none => grind [Row.settle]
  | some e =>
    obtain ⟨a, ha, hah, -⟩ := (rows_eq_some hi.sane.unique).1 hp
    obtain ⟨b, hb, hbh, hbs⟩ := (hi.sane.group h).alive a ha hah
    rw [Row.settle_of_alive (hbh ▸ rows_of_mem hi.sane.unique hb) (by grind), hp]

structure RowStep (computer : Computer) (h : TxHash) (row : Row) (t t' : Tracker) : Prop where
  inv : Inv computer t'
  sequence : t'.currentSequence = t.currentSequence
  row : rows t'.index h = row
  other : ∀ a : Announcement, a.hash ≠ h → (a ∈ t'.index ↔ a ∈ t.index)

theorem RowStep.trans (hstep : RowStep computer h row t t')
    (hstep' : RowStep computer h row' t' t'') :
    RowStep computer h row' t t'' :=
  ⟨hstep'.inv, hstep'.sequence.trans hstep.sequence, hstep'.row,
    fun a ha => (hstep'.other a ha).trans (hstep.other a ha)⟩

theorem RowStep.rows_of_ne (hstep : RowStep computer h row t t') (hi : Inv computer t) {h' : TxHash}
    (hne : h' ≠ h) :
    rows t'.index h' = rows t.index h' :=
  rows_congr hi.sane.unique hstep.inv.sane.unique fun a ha => hstep.other a (ha ▸ hne)

/-- How many announcements of a kind there are after the state of one of them is set. -/
theorem countP_setState (q : Announcement → Bool) (hunique : Unique t.index) (hit : it ∈ t.index)
    (s : State) :
    (t.setState it s).index.countP q + (q it).toNat = t.index.countP q +
    (q (it.setState s)).toNat :=
  countP_replace q hunique.nodup hit (·.setState s)

variable (hi : Inv computer t)
include hi

theorem promoteCandidateReady_spec (hit : it ∈ t.index) (hstate : it.state = .candidateDelayed) :
    Inv computer (t.promoteCandidateReady computer it) ∧
      (t.promoteCandidateReady computer it).currentSequence = t.currentSequence ∧
      rows (t.promoteCandidateReady computer it).index = rows t.index ∧
      (t.promoteCandidateReady computer it).index.countP (fun a => decide a.IsWaiting) <
        t.index.countP fun a => decide a.IsWaiting := by
  have hsane := sane_promoteCandidateReady hi.sane hit hstate
  have hu := hi.sane.unique
  have hu₁ : Unique (t.setState it .candidateReady).index := unique_setState hu
  have hit₁ : it.setState .candidateReady ∈ (t.setState it .candidateReady).index := by grind
  have hacc₁ := hi.accounted.setState hu hit .candidateReady
  have hrows₁ : rows (t.setState it .candidateReady).index = rows t.index :=
    rows_setState_of_candidate hu hit (by rw [hstate]; decide) (by decide)
  have hcount₁ := countP_setState (fun a => decide a.IsWaiting) hu hit .candidateReady
  rcases promoteCandidateReady_cases hi.sane hit hstate with
    ⟨heq, -⟩ | ⟨old, hold, -, hbest, hne, -, heq⟩ | ⟨other, -, -, -, -, heq⟩ <;> rw [heq] at hsane ⊢
  · refine ⟨⟨hsane, hacc₁.setState hu₁ hit₁ _⟩, rfl, ?_, ?_⟩
    · rw [rows_setState_of_candidate hu₁ hit₁ (by simp) (by decide), hrows₁]
    · grind [countP_setState (fun a => decide a.IsWaiting) hu₁ hit₁ .candidateBest]
  · have hold₁ : old ∈ (t.setState it .candidateReady).index := by grind
    have hu₂ : Unique ((t.setState it .candidateReady).setState old .candidateReady).index :=
      unique_setState hu₁
    have hit₂ : it.setState .candidateReady ∈
        ((t.setState it .candidateReady).setState old .candidateReady).index := by grind
    refine ⟨⟨hsane, (hacc₁.setState hu₁ hold₁ _).setState hu₂ hit₂ _⟩, rfl, ?_, ?_⟩
    · rw [rows_setState_of_candidate hu₂ hit₂ (by simp) (by decide),
        rows_setState_of_candidate hu₁ hold₁ (by rw [hbest]; decide) (by decide), hrows₁]
    · grind [countP_setState (fun a => decide a.IsWaiting) hu₂ hit₂ .candidateBest,
        countP_setState (fun a => decide a.IsWaiting) hu₁ hold₁ .candidateReady]
  · exact ⟨⟨hsane, hacc₁⟩, rfl, hrows₁, by grind⟩

/-- A reselection shows the change to the given announcement only. -/
theorem changeAndReselect_spec (hit : it ∈ t.index)
    (hstate : s = .completed ∨ s = .candidateDelayed)
    (halive : s ≠ .completed ∨ ∃ x ∈ t.index, x ≠ it ∧ x.hash = it.hash ∧ x.state ≠ .completed) :
    RowStep computer it.hash (fun p => if p = it.peer then some (it.setState s).entry else
      rows t.index it.hash p) t
        (t.changeAndReselect computer it s) ∧
      it.setState s ∈ (t.changeAndReselect computer it s).index ∧
      (∀ a ∈ (t.changeAndReselect computer it s).index,
        a = it.setState s ∨ a.state = .candidateBest ∨ a ∈ t.index) ∧
      ∀ q : Announcement → Bool,
      (∀ a : Announcement, q (a.setState .candidateBest) = q (a.setState .candidateReady)) →
        (t.changeAndReselect computer it s).index.countP q + (q it).toNat =
          t.index.countP q + (q (it.setState s)).toNat := by
  have hu := hi.sane.unique
  have hsane := sane_changeAndReselect hi.sane hit hstate halive
  rcases changeAndReselect_cases hi.sane hit s with
    ⟨c, hc, hch, hready, hne, -, -, heq⟩ | ⟨-, heq⟩ <;>
    rw [heq] at hsane ⊢
  · have hit₁ : it ∈ (t.setState c .candidateBest).index := by grind
    have hu₁ : Unique (t.setState c .candidateBest).index := unique_setState hu
    refine ⟨⟨⟨hsane, (hi.accounted.setState hu hc _).setState hu₁ hit₁ _⟩, rfl,
      ?_, by grind⟩, by grind, by grind, ?_⟩
    · rw [setState, rows_modify hu₁ hit₁ rfl,
        rows_setState_of_candidate hu hc (by rw [hready]; decide) (by decide)]
    · intro q hq
      have hself : c.setState .candidateReady = c := by rw [← hready]; rfl
      grind [countP_setState q hu hc .candidateBest, countP_setState q hu₁ hit₁ s]
  · refine ⟨⟨⟨hsane, hi.accounted.setState hu hit _⟩, rfl,
      rows_modify hu hit rfl, by grind⟩, by grind, by grind,
      fun q _ => countP_setState q hu hit s⟩

theorem eraseAll_spec {l : List Announcement} (hl : l.Nodup)
    (hmem : ∀ x, x ∈ l ↔ x ∈ t.index ∧ x.hash = h) :
    RowStep computer h (fun _ => none) t (l.foldl erase t) ∧
    (∀ a ∈ (l.foldl erase t).index, a.hash ≠ h) ∧
      (l.foldl erase t).index.Sublist t.index := by
  obtain ⟨hunique, hmem', haccounted, hsequence, hsub⟩ :=
    foldl_erase_spec hi.sane.unique hl (by grind)
  have hnone : ∀ a ∈ (l.foldl erase t).index, a.hash ≠ h := by grind
  refine ⟨⟨⟨hi.sane.of_group (h := h) hunique (by grind) ?_, haccounted hi.accounted⟩, hsequence,
    ?_, by grind⟩, hnone, hsub⟩
  · constructor <;> grind
  · funext p
    exact rows_eq_none.2 fun a ha hah => absurd hah (hnone a ha)

/-- What `MakeCompleted` shows: the announcement has failed, and with it all of the transaction hash
where no other is left. -/
theorem makeCompleted_spec (hit : it ∈ t.index) (hstate : it.state ≠ .completed) :
    ∃ left t', t.makeCompleted computer it = (left, t') ∧
      RowStep computer it.hash ((rows t.index it.hash).failing fun p _ => p = it.peer) t t' ∧
      (left = true → it.setState .completed ∈ t'.index) ∧
      (left = false → ∀ a ∈ t'.index, a.hash ≠ it.hash) ∧
      t'.index.length + (!left).toNat ≤ t.index.length ∧
      (it.IsWaiting → t'.index.countP (fun a => decide a.IsWaiting) < t.index.countP fun a =>
        decide a.IsWaiting) := by
  have hu := hi.sane.unique
  have hfailed : (rows t.index it.hash).failing (fun p _ => p = it.peer) = Row.settle fun p =>
      if p = it.peer then some (it.setState .completed).entry else rows t.index it.hash p := by
    refine congrArg Row.settle (funext fun p => ?_)
    by_cases hp : p = it.peer
    · rw [hp, rows_of_mem hu hit]
      simp [Entry.fail, Announcement.entry, Announcement.status, Announcement.setState]
    · simp [hp]
  have honly' := isOnlyNonCompleted_iff hi.sane hit hstate
  by_cases honly : ∀ x ∈ t.index, x.hash = it.hash → x.state ≠ .completed → x = it
  · refine ⟨false, t.eraseFrom computer it, by grind [makeCompleted], ?_⟩
    have hnodup :
        ((since (byTxHash computer) t.index it).takeWhile fun a => a.hash = it.hash).Nodup :=
      (((perm_view _ _).nodup_iff.2 hu.nodup).sublist (dropWhile_sublist _)).sublist
        (takeWhile_sublist _)
    obtain ⟨hstep, hnone, hsub⟩ := eraseAll_spec hi hnodup fun x =>
      mem_eraseFrom_list hit hstate honly
    have hsub' : (t.eraseFrom computer it).index.Sublist (t.index.erase it) := by
      have hsub : (t.eraseFrom computer it).index.Sublist t.index := hsub
      have hit' : it ∉ (t.eraseFrom computer it).index := fun h => hnone it h rfl
      simpa [erase_of_not_mem hit'] using hsub.erase it
    have hdead : (rows t.index it.hash).failing (fun p _ => p = it.peer) = fun _ => none := by
      rw [hfailed]
      refine Row.settle_of_dead fun p e he => ?_
      by_cases hp : p = it.peer
      · grind
      · rw [if_neg hp, rows_eq_some hu] at he
        grind
    refine ⟨hdead ▸ hstep, by simp, fun _ => hnone, ?_, fun hwait => ?_⟩
    · have := hsub'.length_le
      grind [length_erase_of_mem hit]
    · have := hsub'.countP_le (p := fun a => decide a.IsWaiting)
      grind [countP_erase_add (fun a => decide a.IsWaiting) hit]
  · refine ⟨true, t.changeAndReselect computer it .completed, by grind [makeCompleted], ?_⟩
    push Not at honly
    obtain ⟨x, hx, hxh, hxs, hne⟩ := honly
    obtain ⟨hstep, hit', -, hcount⟩ :=
      changeAndReselect_spec hi hit (Or.inl rfl) (Or.inr ⟨x, hx, hne, hxh, hxs⟩)
    have halive : (rows t.index it.hash).failing (fun p _ => p = it.peer) =
        fun p => if p = it.peer then some (it.setState .completed).entry else
          rows t.index it.hash p := by
      rw [hfailed]
      refine Row.settle_of_alive (p := x.peer) (e := x.entry) ?_ (by grind)
      rw [if_neg (by grind [Announcement.id]), ← hxh, rows_of_mem hu hx]
    refine ⟨halive ▸ hstep, fun _ => hit', by simp, ?_, fun hwait => ?_⟩
    · have := hcount (fun _ => true) fun _ => rfl
      simp only [countP_true] at this
      simp
      omega
    · grind [hcount (fun a => decide a.IsWaiting) fun a => by simp [Announcement.IsWaiting]]

end Tracker

end Soveroot.TxRequest
