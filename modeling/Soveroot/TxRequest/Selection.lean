import Soveroot.TxRequest.Container

/-!
# The selection

For each transaction hash at most one announcement is selected, a request or the best candidate, and
it is the one with the highest priority among the candidates whose time has come.
`PromoteCandidateReady` and `ChangeAndReselect` find it by looking at one neighbour in the index by
transaction hash: the best ready candidate stands right before the selected announcement.
-/

namespace Soveroot.TxRequest

open SortedView

variable {computer : Computer}

/-! ## Neighbours -/

theorem byTxHash_le {a b : Announcement} (h : byTxHash computer a ≤ byTxHash computer b) :
    a.hash ≤ b.hash ∧ (a.hash = b.hash → a.state.rank ≤ b.state.rank ∧
      (a.state = .candidateReady → b.state = .candidateReady →
        a.priority computer ≤ b.priority computer)) := by
  rw [byTxHash, byTxHash, Prod.Lex.toLex_le_toLex, Prod.Lex.toLex_le_toLex] at h
  grind

/-- Another announcement of the same transaction hash is at or beyond a neighbour with this hash. -/
theorem neighbour_of_hash (computer : Computer) {index : List Announcement} {it x : Announcement}
    (hit : it ∈ index)
    (hx : x ∈ index) (hne : x ≠ it) (hhash : x.hash = it.hash) :
    (∃ b ∈ index, prev (byTxHash computer) index it = some b ∧ b.hash = it.hash ∧ b ≠ it ∧
      x.state.rank ≤ b.state.rank ∧ b.state.rank ≤ it.state.rank ∧
      (x.state = .candidateReady → b.state = .candidateReady →
        x.priority computer ≤ b.priority computer)) ∨
    (x ∈ since (byTxHash computer) index it ∧
      ∃ b ∈ index, next (byTxHash computer) index it = some b ∧ b.hash = it.hash ∧
      it.state.rank ≤ b.state.rank ∧ b.state.rank ≤ x.state.rank) := by
  rcases beyond_neighbour (byTxHash computer) hit hx hne with ⟨b, hb, hle⟩ | ⟨hsince, b, hb, hle⟩
  · have hxb := byTxHash_le hle
    have hbi := byTxHash_le (prev_le_key hit hb)
    grind [prev_mem hb, prev_ne hb]
  · have hbx := byTxHash_le hle
    have hib := byTxHash_le (key_le_next hit hb)
    grind [next_mem hb]

/-! ## The invariant -/

structure Group (computer : Computer) (index : List Announcement) (h : TxHash) : Prop where
  selected : ∀ a ∈ index, ∀ b ∈ index, a.hash = h → b.hash = h → a.IsSelected → b.IsSelected → a = b
  ready : ∀ a ∈ index, a.hash = h → a.state = .candidateReady → ∃ b ∈ index, b.hash = h ∧
    b.IsSelected
  best : ∀ a ∈ index, ∀ b ∈ index, a.hash = h → b.hash = h → a.state = .candidateBest →
    b.state = .candidateReady → b.priority computer ≤ a.priority computer
  alive : ∀ a ∈ index, a.hash = h → ∃ b ∈ index, b.hash = h ∧ b.state ≠ .completed

/-- All announcements. -/
structure Sane (computer : Computer) (index : List Announcement) : Prop where
  unique : Unique index
  group : ∀ h, Group computer index h

theorem Sane.of_group {index index' : List Announcement} (hs : Sane computer index) {h : TxHash}
    (hunique : Unique index') (hother : ∀ a : Announcement, a.hash ≠ h → (a ∈ index' ↔ a ∈ index))
    (hgroup : Group computer index' h) : Sane computer index' := by
  refine ⟨hunique, fun h' => ?_⟩
  obtain ⟨hselected, hready, hbest, halive⟩ := hs.group h'
  by_cases heq : h' = h
  · rwa [heq]
  · constructor <;> grind

/-! ## Promotion -/

namespace Tracker

variable {t : Tracker} {it : Announcement}

section

variable (hs : Sane computer t.index) (hit : it ∈ t.index)
include hs hit

theorem promoteCandidateReady_cases (hstate : it.state = .candidateDelayed) :
    (t.promoteCandidateReady computer it =
        (t.setState it .candidateReady).setState (it.setState .candidateReady) .candidateBest ∧
      ∀ x ∈ t.index, x.hash = it.hash → x ≠ it → x.state ≠ .candidateReady ∧ ¬ x.IsSelected) ∨
    (∃ old ∈ t.index, old.hash = it.hash ∧ old.state = .candidateBest ∧ old ≠ it ∧
      old.priority computer ≤ it.priority computer ∧
      t.promoteCandidateReady computer it =
      ((t.setState it .candidateReady).setState old .candidateReady).setState
        (it.setState .candidateReady) .candidateBest) ∨
    (∃ other ∈ t.index, other.hash = it.hash ∧ other.IsSelected ∧
      (other.state = .candidateBest → it.priority computer ≤ other.priority computer) ∧
      t.promoteCandidateReady computer it = t.setState it .candidateReady) := by
  obtain ⟨hselected, hready, hbest, -⟩ := hs.group it.hash
  have hu := hs.unique
  have hit₁ : it.setState .candidateReady ∈ (t.setState it .candidateReady).index := by grind
  -- a selected announcement of the same hash stands after the new ready one
  have hafter : ∀ x ∈ t.index, x.hash = it.hash → x.IsSelected →
      ∃ b, next (byTxHash computer)
        (t.setState it .candidateReady).index (it.setState .candidateReady) = some b ∧
        b.hash = it.hash ∧ b.state ≠ .completed := by
    intro x hx hxh hsel
    have := neighbour_of_hash computer hit₁ (x := x) (by grind) (by grind) hxh
    grind
  cases hnext :
    next (byTxHash computer)
      (t.setState it .candidateReady).index (it.setState .candidateReady) with
  | none => exact .inl ⟨by simp only [promoteCandidateReady, hnext], by grind⟩
  | some b =>
    have hb := next_mem hnext
    have hne := next_ne (unique_setState hu).nodup hit₁ hnext
    obtain ⟨-, hkey⟩ := byTxHash_le (key_le_next hit₁ hnext)
    by_cases hend : b.hash ≠ it.hash ∨ b.state = .completed
    · exact .inl ⟨by simp only [promoteCandidateReady, hnext]; grind, by grind⟩
    · by_cases hbetter : b.state = .candidateBest ∧ it.priority computer > b.priority computer
      · refine .inr (.inl ⟨b, ?_⟩)
        simp only [promoteCandidateReady, hnext]
        grind
      · -- the next one is selected, or it is a better ready candidate and something is selected
        refine .inr (.inr ?_)
        have hdef : t.promoteCandidateReady computer it = t.setState it .candidateReady := by
          simp only [promoteCandidateReady, hnext]
          grind
        cases hb : b.state <;> grind

theorem sane_promoteCandidateReady (hstate : it.state = .candidateDelayed) : Sane computer
    (t.promoteCandidateReady computer it).index := by
  obtain ⟨hselected, hready, hbest, halive⟩ := hs.group it.hash
  have hu := hs.unique
  rcases promoteCandidateReady_cases hs hit hstate with
    ⟨heq, hrest⟩ | ⟨old, hold, hhash, hobest, hne, hprio, heq⟩ | ⟨other, hother, hhash, hsel, hprio,
      heq⟩ <;> rw [heq]
  · have hnew : it.setState .candidateBest ∈
        ((t.setState it .candidateReady).setState (it.setState .candidateReady)
          .candidateBest).index := by grind
    exact hs.of_group (h := it.hash) (unique_setState (unique_setState hu)) (by grind)
      ⟨by grind, fun _ _ _ _ => ⟨_, hnew, rfl, .inl rfl⟩, by grind, fun _ _ _ =>
        ⟨_, hnew, rfl, by simp⟩⟩
  · have hnew :
      it.setState .candidateBest ∈
        (((t.setState it .candidateReady).setState old .candidateReady).setState
        (it.setState .candidateReady) .candidateBest).index := by grind
    exact hs.of_group (h := it.hash) (unique_setState (unique_setState (unique_setState hu)))
      (by grind)
      ⟨by grind, fun _ _ _ _ => ⟨_, hnew, rfl, .inl rfl⟩, by grind, fun _ _ _ =>
        ⟨_, hnew, rfl, by simp⟩⟩
  · have hother' : other ∈ (t.setState it .candidateReady).index := by grind
    exact hs.of_group (h := it.hash) (unique_setState hu) (by grind)
      ⟨by grind, fun _ _ _ _ => ⟨other, hother', hhash, hsel⟩, by grind, fun _ _ _ =>
        ⟨other, hother', hhash, by grind⟩⟩

/-! ## Reselection -/

theorem changeAndReselect_cases (s : State) :
    (∃ c ∈ t.index, c.hash = it.hash ∧ c.state = .candidateReady ∧ c ≠ it ∧ it.IsSelected ∧
      (∀ x ∈ t.index, x.hash = it.hash → x.state = .candidateReady →
        x.priority computer ≤ c.priority computer) ∧
      t.changeAndReselect computer it s = (t.setState c .candidateBest).setState it s) ∨
    ((it.IsSelected → ∀ x ∈ t.index, x.hash = it.hash → x.state ≠ .candidateReady) ∧
      t.changeAndReselect computer it s = t.setState it s) := by
  obtain ⟨hselected, -, -, -⟩ := hs.group it.hash
  -- a ready candidate stands before the selected announcement, at or before the best one
  have hbefore : it.IsSelected → ∀ x ∈ t.index, x.hash = it.hash → x.state = .candidateReady →
      ∃ b ∈ t.index, prev (byTxHash computer) t.index it = some b ∧ b.hash = it.hash ∧ b ≠ it ∧
        b.state = .candidateReady ∧ x.priority computer ≤ b.priority computer := by
    intro hsel x hx hxh hready
    rcases neighbour_of_hash computer hit hx (by grind) hxh with ⟨b, hb, h⟩ | h
    · cases hbs : b.state <;> grind
    · grind
  cases hprev : prev (byTxHash computer) t.index it with
  | none => exact .inr ⟨by grind, by simp only [changeAndReselect, hprev]⟩
  | some c =>
    have hc := prev_mem hprev
    have hne := prev_ne hprev
    by_cases hcond : it.IsSelected ∧ c.hash = it.hash ∧ c.state = .candidateReady
    · refine .inl ⟨c, hc, hcond.2.1, hcond.2.2, hne, hcond.1, by grind, ?_⟩
      simp only [changeAndReselect, hprev, if_pos hcond]
    · refine .inr ⟨by grind, ?_⟩
      simp only [changeAndReselect, hprev, if_neg hcond]

theorem sane_changeAndReselect {s : State}
    (hstate : s = .completed ∨ s = .candidateDelayed)
    (halive : s ≠ .completed ∨ ∃ x ∈ t.index, x ≠ it ∧ x.hash = it.hash ∧ x.state ≠ .completed) :
    Sane computer (t.changeAndReselect computer it s).index := by
  obtain ⟨hselected, hready, hbest, -⟩ := hs.group it.hash
  have hu := hs.unique
  rcases changeAndReselect_cases hs hit s with
    ⟨c, hc, hch, hcready, hcit, hsel, hcbest, heq⟩ | ⟨hnone, heq⟩ <;> rw [heq]
  · have hit₁ : it ∈ (t.setState c .candidateBest).index := by grind
    have hc₁ : c.setState .candidateBest ∈ ((t.setState c .candidateBest).setState it s).index := by
      grind
    exact hs.of_group (h := it.hash) (unique_setState (unique_setState hu)) (by grind)
      ⟨by grind, fun _ _ _ _ => ⟨_, hc₁, hch, .inl rfl⟩, by grind, fun _ _ _ =>
        ⟨_, hc₁, hch, by simp⟩⟩
  · refine hs.of_group (h := it.hash) (unique_setState hu) (by grind) ⟨by grind, fun a ha hah har =>
      ?_, by grind, ?_⟩
    · obtain ⟨b, hb, hbh, hbs⟩ := hready a (by grind) hah har
      exact ⟨b, by grind, hbh, hbs⟩
    · rcases halive with hne | ⟨x, hx, hxit, hxh, hxs⟩
      · exact fun _ _ _ => ⟨it.setState s, by grind, rfl, hne⟩
      · exact fun _ _ _ => ⟨x, by grind, hxh, hxs⟩

/-! ## Completion -/

/-- The neighbours show whether an announcement is the only one left that has not failed. -/
theorem isOnlyNonCompleted_iff (hstate : it.state ≠ .completed) :
    t.isOnlyNonCompleted computer it = true ↔
      ∀ x ∈ t.index, x.hash = it.hash → x.state ≠ .completed → x = it := by
  simp only [isOnlyNonCompleted, Bool.and_eq_true, Bool.not_eq_true', Option.any_eq_false,
    decide_eq_false_iff_not,
    Bool.and_eq_false_iff, ne_eq, not_not]
  constructor
  · intro ⟨hprev, hnext⟩ x hx hxh hxs
    by_contra hne
    have := neighbour_of_hash computer hit hx hne hxh
    cases hx : x.state <;> grind
  · intro hall
    refine ⟨fun b hb hbh => ?_, fun b hb => ?_⟩
    · have hrank := ((byTxHash_le (prev_le_key hit hb)).2 hbh).1
      cases hs : it.state <;> grind [prev_mem hb, prev_ne hb]
    · grind [next_mem hb, next_ne hs.unique.nodup hit hb]

end

theorem foldl_erase_spec {l : List Announcement} (hunique : Unique t.index) (hl : l.Nodup)
    (hsub : ∀ a ∈ l, a ∈ t.index) :
    Unique (l.foldl erase t).index ∧ (∀ a, a ∈ (l.foldl erase t).index ↔ a ∈ t.index ∧ a ∉ l) ∧
      (t.Accounted → (l.foldl erase t).Accounted) ∧
      (l.foldl erase t).currentSequence = t.currentSequence ∧
      (l.foldl erase t).index.Sublist t.index := by
  induction l generalizing t with
  | nil => exact ⟨hunique, fun a => by simp, id, rfl, List.Sublist.refl _⟩
  | cons b l ih =>
    have hb := hsub b (by simp)
    obtain ⟨hunique', hmem, haccounted, hsequence, hsublist⟩ :=
      ih (t := t.erase b) (unique_erase hunique) (by grind) (by grind)
    refine ⟨hunique', ?_, fun h => haccounted (h.erase hb), hsequence,
      hsublist.trans List.erase_sublist⟩
    grind

theorem mem_eraseFrom_list (hit : it ∈ t.index) (hstate : it.state ≠ .completed)
    (honly : ∀ x ∈ t.index, x.hash = it.hash → x.state ≠ .completed → x = it) {x : Announcement} :
    x ∈ (since (byTxHash computer) t.index it).takeWhile (fun a => a.hash = it.hash) ↔
      x ∈ t.index ∧ x.hash = it.hash := by
  have hsub : (since (byTxHash computer) t.index it).Sublist (view (byTxHash computer) t.index) :=
    List.dropWhile_sublist _
  have hsorted := pairwise_of_sublist hsub fun a b h => (byTxHash_le h).1
  have hsplit : since (byTxHash computer) t.index it = _ := since_eq_cons hit
  rw [mem_takeWhile_least hsorted]
  · refine and_congr_left fun hxh => ⟨fun h => (mem_view _).1 (hsub.subset h), fun hx => ?_⟩
    by_cases hne : x = it
    · grind
    · have := neighbour_of_hash computer hit hx hne hxh
      cases hs : it.state <;> grind
  · rw [hsplit, List.pairwise_cons] at hsorted
    grind

end Tracker

end Soveroot.TxRequest
