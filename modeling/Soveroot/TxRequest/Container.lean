import Soveroot.TxRequest.Tracker

/-!
# The container and its statistics

What `Erase` and `Modify` do to the collection, and that they keep the statistics per peer equal to
those recomputed from it. Announcements are told apart by peer and transaction hash.
-/

namespace Soveroot.TxRequest

open SortedView List Function

/-- The peer and the transaction hash. -/
def Announcement.id (a : Announcement) : NodeId × TxHash := (a.peer, a.hash)

section

variable (a : Announcement) (s : State)

@[simp, grind =] theorem Announcement.hash_setState : (a.setState s).hash = a.hash := rfl
@[simp, grind =] theorem Announcement.state_setState : (a.setState s).state = s := rfl
@[simp, grind =] theorem Announcement.time_setState : (a.setState s).time = a.time := rfl
@[simp, grind =] theorem Announcement.id_setState : (a.setState s).id = a.id := rfl
@[simp, grind =] theorem Announcement.priority_setState (computer : Computer) (a : Announcement)
    (s : State) :
    (a.setState s).priority computer = a.priority computer := rfl

end

@[simp, grind =] theorem Announcement.peer_setState (a : Announcement) (s : State) :
    (a.setState s).peer = a.peer := rfl

@[simp, grind =] theorem Announcement.setState_setState (a : Announcement) (s r : State) :
    (a.setState s).setState r = a.setState r := rfl

attribute [grind]
  Announcement.IsSelected Announcement.IsWaiting Announcement.IsSelectable State.rank

def Unique (index : List Announcement) : Prop := (index.map Announcement.id).Nodup

namespace Unique

variable {index : List Announcement} {a b : Announcement}

theorem nodup (h : Unique index) : index.Nodup := Nodup.of_map _ h

@[grind →] theorem eq (h : Unique index) (ha : a ∈ index) (hb : b ∈ index)
    (hid : a.id = b.id) : a = b :=
  inj_on_of_nodup_map h ha hb hid

end Unique

/-! ## Counting -/

section Counting

variable {α : Type} [DecidableEq α] {l : List α} {a : α} (q : α → Bool)

theorem countP_erase_add (ha : a ∈ l) : (l.erase a).countP q + (q a).toNat = l.countP q := by
  rw [(perm_cons_erase ha).countP_eq, countP_cons]
  cases q a <;> rfl

theorem countP_replace (hl : l.Nodup) (ha : a ∈ l) (f : α → α) :
    (l.map fun x => if x = a then f x else x).countP q + (q a).toNat =
      l.countP q + (q (f a)).toNat := by
  induction l with
  | nil => cases ha
  | cons b l ih =>
    rw [nodup_cons] at hl
    rw [map_cons, countP_cons, countP_cons]
    by_cases hb : b = a
    · subst hb
      have hsame : (l.map fun x => if x = b then f x else x) = l := by
        conv_rhs => rw [← map_id l]
        apply map_congr_left
        intro x hx
        have hne : x ≠ b := fun h => hl.1 (h ▸ hx)
        rw [if_neg hne]
        rfl
      rw [hsame, if_pos rfl]
      cases q b <;> cases q (f b) <;> simp
    · have := ih hl.2 ((mem_cons.1 ha).resolve_left (Ne.symm hb))
      simp only [if_neg hb]
      omega

end Counting

/-! ## Erasing and modifying -/

namespace Tracker

variable {t : Tracker} {it a : Announcement} {modifier : Announcement → Announcement}

@[grind =] theorem mem_modify (hit : it ∈ t.index) :
    a ∈ (t.modify it modifier).index ↔ a = modifier it ∨ (a ∈ t.index ∧ a ≠ it) := by
  show a ∈ t.index.map _ ↔ _
  rw [mem_map]
  constructor
  · intro ⟨b, hb, heq⟩
    by_cases h : b = it
    · rw [if_pos h] at heq
      exact .inl (by rw [← heq, h])
    · rw [if_neg h] at heq
      exact .inr (by rw [← heq]; exact ⟨hb, h⟩)
  · intro h
    rcases h with rfl | ⟨ha, hne⟩
    · exact ⟨it, hit, if_pos rfl⟩
    · exact ⟨a, ha, if_neg hne⟩

variable {s : State}

@[grind =] theorem mem_setState (hit : it ∈ t.index) :
    a ∈ (t.setState it s).index ↔ a = it.setState s ∨ (a ∈ t.index ∧ a ≠ it) := mem_modify hit

@[grind =] theorem mem_erase (h : Unique t.index) : a ∈ (t.erase it).index ↔
    a ∈ t.index ∧ a ≠ it := by
  show a ∈ t.index.erase it ↔ _
  rw [h.nodup.mem_erase_iff, and_comm]

theorem unique_modify (hid : (modifier it).id = it.id) (h : Unique t.index) :
    Unique (t.modify it modifier).index := by
  have hsame : (t.modify it modifier).index.map Announcement.id = t.index.map Announcement.id := by
    show (t.index.map _).map _ = _
    rw [map_map]
    apply map_congr_left
    intro x _
    by_cases hx : x = it
    · rw [comp_apply, if_pos hx, hx, hid]
    · rw [comp_apply, if_neg hx]
  rwa [Unique, hsame]

theorem unique_setState (h : Unique t.index) : Unique (t.setState it s).index :=
  unique_modify rfl h

theorem unique_erase (h : Unique t.index) : Unique (t.erase it).index :=
  h.sublist (erase_sublist.map _)

/-! ## The statistics -/

def recomputePeerInfo (index : List Announcement) (peer : NodeId) : Option PeerInfo :=
  let total := index.countP fun a => a.peer = peer
  if total = 0 then none
  else some ⟨total, index.countP fun a => decide (a.peer = peer ∧ a.state = .completed),
    index.countP fun a => decide (a.peer = peer ∧ a.state = .requested)⟩

def Accounted (t : Tracker) : Prop := t.peerinfo = recomputePeerInfo t.index

theorem Accounted.getD (h : t.Accounted) (peer : NodeId) :
    (t.peerinfo peer).getD ⟨0, 0, 0⟩ = ⟨t.index.countP fun a => decide (a.peer = peer),
      t.index.countP fun a => decide (a.peer = peer ∧ a.state = .completed),
      t.index.countP fun a => decide (a.peer = peer ∧ a.state = .requested)⟩ := by
  rw [h, recomputePeerInfo]
  by_cases hzero : (t.index.countP fun a => decide (a.peer = peer)) = 0
  · have hall := countP_eq_zero.1 hzero
    have hnone : ∀ s :
        State, (t.index.countP fun a => decide (a.peer = peer ∧ a.state = s)) = 0 := by
      intro s
      rw [countP_eq_zero]
      intro a ha
      simpa using fun hpeer => absurd (by simpa using hpeer) (hall a ha)
    rw [if_pos hzero, hzero, hnone, hnone]
    rfl
  · rw [if_neg hzero]
    rfl

theorem recomputePeerInfo_congr {index index' : List Announcement} {peer : NodeId}
    (h : ∀ q : Announcement → Bool, (∀ a, q a = true → a.peer = peer) →
      index'.countP q = index.countP q) :
    recomputePeerInfo index' peer = recomputePeerInfo index peer := by
  have htotal := h (fun a => decide (a.peer = peer)) (by simp)
  have hcompleted :=
    h (fun a => decide (a.peer = peer ∧ a.state = .completed)) (by simp +contextual)
  have hrequested :=
    h (fun a => decide (a.peer = peer ∧ a.state = .requested)) (by simp +contextual)
  rw [recomputePeerInfo, recomputePeerInfo, htotal, hcompleted, hrequested]

theorem Accounted.erase (h : t.Accounted) (hit : it ∈ t.index) : (t.erase it).Accounted := by
  funext peer
  show Function.update t.peerinfo it.peer _ peer = recomputePeerInfo (t.index.erase it) peer
  by_cases hpeer : peer = it.peer
  · subst hpeer
    have htotal := countP_erase_add (fun a => decide (a.peer = it.peer)) hit
    have hcompleted :=
      countP_erase_add (fun a => decide (a.peer = it.peer ∧ a.state = .completed)) hit
    have hrequested :=
      countP_erase_add (fun a => decide (a.peer = it.peer ∧ a.state = .requested)) hit
    simp only [true_and, decide_true, Bool.toNat_true] at htotal hcompleted hrequested
    rw [update_self, h.getD, recomputePeerInfo, ← htotal, ← hcompleted, ← hrequested]
    simp only [one, Nat.add_sub_cancel]
  · rw [update_of_ne hpeer, h]
    symm
    apply recomputePeerInfo_congr
    intro q hq
    have hnot : q it = false := Bool.eq_false_iff.2 fun hqit => hpeer (hq it hqit).symm
    have := countP_erase_add q hit
    rwa [hnot, Bool.toNat_false, Nat.add_zero] at this

variable (h : t.Accounted) (hunique : Unique t.index) (hit : it ∈ t.index)
include h hunique hit

theorem Accounted.modify (hpeer : (modifier it).peer = it.peer) :
    (t.modify it modifier).Accounted := by
  have hcount := fun q => countP_replace q hunique.nodup hit modifier
  funext peer
  show Function.update t.peerinfo it.peer _ peer = recomputePeerInfo (t.index.map _) peer
  by_cases heq : peer = it.peer
  · subst heq
    have htotal := hcount fun a => decide (a.peer = it.peer)
    have hcompleted := hcount fun a => decide (a.peer = it.peer ∧ a.state = .completed)
    have hrequested := hcount fun a => decide (a.peer = it.peer ∧ a.state = .requested)
    have hpos := countP_erase_add (fun a => decide (a.peer = it.peer)) hit
    have hcompleted' :=
      countP_erase_add (fun a => decide (a.peer = it.peer ∧ a.state = .completed)) hit
    have hrequested' :=
      countP_erase_add (fun a => decide (a.peer = it.peer ∧ a.state = .requested)) hit
    simp only [hpeer, true_and, decide_true, Bool.toNat_true] at htotal hcompleted hrequested
    simp only [true_and, decide_true, Bool.toNat_true] at hpos hcompleted' hrequested'
    rw [update_self, h.getD, recomputePeerInfo]
    simp only [one]
    rw [if_neg (by omega)]
    congr 2 <;> omega
  · rw [update_of_ne heq, h]
    symm
    apply recomputePeerInfo_congr
    intro q hq
    have hnot : q it = false := Bool.eq_false_iff.2 fun hqit => heq (hq it hqit).symm
    have hnot' : q (modifier it) = false :=
      Bool.eq_false_iff.2 fun hqit => heq ((hq _ hqit).symm.trans hpeer)
    have := hcount q
    rwa [hnot, hnot', Bool.toNat_false, Nat.add_zero, Nat.add_zero] at this

theorem Accounted.setState (s : State) :
    (t.setState it s).Accounted := h.modify hunique hit rfl

end Tracker

end Soveroot.TxRequest
