import Mathlib.Data.List.Nodup
import Soveroot.Coins.View

/-!
# Coin caches refine a plain map

A layer is read over the map below it (`Layer.above`). The core of its invariant `Layer.Valid` is
what the two flags promise about that map: an entry that is not `DIRTY` agrees with it, and where an
entry is `FRESH` it has no coin. Every operation replaces the entry at one outpoint
(`Layer.Becomes`).
-/

namespace Soveroot.Coins

open Py Check List Option Function

/-- The four documented states of an entry. -/
inductive Entry.Documented : Entry → Prop
  | created (c : Coin) : Entry.Documented ⟨some c, true, true⟩
  | changed (c : Coin) : Entry.Documented ⟨some c, true, false⟩
  | fetched (c : Coin) : Entry.Documented ⟨some c, false, false⟩
  | spent : Entry.Documented ⟨none, true, false⟩

namespace Layer

/-- What a layer shows over a map. -/
def above (l : Layer) (below : CoinMap) : CoinMap := fun o => (l.coins o).elim (below o) Entry.coin

/-- The invariant of a layer over what the view below shows. -/
structure Valid (l : Layer) (below : CoinMap) : Prop where
  documented : ∀ o e, l.coins o = some e → e.Documented
  clean : ∀ o e, l.coins o = some e → e.dirty = false → e.coin = below o
  fresh : ∀ o e, l.coins o = some e → e.fresh = true → below o = none
  nodup : l.flagged.Nodup
  mem_flagged : ∀ o, o ∈ l.flagged ↔ ∃ e, l.coins o = some e ∧ e.dirty = true
  dirtyCount : l.dirtyCount = l.flagged.length

theorem valid_empty (below : CoinMap) : Layer.empty.Valid below where
  documented o e h := by simp [Layer.empty] at h
  clean o e h := by simp [Layer.empty] at h
  fresh o e h := by simp [Layer.empty] at h
  nodup := nodup_nil
  mem_flagged o := by simp [Layer.empty]
  dirtyCount := rfl

variable {l l' : Layer} {below : CoinMap} {o : OutPoint} {e : Entry}

theorem above_of_some (h : l.coins o = some e) : l.above below o = e.coin := by simp [above, h]

theorem above_of_none (h : l.coins o = none) : l.above below o = below o := by simp [above, h]

theorem Valid.dirty_iff (hl : l.Valid below) (h : l.coins o = some e) :
    o ∈ l.flagged ↔ e.dirty = true := by
  rw [hl.mem_flagged]
  simp [h]

theorem Valid.not_mem_flagged (hl : l.Valid below) (h : l.coins o = none) : o ∉ l.flagged := by
  rw [hl.mem_flagged]
  simp [h]

/-! ## One entry replaced -/

/-- The list after the entry at `o` has become dirty, or has stopped being so. -/
def relink (flagged : List OutPoint) (o : OutPoint) (dirty : Bool) : List OutPoint :=
  if dirty then (if o ∈ flagged then flagged else flagged ++ [o]) else flagged.erase o

variable {flagged : List OutPoint}

theorem relink_of_mem (h : o ∈ flagged) : relink flagged o true = flagged := by
  simp [relink, h]

theorem relink_of_not_mem (h : o ∉ flagged) :
    relink flagged o true = flagged ++ [o] := by simp [relink, h]

theorem relink_erase : relink flagged o false = flagged.erase o := by
  simp [relink]

/-- `l'` is `l` with the entry at `o` replaced by `x`. -/
structure Becomes (l : Layer) (o : OutPoint) (x : Option Entry) (l' : Layer) : Prop where
  coins : l'.coins = Function.update l.coins o x
  flagged : l'.flagged = relink l.flagged o (x.any Entry.dirty)
  dirtyCount : l'.dirtyCount = l'.flagged.length

variable {x : Option Entry}

theorem Becomes.above (h : Becomes l o x l') (below : CoinMap) :
    l'.above below = Function.update (l.above below) o (x.elim (below o) Entry.coin) := by
  funext p
  by_cases hp : p = o
  · subst hp
    simp [Layer.above, h.coins]
  · simp [Layer.above, h.coins, hp]

theorem nodup_relink (h : flagged.Nodup) (o : OutPoint) (dirty : Bool) :
    (relink flagged o dirty).Nodup := by
  cases dirty with
  | false => exact relink_erase ▸ h.erase o
  | true =>
    by_cases hmem : o ∈ flagged
    · rwa [relink_of_mem hmem]
    · rw [relink_of_not_mem hmem]
      exact h.append (nodup_singleton o) (by simpa using hmem)

theorem mem_relink (h : flagged.Nodup) {p : OutPoint} {dirty : Bool} :
    p ∈ relink flagged o dirty ↔ if p = o then dirty = true else p ∈ flagged := by
  cases dirty with
  | false =>
    rw [relink_erase, h.mem_erase_iff]
    by_cases hp : p = o <;> simp [hp]
  | true =>
    by_cases hmem : o ∈ flagged
    · rw [relink_of_mem hmem]
      by_cases hp : p = o <;> simp [hp, hmem]
    · rw [relink_of_not_mem hmem]
      by_cases hp : p = o <;> simp [hp]

/-- The invariant after a replacement; the map below may change at that outpoint too. -/
theorem Valid.becomes {below' : CoinMap} (hl : l.Valid below) (h : Becomes l o x l')
    (hbelow : ∀ p, p ≠ o → below' p = below p)
    (hx : ∀ e, x = some e →
      e.Documented ∧ (e.dirty = false → e.coin = below' o) ∧ (e.fresh = true → below' o = none)) :
    l'.Valid below' := by
  have hcases : ∀ p e, l'.coins p = some e → (p = o ∧ x = some e) ∨
      (p ≠ o ∧ l.coins p = some e) := by
    intro p e he
    rw [h.coins] at he
    by_cases hp : p = o
    · subst hp
      rw [update_self] at he
      exact .inl ⟨rfl, he⟩
    · rw [update_of_ne hp] at he
      exact .inr ⟨hp, he⟩
  refine ⟨?_, ?_, ?_, ?_, ?_, h.dirtyCount⟩
  · intro p e he
    obtain ⟨rfl, hxe⟩ | ⟨hp, he⟩ := hcases p e he
    · exact (hx e hxe).1
    · exact hl.documented p e he
  · intro p e he hd
    obtain ⟨rfl, hxe⟩ | ⟨hp, he⟩ := hcases p e he
    · exact (hx e hxe).2.1 hd
    · rw [hbelow p hp]
      exact hl.clean p e he hd
  · intro p e he hf
    obtain ⟨rfl, hxe⟩ | ⟨hp, he⟩ := hcases p e he
    · exact (hx e hxe).2.2 hf
    · rw [hbelow p hp]
      exact hl.fresh p e he hf
  · rw [h.flagged]
    exact nodup_relink hl.nodup o _
  · intro p
    rw [h.flagged, mem_relink hl.nodup, h.coins]
    by_cases hp : p = o
    · subst hp
      cases x <;> simp
    · rw [if_neg hp, update_of_ne hp]
      exact hl.mem_flagged p

/-! ## The operations on a layer -/

theorem becomes_put (hl : l.Valid below) (h : l.coins o = none) (c : Coin) :
    Becomes l o (some ⟨some c, false, false⟩) (l.put o ⟨some c, false, false⟩) where
  coins := rfl
  flagged := by
    have hmem := hl.not_mem_flagged h
    simp [put, relink_erase, erase_of_not_mem hmem]
  dirtyCount := hl.dirtyCount

theorem becomes_erase (hl : l.Valid below) (h : l.coins o = some e) :
    Becomes l o none ((l.subDirty e.dirty).erase o) where
  coins := by
    funext p
    by_cases hp : p = o
    · subst hp
      simp [erase]
    · by_cases hflag : e.dirty || e.fresh <;>
        simp [erase, setClean, subDirty, put, h, hflag, hp]
  flagged := by
    have hdirty := hl.dirty_iff h
    have hdoc := hl.documented o e h
    cases hdoc <;> simp_all [erase, setClean, subDirty, put, relink_erase, erase_of_not_mem]
  dirtyCount := by
    have hdirty := hl.dirty_iff h
    have hcount := hl.dirtyCount
    cases hl.documented o e h <;>
      simp_all [erase, setClean, subDirty, put, length_erase_of_mem]

theorem becomes_write (hl : l.Valid below) (coin : Option Coin) (fresh : Bool) (hx : l.coins o = x)
    {e : Entry} (he : e = x.getD ⟨none, false, false⟩) {l₁ : Layer}
    (hl₁ : l₁ = (((if x.isSome then l.subDirty e.dirty else l).put o { e with coin }).setDirty
      o).countDirty) :
    Becomes l o (some ⟨coin, true, e.fresh || fresh⟩) (if fresh then l₁.setFresh o else l₁) := by
  subst he hl₁
  have hcount := hl.dirtyCount
  cases x with
  | none =>
    have hmem := hl.not_mem_flagged hx
    refine ⟨?_, ?_, ?_⟩ <;> cases fresh <;>
      simp [setDirty, setFresh, addFlags, put, countDirty, relink_of_not_mem hmem, hcount]
  | some e =>
    have hdirty := hl.dirty_iff hx
    cases hl.documented o e hx with
    | fetched c =>
      have hmem : o ∉ l.flagged := by simpa using hdirty
      refine ⟨?_, ?_, ?_⟩ <;> cases fresh <;>
        simp [setDirty, setFresh, addFlags, put, countDirty, subDirty,
          relink_of_not_mem hmem, hcount]
    | created c | changed c | spent =>
      have hmem : o ∈ l.flagged := by simpa using hdirty
      have hpos := length_pos_of_mem hmem
      refine ⟨?_, ?_, ?_⟩ <;> cases fresh <;>
        simp [setDirty, setFresh, addFlags, put, countDirty, subDirty, relink_of_mem hmem,
          hcount] <;>
        omega

variable (hl : l.Valid below) (h : l.coins o = some e)
include hl h

theorem becomes_put_dirty (hd : e.dirty = true)
    (coin : Option Coin) : Becomes l o (some { e with coin }) (l.put o { e with coin }) where
  coins := rfl
  flagged := by
    have hmem := (hl.dirty_iff h).2 hd
    simp [put, hd, relink_of_mem hmem]
  dirtyCount := hl.dirtyCount

theorem becomes_spend (hf : e.fresh = false) :
    Becomes l o (some ⟨none, true, false⟩)
      (((l.subDirty e.dirty).setDirty o).countDirty.put o
        { e with coin := none, dirty := true }) := by
  have hcount := hl.dirtyCount
  have hdirty := hl.dirty_iff h
  obtain ⟨coin, dirty, fresh⟩ := e
  cases hf
  cases dirty with
  | false =>
    have hmem : o ∉ l.flagged := by simpa using hdirty
    refine ⟨?_, ?_, ?_⟩ <;>
      simp [setDirty, addFlags, put, countDirty, subDirty, h, relink_of_not_mem hmem, hcount]
  | true =>
    have hmem : o ∈ l.flagged := by simpa using hdirty
    have hpos := length_pos_of_mem hmem
    refine ⟨?_, ?_, ?_⟩ <;>
      simp [setDirty, addFlags, put, countDirty, subDirty, h, relink_of_mem hmem, hcount]
    omega

theorem becomes_setClean :
    Becomes l o (some ⟨e.coin, false, false⟩) ((l.subDirty e.dirty).setClean o) := by
  have hcount := hl.dirtyCount
  have hdirty := hl.dirty_iff h
  cases hl.documented o e h with
  | fetched c =>
    have hmem : o ∉ l.flagged := by simpa using hdirty
    refine ⟨?_, ?_, ?_⟩
    · simp [setClean, subDirty, h]
    · simp [setClean, subDirty, h, relink_erase, erase_of_not_mem hmem]
    · simp [setClean, subDirty, h, hcount]
  | created c | changed c | spent =>
    have hmem : o ∈ l.flagged := by simpa using hdirty
    refine ⟨?_, ?_, ?_⟩ <;>
      simp [setClean, put, subDirty, h, relink_erase, length_erase_of_mem hmem, hcount]

/-- Leaving an entry behind without erasing the layer: a spent one goes, others are clean. -/
theorem becomes_next :
    Becomes l o (e.coin.map fun c => ⟨some c, false, false⟩) (l.nextAndMaybeErase false o e) := by
  cases hcoin : e.coin with
  | none => simpa [nextAndMaybeErase, hcoin] using becomes_erase hl h
  | some c => simpa [nextAndMaybeErase, hcoin] using becomes_setClean hl h

end Layer

/-! ## Views -/

namespace View

/-- The map of coins a view stands for. -/
def map : View → CoinMap
  | base coins _ => coins
  | cache l below => l.above below.map

/-- Every layer is valid over what is below it. -/
def Valid : View → Prop
  | base _ _ => True
  | cache l below => l.Valid below.map ∧ below.Valid

theorem peekCoin_eq (v : View) (o : OutPoint) : v.peekCoin o = v.map o := by
  induction v with
  | base coins best => rfl
  | cache l below ih => simp only [peekCoin, ih, map, Layer.above]

def maps : View → List CoinMap
  | base coins _ => [coins]
  | cache l below => l.above below.map :: below.maps

theorem maps_eq_cons (v : View) : v.maps = v.map :: v.maps.tail := by
  cases v <;> rfl

theorem map_of_maps {v : View} {m : CoinMap} {ms : List CoinMap} (h : v.maps = m :: ms) :
    v.map = m := by
  rw [maps_eq_cons] at h
  exact (List.cons.inj h).1

end View

variable {o : OutPoint}

theorem fetchFrom_spec {l : Layer} {below below' : View} {answer : Option Coin}
    (hl : l.Valid below.map) (hanswer : answer = below.map o) (hmap : below'.map = below.map)
    (hmaps : below'.maps = below.maps) (hvalid : below'.Valid) (hvalid₀ : below.Valid) :
    let (e, c) := fetchFrom l below o (answer, below')
    c.layer.coins o = e ∧ unspentOf e = l.above below.map o ∧ c.view.Valid ∧
      c.view.maps = l.above below.map :: below.maps ∧ c.below.map = below.map := by
  simp only [fetchFrom]
  cases he : l.coins o with
  | some e =>
    exact ⟨he, by simp [unspentOf, Layer.above_of_some he], ⟨hl, hvalid₀⟩, rfl, rfl⟩
  | none =>
    have hover : l.above below.map o = answer := (Layer.above_of_none he).trans hanswer.symm
    cases answer with
    | none =>
      refine ⟨he, hover.symm, ⟨hmap ▸ hl, hvalid⟩, ?_, hmap⟩
      simp only [Cache.view, View.maps, hmap, hmaps]
    | some coin =>
      have hput := Layer.becomes_put hl he coin
      have hvalid' : (l.put o ⟨some coin, false, false⟩).Valid below.map :=
        hl.becomes hput (fun _ _ => rfl) (by
          rintro e ⟨⟩
          exact ⟨.fetched coin, fun _ => hanswer, by simp⟩)
      refine ⟨by simp [Layer.put], hover.symm, ⟨hmap ▸ hvalid', hvalid⟩, ?_, hmap⟩
      simp only [Cache.view, View.maps, hmap, hmaps]
      rw [hput.above]
      simpa using hover.symm

theorem View.getCoin_spec (v : View) (hv : v.Valid) (o : OutPoint) :
    (v.getCoin o).1 = v.map o ∧ (v.getCoin o).2.Valid ∧ (v.getCoin o).2.maps = v.maps := by
  induction v with
  | base coins best => exact ⟨rfl, trivial, rfl⟩
  | cache l below ih =>
    obtain ⟨hanswer, hvalid, hmaps⟩ := ih hv.2
    have hmap := View.map_of_maps (hmaps.trans below.maps_eq_cons)
    have h := fetchFrom_spec hv.1 hanswer hmap hmaps hvalid hv.2
    exact ⟨h.2.1, h.2.2.1, h.2.2.2.1⟩

/-! ## Batch writes -/

variable {e : Entry}

/-- Writing a dirty entry of a child to a layer writes its coin to what the layer shows. -/
theorem Layer.batchEntry_spec {us : Layer} {below : CoinMap} (hus : us.Valid below)
    (hd : e.dirty = true) (hdoc : e.Documented)
    (hfresh : e.fresh = true → us.above below o = none) :
    ∃ us', us.batchEntry o e = .ok us' ∧ us'.Valid below ∧
      us'.above below = Function.update (us.above below) o e.coin := by
  have hkeep : ∀ p, p ≠ o → below p = below p := fun _ _ => rfl
  unfold Layer.batchEntry
  rw [if_neg (by simp [hd])]
  cases hu : us.coins o with
  | none =>
    -- a fresh entry is unspent, so the dropped case does not arise
    have hnot : ¬ (e.fresh && e.coin.isNone) = true := by cases hdoc <;> simp
    have hbelow : e.fresh = true → below o = none := by rwa [Layer.above_of_none hu] at hfresh
    have hb := Layer.becomes_write hus e.coin e.fresh hu rfl rfl
    rw [if_neg hnot]
    refine ⟨_, rfl, hus.becomes hb hkeep ?_, hb.above below⟩
    rintro x ⟨⟩
    refine ⟨?_, by simp, by simpa using hbelow⟩
    cases hdoc with
    | created c => exact .created c
    | changed c => exact .changed c
    | fetched c => cases hd
    | spent => exact .spent
  | some u =>
    have hover : us.above below o = u.coin := Layer.above_of_some hu
    have hudoc := hus.documented o u hu
    have hok : ¬ (e.fresh = true ∧ u.coin ≠ none) := fun h => h.2 (hover ▸ hfresh h.1)
    simp only [require_of_pos hok, ok_bind]
    by_cases hdrop : (u.fresh && e.coin.isNone) = true
    · -- the grandparent has no such coin: the entry goes
      rw [if_pos hdrop]
      have hb := Layer.becomes_erase hus hu
      simp only [Bool.and_eq_true, isNone_iff_eq_none] at hdrop
      refine ⟨_, rfl, hus.becomes hb hkeep (by simp), ?_⟩
      rw [hb.above, hdrop.2, elim_none, hus.fresh o u hu hdrop.1]
    · rw [if_neg hdrop]
      by_cases hud : u.dirty = true
      · rw [if_pos hud]
        have hb := Layer.becomes_put_dirty hus hu hud e.coin
        refine ⟨_, rfl, hus.becomes hb hkeep ?_, hb.above below⟩
        rintro x ⟨⟩
        refine ⟨?_, by simp [hud], hus.fresh o u hu⟩
        cases hudoc <;> cases hdoc <;> simp_all <;> constructor
      · rw [if_neg hud]
        have hb := Layer.becomes_write hus e.coin false hu rfl rfl
        have hclean : us.subDirty u.dirty = us := by simp [Layer.subDirty, hud]
        simp only [getD_some, isSome_some, if_true, hclean, Bool.or_false,
          Bool.false_eq_true, if_false] at hb
        refine ⟨_, rfl, hus.becomes hb hkeep ?_, hb.above below⟩
        rintro x ⟨⟩
        refine ⟨?_, by simp, hus.fresh o u hu⟩
        cases hudoc <;> cases hdoc <;> simp_all <;> constructor

variable {v : View}

theorem View.batchEntry_spec (hv : v.Valid) (hd : e.dirty = true) (hdoc : e.Documented)
    (hfresh : e.fresh = true → v.map o = none) : ∃ v', v.batchEntry o e = .ok v' ∧ v'.Valid ∧
      v'.maps = Function.update v.map o e.coin :: v.maps.tail := by
  cases v with
  | base coins best => exact ⟨_, rfl, trivial, by simp [View.maps, View.map, hd]⟩
  | cache l below =>
    obtain ⟨l', h, hl', hover⟩ := Layer.batchEntry_spec hv.1 hd hdoc hfresh
    refine ⟨.cache l' below, by simp [View.batchEntry, h], ⟨hl', hv.2⟩, ?_⟩
    simp only [View.maps, hover, View.map, tail_cons]

/-- The loop of a batch write, with `rest` of the list still to come: those outpoints show what was
below before, all others what the child shows. -/
structure Writing (child : Layer) (v₀ : View) (willErase : Bool) (rest : List OutPoint)
    (l : Layer) (v : View) : Prop where
  valid : v.Valid
  maps : v.maps = v.map :: v₀.maps.tail
  map : ∀ p, v.map p = if p ∈ rest then v₀.map p else child.above v₀.map p
  nodup : rest.Nodup
  mem : ∀ p ∈ rest, ∃ e, child.coins p = some e ∧ e.dirty = true ∧ l.coins p = some e
  erasing : willErase = true → l.coins = child.coins ∧ l.flagged = child.flagged ∧
    l.dirtyCount = rest.length
  keeping : willErase = false → l.Valid v.map ∧ l.above v.map = child.above v₀.map ∧
    l.flagged = rest

section

variable {child : Layer} {v₀ : View} {willErase : Bool} (hchild : child.Valid v₀.map)
include hchild

theorem writing_start (hv : v₀.Valid) :
    Writing child v₀ willErase child.flagged child v₀ where
  valid := hv
  maps := v₀.maps_eq_cons
  map p := by
    by_cases hp : p ∈ child.flagged
    · rw [if_pos hp]
    · rw [if_neg hp]
      cases he : child.coins p with
      | none => exact (Layer.above_of_none he).symm
      | some e =>
        have hd : e.dirty = false := by simpa [hchild.dirty_iff he] using hp
        rw [Layer.above_of_some he, hchild.clean p e he hd]
  nodup := hchild.nodup
  mem p hp := by
    obtain ⟨e, he, hd⟩ := (hchild.mem_flagged p).1 hp
    exact ⟨e, he, hd, he⟩
  erasing _ := ⟨rfl, rfl, hchild.dirtyCount⟩
  keeping _ := ⟨hchild, rfl, rfl⟩

theorem Writing.step {o : OutPoint} {rest : List OutPoint} {l : Layer}
    {v : View} (h : Writing child v₀ willErase (o :: rest) l v) :
    ∃ e v', l.coins o = some e ∧ v.batchEntry o e = .ok v' ∧
      Writing child v₀ willErase rest (l.nextAndMaybeErase willErase o e) v' := by
  obtain ⟨e, hce, hd, hle⟩ := h.mem o (by simp)
  obtain ⟨hnot, hnodup⟩ := nodup_cons.1 h.nodup
  have hvo : v.map o = v₀.map o := by simpa using h.map o
  obtain ⟨v', hv', hvalid, hmaps⟩ := View.batchEntry_spec h.valid hd (hchild.documented o e hce)
    fun hf => hvo.trans (hchild.fresh o e hce hf)
  have hmap := View.map_of_maps hmaps
  refine ⟨e, v', hle, hv', ⟨hvalid, ?_, ?_, hnodup, ?_, ?_, ?_⟩⟩
  · have htail : v.maps.tail = v₀.maps.tail := by simpa using congrArg tail h.maps
    rw [hmaps, hmap, htail]
  · intro p
    rw [hmap]
    by_cases hp : p = o
    · subst hp
      rw [update_self, if_neg hnot, Layer.above_of_some hce]
    · rw [update_of_ne hp, h.map p]
      simp [hp]
  · -- the entries to come are not touched
    intro p hp
    obtain ⟨e', he', hd', hl'⟩ := h.mem p (mem_cons_of_mem _ hp)
    have hpo : p ≠ o := fun heq => hnot (heq ▸ hp)
    refine ⟨e', he', hd', ?_⟩
    cases willErase with
    | true => exact hl'
    | false => rw [(Layer.becomes_next (h.keeping rfl).1 hle).coins, update_of_ne hpo, hl']
  · rintro rfl
    obtain ⟨hcoins, hflagged, hcount⟩ := h.erasing rfl
    refine ⟨hcoins, hflagged, ?_⟩
    simp [Layer.nextAndMaybeErase, Layer.subDirty, hd, hcount]
  · rintro rfl
    obtain ⟨hl, hover, hflagged⟩ := h.keeping rfl
    have hb := Layer.becomes_next hl hle
    have hbelow : ∀ p, p ≠ o → v'.map p = v.map p := by
      intro p hp
      rw [hmap, update_of_ne hp]
    have hself : v'.map o = e.coin := by rw [hmap, update_self]
    refine ⟨hl.becomes hb hbelow ?_, ?_, ?_⟩
    · intro x hx
      obtain ⟨c, hc, rfl⟩ := map_eq_some_iff.1 hx
      exact ⟨.fetched c, fun _ => (hself.trans hc).symm, by simp⟩
    · rw [hb.above, ← hover]
      funext p
      by_cases hp : p = o
      · subst hp
        rw [update_self, Layer.above_of_some hle, hself]
        cases e.coin <;> rfl
      · rw [update_of_ne hp]
        simp only [Layer.above, hbelow p hp]
    · rw [hb.flagged, hflagged]
      cases e.coin <;> simp [Layer.relink_erase]

theorem View.batchWrite_spec (hv : v₀.Valid) (willErase : Bool) :
    ∃ l v, v₀.batchWrite child willErase = .ok (l, v.setBestBlock child.hashBlock) ∧
      Writing child v₀ willErase [] l v := by
  have hstep : ∀ o rest (s : Layer × View), Writing child v₀ willErase (o :: rest) s.1 s.2 →
      ∃ s', View.batchStep willErase s o = .ok s' ∧ Writing child v₀ willErase rest s'.1 s'.2 := by
    intro o rest s h
    obtain ⟨e, v', he, hv', h'⟩ := h.step hchild
    refine ⟨(s.1.nextAndMaybeErase willErase o e, v'), ?_, h'⟩
    simp only [View.batchStep, he, hv', ok_bind, pure_eq_ok]
  obtain ⟨⟨l, v⟩, hrun, h⟩ := foldlM_total
    (P := fun rest (s : Layer × View) => Writing child v₀ willErase rest s.1 s.2) hstep
    (b := (child, v₀)) (writing_start hchild hv)
  exact ⟨l, v, by simp only [View.batchWrite, hrun, ok_bind, pure_eq_ok], h⟩

end

/-! ## The operations of a cache -/

@[simp] theorem View.maps_setBestBlock (v : View) (hash : Option Digest) :
    (v.setBestBlock hash).maps = v.maps := by cases v <;> rfl

theorem View.Valid.setBestBlock (h : v.Valid) (hash : Option Digest) :
    (v.setBestBlock hash).Valid := by
  cases v with
  | base coins best => trivial
  | cache l below =>
    exact ⟨⟨h.1.documented, h.1.clean, h.1.fresh, h.1.nodup, h.1.mem_flagged, h.1.dirtyCount⟩, h.2⟩

namespace Cache

variable {c : Cache} {m : CoinMap} {ms : List CoinMap} {o : OutPoint}

/-- A cache whose layers are valid, that shows `m`, on views that show `ms`. -/
structure Shows (c : Cache) (m : CoinMap) (ms : List CoinMap) : Prop where
  valid : c.view.Valid
  maps : c.view.maps = m :: ms

section

variable (h : c.Shows m ms)
include h

theorem Shows.above : c.layer.above c.below.map = m := (List.cons.inj h.maps).1

theorem Shows.below : c.below.maps = ms := (List.cons.inj h.maps).2

theorem Shows.layer : c.layer.Valid c.below.map := h.valid.1

theorem Shows.becomes {x : Option Entry} {l : Layer}
    (hb : Layer.Becomes c.layer o x l)
    (hx : ∀ e, x = some e → e.Documented ∧ (e.dirty = false → e.coin = c.below.map o) ∧
      (e.fresh = true → c.below.map o = none)) :
    Shows ⟨l, c.below⟩ (Function.update m o (x.elim (c.below.map o) Entry.coin)) ms := by
  refine ⟨⟨h.layer.becomes hb (fun _ _ => rfl) hx, h.valid.2⟩, ?_⟩
  simp only [view, View.maps, hb.above, h.above, h.below]

variable (o : OutPoint)

theorem Shows.fetchCoin :
    (c.fetchCoin o).2.layer.coins o = (c.fetchCoin o).1 ∧ unspentOf (c.fetchCoin o).1 = m o ∧
      (c.fetchCoin o).2.Shows m ms := by
  obtain ⟨hanswer, hvalid, hmaps⟩ := c.below.getCoin_spec h.valid.2 o
  have hmap := View.map_of_maps (hmaps.trans c.below.maps_eq_cons)
  have hf := fetchFrom_spec h.layer hanswer hmap hmaps hvalid h.valid.2
  exact ⟨hf.1, hf.2.1.trans (congrFun h.above o), hf.2.2.1, hf.2.2.2.1.trans h.maps⟩

theorem Shows.getCoin :
    (c.getCoin o).1 = m o ∧ (c.getCoin o).2.Shows m ms := (h.fetchCoin o).2

theorem Shows.haveCoin :
    (c.haveCoin o).1 = (m o).isSome ∧ (c.haveCoin o).2.Shows m ms :=
  ⟨congrArg Option.isSome (h.fetchCoin o).2.1, (h.fetchCoin o).2.2⟩

theorem Shows.peekCoin : c.peekCoin o = m o := by
  rw [Cache.peekCoin, View.peekCoin_eq, View.map_of_maps h.maps]

end

def addTo (m : CoinMap) (o : OutPoint) (coin : Coin) : CoinMap :=
  if isUnspendable coin.out.scriptPubKey then m else Function.update m o (some coin)

section

variable (h : c.Shows m ms) (o : OutPoint)
include h

theorem Shows.addCoin (coin : Coin) (possibleOverwrite : Bool)
    (hfree : possibleOverwrite = false → isUnspendable coin.out.scriptPubKey = false → m o = none) :
    ∃ c', c.addCoin o coin possibleOverwrite = .ok c' ∧ c'.Shows (addTo m o coin) ms := by
  unfold Cache.addCoin addTo
  by_cases hu : isUnspendable coin.out.scriptPubKey = true
  · rw [if_pos hu, if_pos hu]
    exact ⟨c, rfl, h⟩
  · rw [if_neg hu, if_neg hu]
    replace hfree : possibleOverwrite = false → m o = none := fun hp => hfree hp (by simpa using hu)
    have hover := congrFun h.above o
    have hok : possibleOverwrite = true ∨
        ((c.layer.coins o).getD ⟨none, false, false⟩).coin = none := by
      cases possibleOverwrite with
      | true => exact .inl rfl
      | false =>
        refine .inr ?_
        cases he : c.layer.coins o with
        | none => rfl
        | some e => rw [← hfree rfl, ← hover, Layer.above_of_some he]; rfl
    simp only [require_of_pos hok, ok_bind, pure_eq_ok]
    refine ⟨_, rfl, ?_⟩
    have hb := Layer.becomes_write (o := o) h.layer (some coin)
      (!possibleOverwrite && !((c.layer.coins o).getD ⟨none, false, false⟩).dirty) rfl rfl rfl
    refine h.becomes hb ?_
    rintro x ⟨⟩
    refine ⟨?_, by simp, ?_⟩
    · cases (((c.layer.coins o).getD ⟨none, false, false⟩).fresh ||
        (!possibleOverwrite && !((c.layer.coins o).getD ⟨none, false, false⟩).dirty)) with
      | true => exact .created coin
      | false => exact .changed coin
    · -- fresh: it was so before, or the view has no such coin and this layer says nothing of it
      intro hf
      cases he : c.layer.coins o with
      | none =>
        rw [Layer.above_of_none he] at hover
        simp only [he, getD_none, Bool.not_false, Bool.and_true, Bool.false_or,
          Bool.not_eq_true'] at hf
        rw [hover, hfree hf]
      | some e =>
        rw [Layer.above_of_some he] at hover
        simp only [he, getD_some, Bool.or_eq_true, Bool.and_eq_true, Bool.not_eq_true'] at hf
        rcases hf with hf | ⟨hp, hd⟩
        · exact h.layer.fresh o e he hf
        · rw [← h.layer.clean o e he hd, hover, hfree hp]

theorem Shows.spendCoin :
    (c.spendCoin o).1.2 = m o ∧ ((m o).isSome → (c.spendCoin o).1.1 = true) ∧
      (c.spendCoin o).2.Shows (Function.update m o none) ms := by
  obtain ⟨hcoins, hm, hshows⟩ := h.fetchCoin o
  unfold Cache.spendCoin
  generalize c.fetchCoin o = r at hcoins hm hshows ⊢
  obtain ⟨x, c'⟩ := r
  cases x with
  | none =>
    have hnone : m o = none := hm.symm
    refine ⟨hnone.symm, by simp [hnone], ?_⟩
    rwa [← hnone, update_eq_self]
  | some e =>
    refine ⟨hm, fun _ => rfl, ?_⟩
    by_cases hf : e.fresh = true
    · have hb := Layer.becomes_erase hshows.layer hcoins
      have hshow := hshows.becomes hb (by simp)
      simp only [if_pos hf]
      simpa [hshows.layer.fresh o e hcoins hf] using hshow
    · have hb := Layer.becomes_spend hshows.layer hcoins (by simpa using hf)
      simp only [if_neg hf]
      exact hshows.becomes hb (by rintro x ⟨⟩; exact ⟨.spent, by simp, by simp⟩)

theorem Shows.uncache : (c.uncache o).Shows m ms := by
  unfold Cache.uncache
  cases he : c.layer.coins o with
  | none => exact h
  | some e =>
    by_cases hd : e.dirty = true
    · simpa only [if_pos hd] using h
    · have hclean : c.layer.subDirty e.dirty = c.layer := by simp [Layer.subDirty, hd]
      have hb := Layer.becomes_erase h.layer he
      rw [hclean] at hb
      have hshow := h.becomes hb (by simp)
      have hsame : c.below.map o = m o := by
        rw [← h.layer.clean o e he (by simpa using hd), ← congrFun h.above o,
          Layer.above_of_some he]
      simp only [if_neg hd]
      simpa only [elim_none, hsame, update_eq_self] using hshow

end

theorem Shows.setBestBlock (h : c.Shows m ms) (hash : Option Digest) :
    (c.setBestBlock hash).Shows m ms := ⟨h.valid.setBestBlock hash, h.maps⟩

variable {mb : CoinMap} (h : c.Shows m (mb :: ms))
include h

theorem Shows.batchWrite (willErase : Bool) :
    ∃ l v, c.below.batchWrite c.layer willErase = .ok (l, v) ∧ v.Valid ∧ v.maps = m :: ms ∧
      (willErase = true → l.coins = c.layer.coins ∧ l.flagged = c.layer.flagged ∧
        l.dirtyCount = 0) ∧
      (willErase = false → l.Valid m ∧ l.above m = m ∧ l.flagged = []) := by
  obtain ⟨l, v, hrun, hw⟩ := View.batchWrite_spec h.layer h.valid.2 willErase
  have hmap : v.map = m := by
    funext p
    rw [hw.map p, if_neg (by simp), h.above]
  refine ⟨l, _, hrun, hw.valid.setBestBlock _, ?_, hw.erasing, ?_⟩
  · rw [View.maps_setBestBlock, hw.maps, hmap, h.below, tail_cons]
  · intro he
    obtain ⟨hl, hover, hflagged⟩ := hw.keeping he
    rw [hmap] at hl hover
    exact ⟨hl, hover.trans h.above, hflagged⟩

theorem Shows.flush : ∃ c', c.flush = .ok c' ∧ c'.Shows m (m :: ms) := by
  obtain ⟨l, v, hrun, hvalid, hmaps, herasing, -⟩ := h.batchWrite true
  obtain ⟨hcoins, hflagged, hcount⟩ := herasing rfl
  have hnil : l.flagged.filter (fun o => (l.coins o).isNone) = [] := by
    rw [filter_eq_nil_iff]
    intro p hp
    rw [hflagged, h.layer.mem_flagged] at hp
    obtain ⟨e, he, -⟩ := hp
    simp [hcoins, he]
  refine ⟨⟨l.clear, v⟩, by simp only [Cache.flush, hrun, ok_bind, pure_eq_ok], ⟨⟨?_, hvalid⟩, ?_⟩⟩
  · exact ⟨by simp [Layer.clear], by simp [Layer.clear], by simp [Layer.clear],
      by simp [Layer.clear, hnil], by simp [Layer.clear, hnil], by simp [Layer.clear, hnil, hcount]⟩
  · simp only [view, View.maps, hmaps, View.map_of_maps hmaps]
    rfl

theorem Shows.sync : ∃ c', c.sync = .ok c' ∧ c'.Shows m (m :: ms) := by
  obtain ⟨l, v, hrun, hvalid, hmaps, -, hkeeping⟩ := h.batchWrite false
  obtain ⟨hl, hover, hflagged⟩ := hkeeping rfl
  refine ⟨⟨l, v⟩, ?_, ⟨⟨?_, hvalid⟩, ?_⟩⟩
  · simp only [Cache.sync, hrun, ok_bind, require_of_pos hflagged, pure_eq_ok]
  · rw [View.map_of_maps hmaps]
    exact hl
  · simp only [view, View.maps, hmaps, View.map_of_maps hmaps, hover]

end Cache

end Soveroot.Coins
