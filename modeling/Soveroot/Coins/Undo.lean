import Soveroot.Coins.Connect
import Soveroot.Lib.Writes

/-!
# Disconnecting a block undoes connecting it

On the map a stack of caches shows, a block writes `none` at the outpoints it spends and a coin at
those it creates (`blockWrites`), and taking it back writes `none` at the created ones and the
recorded coins at the spent ones (`undoWrites`). On the map before a block, the two lists cancel.
-/

namespace Soveroot.Coins

open Py Check Writes Function

/-- The outputs that enter the coin set. -/
def Tx.created (tx : Tx) : List (OutPoint × TxOut) :=
  tx.outputs.filter fun (_, out) => !isUnspendable out.scriptPubKey

def Tx.spent (tx : Tx) : List OutPoint := if tx.isCoinBase then [] else tx.vin

theorem nodup_keys_outputs (tx : Tx) : (tx.outputs.map Prod.fst).Nodup := by
  have hkeys : tx.outputs.map Prod.fst = (List.range tx.vout.length).map fun i => ⟨tx.hash, i⟩ := by
    rw [Tx.outputs, List.map_map, List.range_eq_range', ← List.zipIdx_map_snd, List.map_map]
    rfl
  rw [hkeys]
  exact List.nodup_range.map fun i j h => congrArg OutPoint.n h

theorem nodup_keys_created (tx : Tx) : (tx.created.map Prod.fst).Nodup :=
  (nodup_keys_outputs tx).sublist (List.filter_sublist.map _)

def spendWrites (vin : List OutPoint) : List (OutPoint × Option Coin) := vin.map fun p => (p, none)

def createWrites (height : Nat) (tx : Tx) : List (OutPoint × Option Coin) :=
  tx.created.map fun (o, out) => (o, some ⟨out, tx.isCoinBase, height⟩)

def txWrites (height : Nat) (tx : Tx) : List (OutPoint × Option Coin) :=
  spendWrites tx.spent ++ createWrites height tx

def blockWrites (height : Nat) (txs : List Tx) : List (OutPoint × Option Coin) :=
  txs.flatMap (txWrites height)

/-! ## When a block can be applied -/

/-- Each input unspent when it is reached. -/
def InputsUnspent : CoinMap → List OutPoint → Prop
  | _, [] => True
  | m, p :: vin => (m p).isSome ∧ InputsUnspent (Function.update m p none) vin

/-- A transaction can be applied: its inputs are unspent, and none of its outputs when it is
added. -/
structure TxApplies (m : CoinMap) (tx : Tx) : Prop where
  inputs : InputsUnspent m tx.spent
  outputs : ∀ o out, (o, out) ∈ tx.created → apply m (spendWrites tx.spent) o = none

def BlockApplies (height : Nat) : CoinMap → List Tx → Prop
  | _, [] => True
  | m, tx :: txs => TxApplies m tx ∧ BlockApplies height (apply m (txWrites height tx)) txs

instance decidableInputsUnspent : (m : CoinMap) → (vin : List OutPoint) →
    Decidable (InputsUnspent m vin)
  | _, [] => inferInstanceAs (Decidable True)
  | m, p :: vin =>
    have := decidableInputsUnspent (Function.update m p none) vin
    inferInstanceAs (Decidable ((m p).isSome ∧ InputsUnspent (Function.update m p none) vin))

variable {tx : Tx}

theorem txApplies_iff {m : CoinMap} : TxApplies m tx ↔ InputsUnspent m tx.spent ∧
      ∀ w ∈ tx.created, apply m (spendWrites tx.spent) w.1 = none :=
  ⟨fun h => ⟨h.inputs, fun w hw => h.outputs w.1 w.2 hw⟩, fun h =>
    ⟨h.1, fun o out hw => h.2 (o, out) hw⟩⟩

instance (m : CoinMap) (tx : Tx) : Decidable (TxApplies m tx) :=
  decidable_of_iff _ txApplies_iff.symm

instance decidableBlockApplies (height : Nat) :
    (m : CoinMap) → (txs : List Tx) → Decidable (BlockApplies height m txs)
  | _, [] => inferInstanceAs (Decidable True)
  | m, tx :: txs =>
    have := decidableBlockApplies height (apply m (txWrites height tx)) txs
    inferInstanceAs (Decidable (TxApplies m tx ∧
      BlockApplies height (apply m (txWrites height tx)) txs))

variable {vin : List OutPoint}

theorem inputsUnspent_iff {m : CoinMap} :
    InputsUnspent m vin ↔ vin.Nodup ∧ ∀ p ∈ vin, (m p).isSome := by
  induction vin generalizing m with
  | nil => simp [InputsUnspent]
  | cons p vin ih =>
    rw [InputsUnspent, ih, List.nodup_cons, List.forall_mem_cons]
    constructor
    · rintro ⟨hp, hnodup, hall⟩
      have hnot : p ∉ vin := fun hmem => by simpa using hall p hmem
      refine ⟨⟨hnot, hnodup⟩, hp, fun q hq => ?_⟩
      have hqp : q ≠ p := fun heq => hnot (heq ▸ hq)
      simpa [hqp] using hall q hq
    · rintro ⟨⟨hnot, hnodup⟩, hp, hall⟩
      refine ⟨hp, hnodup, fun q hq => ?_⟩
      have hqp : q ≠ p := fun heq => hnot (heq ▸ hq)
      simpa [hqp] using hall q hq

/-! ## What the functions do to the map -/

variable {c : Cache} {m : CoinMap} {ms : List CoinMap}

theorem addOutputs_spec (h : c.Shows m ms) (height : Nat) (coinBase check : Bool)
    (outs : List (OutPoint × TxOut))
    (hfree : check = false → coinBase = false → (outs.map Prod.fst).Nodup ∧
      ∀ o out, (o, out) ∈ outs → isUnspendable out.scriptPubKey = false → m o = none) :
    ∃ c', addOutputs c height coinBase check outs = .ok c' ∧
      c'.Shows (apply m ((outs.filter fun (_, out) => !isUnspendable out.scriptPubKey).map
        fun (o, out) => (o, some ⟨out, coinBase, height⟩))) ms := by
  induction outs generalizing c m with
  | nil => exact ⟨c, rfl, h⟩
  | cons w outs ih =>
    obtain ⟨o, out⟩ := w
    -- the flag that `AddCoin` is called with, and the cache it is called on
    obtain ⟨overwrite, c₁, hpair, h₁, hfree₁⟩ : ∃ overwrite c₁,
        (if check then c.haveCoin o else (coinBase, c)) = (overwrite, c₁) ∧ c₁.Shows m ms ∧
          (overwrite = false → isUnspendable out.scriptPubKey = false → m o = none) := by
      cases check with
      | true =>
        obtain ⟨hhave, h₁⟩ := h.haveCoin o
        refine ⟨(c.haveCoin o).1, (c.haveCoin o).2, rfl, h₁, fun hf _ => ?_⟩
        rw [hhave] at hf
        simpa using hf
      | false => exact ⟨coinBase, c, rfl, h, fun hf => (hfree rfl hf).2 o out (by simp)⟩
    obtain ⟨c₂, hadd, h₂⟩ := h₁.addCoin o ⟨out, coinBase, height⟩ overwrite hfree₁
    obtain ⟨c', hrest, h'⟩ := ih h₂ (by
      intro hc hb
      obtain ⟨hnodup, hall⟩ := hfree hc hb
      rw [List.map_cons, List.nodup_cons] at hnodup
      refine ⟨hnodup.2, fun o' out' hmem hs => ?_⟩
      have hne : o' ≠ o := fun heq => hnodup.1 (List.mem_map.2 ⟨(o', out'), hmem, heq⟩)
      have hnone := hall o' out' (List.mem_cons_of_mem _ hmem) hs
      simp only [Cache.addTo]
      split_ifs
      · exact hnone
      · rwa [update_of_ne hne])
    refine ⟨c', by simp only [addOutputs, hpair, hadd, ok_bind, hrest], ?_⟩
    by_cases hu : isUnspendable out.scriptPubKey = true <;>
      simpa [Cache.addTo, hu] using h'

variable {o : OutPoint}

theorem mem_created {out : TxOut} :
    (o, out) ∈ tx.created ↔ (o, out) ∈ tx.outputs ∧ isUnspendable out.scriptPubKey = false := by
  simp [Tx.created]

theorem addCoins_spec (h : c.Shows m ms) (tx : Tx) (height : Nat) (check : Bool)
    (hfree : check = false → ∀ o out, (o, out) ∈ tx.created → m o = none) :
    ∃ c', addCoins c tx height check = .ok c' ∧ c'.Shows (apply m (createWrites height tx)) ms :=
  addOutputs_spec h height tx.isCoinBase check tx.outputs fun hc _ =>
    ⟨nodup_keys_outputs tx, fun o out hmem hs => hfree hc o out (mem_created.2 ⟨hmem, hs⟩)⟩

theorem spendInputs_spec (h : c.Shows m ms) (hin : InputsUnspent m vin) :
    ∃ c', spendInputs c vin = .ok (vin.map m, c') ∧ c'.Shows (apply m (spendWrites vin)) ms := by
  have hall := inputsUnspent_iff.1 hin
  induction vin generalizing c m with
  | nil => exact ⟨c, rfl, h⟩
  | cons p vin ih =>
    obtain ⟨hcoin, hok, h₁⟩ := h.spendCoin p
    have hnot := (List.nodup_cons.1 hall.1).1
    obtain ⟨c', hrest, h'⟩ := ih h₁ hin.2 (inputsUnspent_iff.1 hin.2)
    have hmap : vin.map (Function.update m p none) = vin.map m :=
      List.map_congr_left fun q hq => update_of_ne (ne_of_mem_of_not_mem hq hnot) _ _
    refine ⟨c', ?_, h'⟩
    simp only [spendInputs]
    rw [require_of_pos (hok hin.1), ok_bind, hrest, ok_bind, hcoin, hmap]
    rfl

/-- What `UpdateCoins` records. -/
def recordOf (m : CoinMap) (tx : Tx) : TxUndo := tx.spent.map m

theorem updateCoins_spec (h : c.Shows m ms) (htx : TxApplies m tx) (height : Nat) :
    ∃ c', updateCoins tx c height = .ok (recordOf m tx, c') ∧
      c'.Shows (apply m (txWrites height tx)) ms := by
  obtain ⟨c₁, hspend, h₁⟩ : ∃ c₁, (if tx.isCoinBase then .ok ([], c) else spendInputs c tx.vin) =
      .ok (recordOf m tx, c₁) ∧ c₁.Shows (apply m (spendWrites tx.spent)) ms := by
    have hin := htx.inputs
    by_cases hcb : tx.isCoinBase = true
    · rw [if_pos hcb]
      refine ⟨c, by simp [recordOf, Tx.spent, hcb], ?_⟩
      simpa [Tx.spent, hcb, spendWrites] using h
    · rw [if_neg hcb]
      simp only [Tx.spent, hcb, recordOf, if_false, Bool.false_eq_true] at hin ⊢
      exact spendInputs_spec h hin
  obtain ⟨c', hadd, h'⟩ := addCoins_spec h₁ tx height false fun _ => htx.outputs
  refine ⟨c', ?_, by rwa [txWrites, apply_append]⟩
  rw [updateCoins, hspend, ok_bind]
  simp only [hadd]
  rfl

theorem haveCoins_spec (h : c.Shows m ms) (vin : List OutPoint) :
    ((haveCoins c vin).1 = true ↔ ∀ p ∈ vin, (m p).isSome) ∧ (haveCoins c vin).2.Shows m ms := by
  induction vin generalizing c with
  | nil => exact ⟨by simp [haveCoins], h⟩
  | cons p vin ih =>
    obtain ⟨hhave, h'⟩ := h.haveCoin p
    rw [haveCoins, hhave, List.forall_mem_cons]
    split_ifs with hp
    · simpa [hp] using ih h'
    · exact ⟨by simp [hp], h'⟩

/-- **Inputs that are there can be spent.** On a stack of valid layers, `HaveInputs` changes no view
and says whether the inputs are unspent. If so, and if they are distinct and the outputs are new,
`UpdateCoins` goes through and records the coins spent. -/
theorem updateCoins_of_haveInputs {c : Cache} (hc : c.view.Valid) (tx : Tx) (height : Nat) :
    (haveInputs c tx).2.view.maps = c.view.maps ∧
    ((haveInputs c tx).1 = true ↔ ∀ p ∈ tx.spent, (c.view.map p).isSome) ∧
    ((haveInputs c tx).1 = true → tx.vin.Nodup →
      (∀ w ∈ tx.created, apply c.view.map (spendWrites tx.spent) w.1 = none) →
      ∃ c', updateCoins tx (haveInputs c tx).2 height = .ok (recordOf c.view.map tx, c') ∧
        c'.view.map = apply c.view.map (txWrites height tx)) := by
  have h : c.Shows c.view.map c.view.maps.tail := ⟨hc, View.maps_eq_cons _⟩
  obtain ⟨hiff, h'⟩ : ((haveInputs c tx).1 = true ↔ ∀ p ∈ tx.spent, (c.view.map p).isSome) ∧
      (haveInputs c tx).2.Shows c.view.map c.view.maps.tail := by
    rw [haveInputs, Tx.spent]
    split_ifs
    · exact ⟨by simp, h⟩
    · exact haveCoins_spec h tx.vin
  refine ⟨h'.maps.trans h.maps.symm, hiff, fun hall hvin hnew => ?_⟩
  have hnodup : tx.spent.Nodup := by
    rw [Tx.spent]
    split_ifs
    · exact List.nodup_nil
    · exact hvin
  have htx : TxApplies c.view.map tx :=
    ⟨inputsUnspent_iff.2 ⟨hnodup, hiff.1 hall⟩, fun o out hmem => hnew (o, out) hmem⟩
  obtain ⟨c', hok, hshows⟩ := updateCoins_spec h' htx height
  exact ⟨c', hok, View.map_of_maps hshows.maps⟩

def recordsOf (height : Nat) : CoinMap → List Tx → List TxUndo
  | _, [] => []
  | m, tx :: txs => recordOf m tx :: recordsOf height (apply m (txWrites height tx)) txs

variable {height : Nat} {txs : List Tx}

theorem updateAll_spec (h : c.Shows m ms) (htxs : BlockApplies height m txs) :
    ∃ c', updateAll height txs c = .ok (recordsOf height m txs, c') ∧
      c'.Shows (apply m (blockWrites height txs)) ms := by
  induction txs generalizing c m with
  | nil => exact ⟨c, rfl, h⟩
  | cons tx txs ih =>
    obtain ⟨c₁, h₁eq, h₁⟩ := updateCoins_spec h htxs.1 height
    obtain ⟨c', hrest, h'⟩ := ih h₁ htxs.2
    refine ⟨c', by simp only [updateAll, h₁eq, ok_bind, hrest, pure_eq_ok, recordsOf], ?_⟩
    rwa [blockWrites, List.flatMap_cons, apply_append]

/-! ## What disconnecting writes -/

def takeWrites (tx : Tx) : List (OutPoint × Option Coin) := tx.created.map fun (o, _) => (o, none)

/-- The writes of restoring the inputs of a transaction that was applied to `m`. -/
def restoreWrites (m : CoinMap) (tx : Tx) : List (OutPoint × Option Coin) :=
  tx.spent.reverse.map fun p => (p, m p)

/-- What undoing transactions that were applied to `m` writes, from the last on. -/
def undoWrites (height : Nat) : CoinMap → List Tx → List (OutPoint × Option Coin)
  | _, [] => []
  | m, tx :: txs =>
    undoWrites height (apply m (txWrites height tx)) txs ++ (takeWrites tx ++ restoreWrites m tx)

/-- `ApplyTxInUndo` puts the coins of `m` at these outpoints back as they were: their height is
known and their script can be spent. -/
def Restorable (S : Set OutPoint) (m : CoinMap) : Prop :=
  ∀ o ∈ S, ∀ coin, m o = some coin →
    coin.height ≠ 0 ∧ isUnspendable coin.out.scriptPubKey = false

variable {S : Set OutPoint}

theorem Restorable.apply {ws : List (OutPoint × Option Coin)} (h : Restorable S m)
    (hws : ∀ o coin, (o, some coin) ∈ ws →
      coin.height ≠ 0 ∧ isUnspendable coin.out.scriptPubKey = false) :
    Restorable S (apply m ws) := by
  induction ws generalizing m with
  | nil => exact h
  | cons w ws ih =>
    rw [apply_cons]
    refine ih (fun o hS coin hcoin => ?_) fun o coin hmem =>
      hws o coin (List.mem_cons_of_mem _ hmem)
    by_cases ho : o = w.1
    · subst ho
      rw [update_self] at hcoin
      exact hws w.1 coin (by rw [← hcoin]; exact List.mem_cons_self)
    · rw [update_of_ne ho] at hcoin
      exact h o hS coin hcoin

theorem Restorable.txWrites (h : Restorable S m) (hheight : height ≠ 0) (tx : Tx) :
    Restorable S (Writes.apply m (txWrites height tx)) := by
  refine h.apply fun o coin hmem => ?_
  rcases List.mem_append.1 hmem with hspend | hcreate
  · simp [spendWrites] at hspend
  · obtain ⟨⟨o', out⟩, hout, heq⟩ := List.mem_map.1 hcreate
    obtain ⟨-, hcoin⟩ := Prod.mk.inj heq
    rw [← Option.some.inj hcoin]
    exact ⟨hheight, (mem_created.1 hout).2⟩

theorem Restorable.blockWrites (h : Restorable S m) (hheight : height ≠ 0) (txs : List Tx) :
    Restorable S (Writes.apply m (blockWrites height txs)) := by
  induction txs generalizing m with
  | nil => exact h
  | cons tx txs ih =>
    rw [Coins.blockWrites, List.flatMap_cons, apply_append]
    exact ih (h.txWrites hheight tx)

theorem takeOutputs_spec (h : c.Shows m ms) (height : Nat) (coinBase exception clean : Bool)
    (outs : List (OutPoint × TxOut)) :
    ∃ clean' c', takeOutputs height coinBase exception outs clean c = (clean', c') ∧
      c'.Shows (apply m ((outs.filter fun (_, out) => !isUnspendable out.scriptPubKey).map
        fun (o, _) => (o, none))) ms ∧
      (clean = true → (outs.map Prod.fst).Nodup →
        (∀ o out, (o, out) ∈ outs → isUnspendable out.scriptPubKey = false →
          m o = some ⟨out, coinBase, height⟩) → clean' = true) := by
  induction outs generalizing c m clean with
  | nil => exact ⟨clean, c, rfl, h, fun hclean _ _ => hclean⟩
  | cons w outs ih =>
    obtain ⟨o, out⟩ := w
    by_cases hu : isUnspendable out.scriptPubKey = true
    · obtain ⟨clean', c', htake, h', hclean'⟩ := ih h clean
      refine ⟨clean', c', by simpa [takeOutputs, hu] using htake, by simpa [hu] using h', ?_⟩
      intro hclean hnodup hall
      exact hclean' hclean (List.nodup_cons.1 hnodup).2 fun o' out' hmem =>
        hall o' out' (List.mem_cons_of_mem _ hmem)
    · obtain ⟨hcoin, hok, h₁⟩ := h.spendCoin o
      obtain ⟨clean', c', htake, h', hclean'⟩ := ih h₁ (clean && (((c.spendCoin o).1.1 &&
        decide ((c.spendCoin o).1.2 = some ⟨out, coinBase, height⟩)) || exception))
      refine ⟨clean', c', by simpa [takeOutputs, hu] using htake, by simpa [hu] using h', ?_⟩
      intro hclean hnodup hall
      have hout := hall o out (by simp) (by simpa using hu)
      rw [List.map_cons, List.nodup_cons] at hnodup
      refine hclean' ?_ hnodup.2 fun o' out' hmem hs => ?_
      · rw [hcoin, hout, hok (by rw [hout]; rfl), hclean]
        simp
      · have hne : o' ≠ o := fun heq => hnodup.1 (List.mem_map.2 ⟨(o', out'), hmem, heq⟩)
        rw [update_of_ne hne]
        exact hall o' out' (List.mem_cons_of_mem _ hmem) hs

variable {m₀ : CoinMap}

theorem restoreInputs_spec (h : c.Shows m ms) (clean : Bool) (hm₀ : Restorable S m₀)
    (ps : List OutPoint) (hS : ∀ p ∈ ps, p ∈ S) (hps : ∀ p ∈ ps, (m₀ p).isSome) :
    ∃ clean' c', restoreInputs (ps.map fun p => (p, m₀ p)) clean c = .ok (resultOf clean', c') ∧
      c'.Shows (apply m (ps.map fun p => (p, m₀ p))) ms ∧
      (clean = true → ps.Nodup → (∀ p ∈ ps, m p = none) → clean' = true) := by
  induction ps generalizing c m clean with
  | nil => exact ⟨clean, c, rfl, h, fun hclean _ _ => hclean⟩
  | cons p ps ih =>
    obtain ⟨coin, hcoin⟩ := Option.isSome_iff_exists.1 (hps p (by simp))
    obtain ⟨hheight, hspendable⟩ := hm₀ p (hS p (by simp)) coin hcoin
    obtain ⟨hhave, h₁⟩ := h.haveCoin p
    obtain ⟨c₂, hadd, h₂⟩ := h₁.addCoin p coin (c.haveCoin p).1 fun hf _ => by
      rw [hhave] at hf
      simpa using hf
    have happly : applyTxInUndo (m₀ p) c p = .ok (resultOf !(c.haveCoin p).1, c₂) := by
      rw [applyTxInUndo, hcoin]
      simp only [completeUndo, if_neg hheight, ok_bind, raised, hadd]
      rfl
    have hmap : Cache.addTo m p coin = Function.update m p (m₀ p) := by
      rw [Cache.addTo, if_neg (by simp [hspendable]), hcoin]
    rw [hmap] at h₂
    obtain ⟨clean', c', hrest, h', hclean'⟩ := ih h₂ (clean && !(c.haveCoin p).1)
      (fun q hq => hS q (List.mem_cons_of_mem _ hq)) fun q hq => hps q (List.mem_cons_of_mem _ hq)
    refine ⟨clean', c', ?_, h', ?_⟩
    · rw [List.map_cons, restoreInputs, happly, ok_bind, ← hrest]
      cases (c.haveCoin p).1 <;> simp [resultOf]
    · intro hclean hnodup hnone
      rw [List.nodup_cons] at hnodup
      refine hclean' ?_ hnodup.2 fun q hq => ?_
      · rw [hclean, hhave, hnone p (by simp)]
        rfl
      · rw [update_of_ne (ne_of_mem_of_not_mem hq hnodup.1)]
        exact hnone q (List.mem_cons_of_mem _ hq)

/-- A transaction applied to `m`, with the undo record `DisconnectBlock` finds for it. -/
def undoOf (m : CoinMap) (tx : Tx) : Option TxUndo :=
  if tx.isCoinBase then none else some (recordOf m tx)

/-- The transactions of a block applied to `m`, with their undo records. -/
def undoable (height : Nat) : CoinMap → List Tx → List (Tx × Option TxUndo)
  | _, [] => []
  | m, tx :: txs => (tx, undoOf m tx) :: undoable height (apply m (txWrites height tx)) txs

theorem disconnectTx_spec (h : c.Shows m ms) (height : Nat) (enforce clean : Bool)
    (hm₀ : Restorable S m₀) (hS : ∀ p ∈ tx.spent, p ∈ S) (hin : InputsUnspent m₀ tx.spent) :
    ∃ clean' c', disconnectTx height enforce tx (undoOf m₀ tx) clean c =
        .ok (resultOf clean', c') ∧
      c'.Shows (apply m (takeWrites tx ++ restoreWrites m₀ tx)) ms ∧
      (clean = true → (∀ o out, (o, out) ∈ tx.created → m o = some ⟨out, tx.isCoinBase, height⟩) →
        (∀ p ∈ tx.spent, apply m (takeWrites tx) p = none) → clean' = true) := by
  obtain ⟨hnodup, hsome⟩ := inputsUnspent_iff.1 hin
  obtain ⟨clean₁, c₁, htake, h₁, hclean₁⟩ :=
    takeOutputs_spec h height tx.isCoinBase (tx.isCoinBase && !enforce) clean tx.outputs
  obtain ⟨clean', c', hrestore, h', hclean'⟩ := restoreInputs_spec h₁ clean₁ hm₀
    tx.spent.reverse (fun p hp => hS p (List.mem_reverse.1 hp))
    fun p hp => hsome p (List.mem_reverse.1 hp)
  refine ⟨clean', c', ?_, by rw [apply_append]; exact h', fun hclean hcreated hspent => ?_⟩
  · rw [← hrestore]
    simp only [disconnectTx, htake]
    by_cases hcb : tx.isCoinBase = true
    · simp only [undoOf, if_pos hcb, Tx.spent, List.reverse_nil, List.map_nil, restoreInputs]
    · simp only [undoOf, if_neg hcb, recordOf, Tx.spent, List.length_map, ne_eq,
        not_true_eq_false, if_false, List.map_reverse]
      rw [← List.map_prod_left_eq_zip]
  · refine hclean' (hclean₁ hclean (nodup_keys_outputs tx) fun o out hmem hs => ?_)
      (List.nodup_reverse.2 hnodup) fun p hp => hspent p (List.mem_reverse.1 hp)
    exact hcreated o out (mem_created.2 ⟨hmem, hs⟩)

theorem disconnectAll_append (height : Nat) (enforce : Bool) (l l' : List (Tx × Option TxUndo))
    (clean clean' : Bool) (c c' : Cache)
    (h : disconnectAll height enforce l clean c = .ok (resultOf clean', c')) :
    disconnectAll height enforce (l ++ l') clean c = disconnectAll height enforce l' clean' c' := by
  induction l generalizing clean c with
  | nil =>
    obtain ⟨hclean, rfl⟩ := Prod.mk.inj (Except.ok.inj h)
    have heq : clean = clean' := by
      cases clean <;> cases clean' <;> simp_all [resultOf]
    rw [heq, List.nil_append]
  | cons w l ih =>
    obtain ⟨⟨res, c₁⟩, htx, h⟩ := bind_eq_ok.1 h
    dsimp only at h
    by_cases hfailed : res = .failed
    · rw [if_pos hfailed] at h
      have := (Prod.mk.inj (Except.ok.inj h)).1
      cases clean' <;> simp [resultOf] at this
    · rw [if_neg hfailed] at h
      rw [List.cons_append, disconnectAll, htx, ok_bind]
      dsimp only
      rw [if_neg hfailed]
      exact ih _ _ h

/-! ## Undoing a transaction -/

section Cancel

variable {tx : Tx} {o : OutPoint}

theorem keys_createWrites (height : Nat) (tx : Tx) :
    keys (createWrites height tx) = tx.created.map Prod.fst := by
  simp [keys, createWrites]

theorem apply_takeWrites (m : CoinMap) (tx : Tx) (o : OutPoint) :
    apply m (takeWrites tx) o = if o ∈ tx.created.map Prod.fst then none else m o := by
  have := apply_map m (fun _ => none) (tx.created.map Prod.fst) o
  rwa [List.map_map] at this

theorem apply_spendWrites (m : CoinMap) (vin : List OutPoint) (o : OutPoint) :
    apply m (spendWrites vin) o = if o ∈ vin then none else m o :=
  apply_map m (fun _ => none) vin o

/-- Once the outputs are taken back, only the inputs are missing. -/
theorem TxApplies.taken (htx : TxApplies m tx) (height : Nat) (o : OutPoint) :
    apply (apply m (txWrites height tx)) (takeWrites tx) o = if o ∈ tx.spent then
      none else m o := by
  rw [← apply_spendWrites, apply_takeWrites, txWrites, apply_append]
  by_cases ho : o ∈ tx.created.map Prod.fst
  · obtain ⟨⟨o', out⟩, hmem, rfl⟩ := List.mem_map.1 ho
    rw [if_pos ho, htx.outputs o' out hmem]
  · rw [if_neg ho, apply_of_not_mem (by rwa [keys_createWrites])]

theorem TxApplies.holds_created (_ : TxApplies m tx) (height : Nat) {out : TxOut}
    (hmem : (o, out) ∈ tx.created) :
    apply m (txWrites height tx) o = some ⟨out, tx.isCoinBase, height⟩ := by
  rw [txWrites, apply_append]
  exact apply_of_mem (by rw [keys_createWrites]; exact nodup_keys_created tx)
    (List.mem_map.2 ⟨(o, out), hmem, rfl⟩)

theorem TxApplies.cancel (htx : TxApplies m tx) (height : Nat) :
    apply (apply m (txWrites height tx)) (takeWrites tx ++ restoreWrites m tx) = m := by
  funext o
  rw [apply_append, restoreWrites, apply_map, htx.taken]
  by_cases ho : o ∈ tx.spent <;> simp [ho]

end Cancel

/-! ## Undoing a block -/

theorem blockWrites_cons (height : Nat) (tx : Tx) (txs : List Tx) :
    blockWrites height (tx :: txs) = txWrites height tx ++ blockWrites height txs :=
  List.flatMap_cons

theorem BlockApplies.cancel (htxs : BlockApplies height m txs) :
    apply (apply m (blockWrites height txs)) (undoWrites height m txs) = m := by
  induction txs generalizing m with
  | nil => rfl
  | cons tx txs ih =>
    rw [blockWrites_cons, undoWrites, apply_append m, apply_append _ (undoWrites _ _ _),
      ih htxs.2, htxs.1.cancel]

/-- On any map, undoing the transactions of a block that was applied to `m₀` does its writes; it is
clean on the map after the block. -/
theorem disconnectAll_spec (h : c.Shows m ms) (hheight : height ≠ 0) (enforce clean : Bool)
    (hm₀ : Restorable S m₀) (hS : ∀ tx ∈ txs, ∀ p ∈ tx.spent, p ∈ S)
    (htxs : BlockApplies height m₀ txs) :
    ∃ clean' c', disconnectAll height enforce (undoable height m₀ txs).reverse clean c =
        .ok (resultOf clean', c') ∧
      c'.Shows (apply m (undoWrites height m₀ txs)) ms ∧
      (clean = true → m = apply m₀ (blockWrites height txs) → clean' = true) := by
  induction txs generalizing m₀ with
  | nil => exact ⟨clean, c, rfl, h, fun hclean _ => hclean⟩
  | cons tx txs ih =>
    obtain ⟨htx, htxs⟩ := htxs
    obtain ⟨clean₁, c₁, hrest, h₁, hclean₁⟩ := ih (hm₀.txWrites hheight tx)
      (fun tx' hmem => hS tx' (List.mem_cons_of_mem _ hmem)) htxs
    obtain ⟨clean', c', hdis, h', hclean'⟩ := disconnectTx_spec h₁ height enforce clean₁ hm₀
      (hS tx List.mem_cons_self) htx.inputs
    refine ⟨clean', c', ?_, by rwa [undoWrites, apply_append], fun hclean hm => ?_⟩
    · rw [undoable, List.reverse_cons, disconnectAll_append _ _ _ _ _ _ _ _ hrest, disconnectAll,
        hdis, ok_bind]
      cases clean' <;> simp [resultOf, disconnectAll]
    · rw [blockWrites_cons, apply_append] at hm
      -- the transactions after this one are undone, and its own writes are there
      have hback : apply m (undoWrites height (apply m₀ (txWrites height tx)) txs) =
          apply m₀ (txWrites height tx) := by
        rw [hm, htxs.cancel]
      rw [hback] at hclean'
      refine hclean' (hclean₁ hclean hm) (fun o out => htx.holds_created height) fun p hp => ?_
      rw [htx.taken, if_pos hp]

theorem undoable_eq_zip (height : Nat) (m : CoinMap) (h : ∀ tx ∈ txs, tx.isCoinBase = false) :
    undoable height m txs = txs.zip ((recordsOf height m txs).map some) := by
  induction txs generalizing m with
  | nil => rfl
  | cons tx txs ih =>
    rw [undoable, recordsOf, List.map_cons, List.zip_cons_cons, undoOf, h tx (by simp),
      ih _ fun tx' hmem => h tx' (List.mem_cons_of_mem _ hmem)]
    rfl

theorem length_recordsOf (height : Nat) (m : CoinMap) (txs : List Tx) :
    (recordsOf height m txs).length = txs.length := by
  induction txs generalizing m with
  | nil => rfl
  | cons tx txs ih => rw [recordsOf, List.length_cons, ih, List.length_cons]

/-- The undo data of a block applied to `m`. -/
def undoData (block : Block) (height : Nat) (m : CoinMap) : List TxUndo :=
  (recordsOf height m block.vtx).tail

theorem withUndo_undoData (block : Block) (height : Nat) (m : CoinMap) :
    withUndo block (undoData block height m) = undoable height m block.vtx := by
  simp only [withUndo, undoData, Block.vtx, recordsOf, List.tail_cons, List.zip_cons_cons, undoable,
    undoOf, block.coinbase_isCoinBase, if_true, undoable_eq_zip _ _ block.others_not_coinBase]

variable {block : Block}

theorem connectCoins_spec (h : c.Shows m ms) (happlies : BlockApplies height m block.vtx) :
    ∃ c', connectCoins block height c = .ok (undoData block height m, c') ∧
      c'.Shows (apply m (blockWrites height block.vtx)) ms := by
  obtain ⟨c', hall, h'⟩ := updateAll_spec h happlies
  exact ⟨c', by rw [connectCoins, hall]; rfl, h'⟩

/-- `DisconnectBlock` on any map, with the undo data of a block that was applied to `m₀`. -/
theorem disconnectBlock_spec (h : c.Shows m ms) (index : BlockRef) (hheight : index.height ≠ 0)
    (hm₀ : Restorable S m₀) (hS : ∀ tx ∈ block.vtx, ∀ p ∈ tx.spent, p ∈ S)
    (happlies : BlockApplies index.height m₀ block.vtx) :
    ∃ (clean : Bool) (c' : Cache),
      disconnectBlock block index (some (undoData block index.height m₀)) c =
        .ok (resultOf clean, c'.setBestBlock (some index.prevHash)) ∧
      c'.Shows (apply m (undoWrites index.height m₀ block.vtx)) ms ∧
      (m = apply m₀ (blockWrites index.height block.vtx) → clean = true) := by
  obtain ⟨clean, c', hall, h', hclean⟩ :=
    disconnectAll_spec h hheight (enforceBip30 index) true hm₀ hS happlies
  refine ⟨clean, c', ?_, h', hclean rfl⟩
  have hlength : (undoData block index.height m₀).length + 1 = block.vtx.length := by
    rw [undoData, List.length_tail, length_recordsOf]
    rfl
  rw [disconnectBlock, if_neg (not_not.2 hlength), withUndo_undoData, hall, ok_bind]
  cases clean <;> rfl

/-- Disconnecting a block right after connecting it succeeds and gives the coins back, provided that
every coin of the view has a height and those that the block spends have a spendable script; the
caches below stay as they were. -/
theorem disconnectBlock_connectCoins (c : Cache) (hc : c.view.Valid)
    (hcoins : ∀ o coin, c.view.map o = some coin → 1 ≤ coin.height)
    (block : Block) (index : BlockRef) (hheight : 1 ≤ index.height)
    (hspent : ∀ tx ∈ block.vtx, ∀ o ∈ tx.spent, ∀ coin, c.view.map o = some coin →
      isUnspendable coin.out.scriptPubKey = false)
    (happlies : BlockApplies index.height c.view.map block.vtx) :
    ∃ undos c₁ c₂, connectCoins block index.height c = .ok (undos, c₁) ∧
      disconnectBlock block index (some undos) c₁ = .ok (.ok, c₂) ∧
      c₂.view.map = c.view.map ∧ c₂.below.maps = c.below.maps := by
  have hrestorable : Restorable {o | ∃ tx ∈ block.vtx, o ∈ tx.spent} c.view.map := by
    rintro o ⟨tx, htx, ho⟩ coin hcoin
    exact ⟨Nat.one_le_iff_ne_zero.1 (hcoins o coin hcoin), hspent tx htx o ho coin hcoin⟩
  have h : c.Shows c.view.map c.below.maps := ⟨hc, rfl⟩
  obtain ⟨c₁, hconnect, h₁⟩ := connectCoins_spec h happlies
  obtain ⟨clean, c₂, hdisconnect, h₂, hclean⟩ :=
    disconnectBlock_spec h₁ index (Nat.one_le_iff_ne_zero.1 hheight) hrestorable
      (fun tx htx p hp => ⟨tx, htx, hp⟩) happlies
  obtain rfl := hclean rfl
  rw [happlies.cancel] at h₂
  refine ⟨_, c₁, _, hconnect, hdisconnect, ?_, ?_⟩
  · exact (h₂.setBestBlock _).above
  · exact (h₂.setBestBlock _).below

namespace Sample

def hashOf (n : UInt8) : Digest := .filled n

def pays (hash : Digest) (vin : List OutPoint) : Tx := ⟨hash, vin, [paysFive []]⟩

def nullOutPoint : OutPoint := ⟨zeroHash, 0xffffffff⟩

/-- A block that spends the coin at output 0 of `hashOf 9`, and spends the result once more. -/
def chained : Block where
  coinbase := pays (hashOf 1) [nullOutPoint]
  others := [pays (hashOf 2) [⟨hashOf 9, 0⟩], pays (hashOf 3) [⟨hashOf 2, 0⟩]]
  coinbase_isCoinBase := by decide
  others_not_coinBase := by decide

/-- An empty cache over the one coin at output 0 of `hashOf 9`. -/
def oneCoin (scriptPubKey : Bytes) : Cache :=
  ⟨Layer.empty, .base (fun o => if o = ⟨hashOf 9, 0⟩ then
    some ⟨paysFive scriptPubKey, false, 1⟩ else none) none⟩

def indexAt (height : Nat) : BlockRef := ⟨height, hashOf 8, hashOf 7⟩

end Sample

open Sample

theorem oneCoin_eq_some {scriptPubKey : Bytes} {coin : Coin}
    (h : (oneCoin scriptPubKey).view.map o = some coin) :
    coin.height = 1 ∧ coin.out.scriptPubKey = scriptPubKey := by
  simp only [oneCoin, Cache.view, View.map, Layer.above, Layer.empty, Option.elim] at h
  split at h
  · rw [← Option.some.inj h]
    exact ⟨rfl, rfl⟩
  · simp at h

/-- Undoing a block in which an output is created and spent. -/
theorem disconnectBlock_connectCoins_chained :
    ∃ undos c₁ c₂, connectCoins chained 2 (oneCoin []) = .ok (undos, c₁) ∧
      disconnectBlock chained (indexAt 2) (some undos) c₁ = .ok (.ok, c₂) ∧
      c₂.view.map = (oneCoin []).view.map ∧
      c₂.below.maps = (oneCoin []).below.maps := by
  refine disconnectBlock_connectCoins (oneCoin []) ⟨Layer.valid_empty _, trivial⟩
    (fun o coin hcoin => (oneCoin_eq_some hcoin).1.ge) chained (indexAt 2) (by decide)
    (fun _ _ o _ coin hcoin => ?_) (by decide +kernel)
  rw [(oneCoin_eq_some hcoin).2]
  decide

theorem updateCoins_of_haveInputs_oneCoin :
    let tx := pays (hashOf 2) [⟨hashOf 9, 0⟩]
    ∃ c', updateCoins tx (haveInputs (oneCoin []) tx).2 2 =
      .ok (recordOf (oneCoin []).view.map tx, c') := by
  intro tx
  have hvalid : (oneCoin []).view.Valid := ⟨Layer.valid_empty _, trivial⟩
  obtain ⟨-, -, hspend⟩ := updateCoins_of_haveInputs hvalid tx 2
  obtain ⟨c', hok, -⟩ := hspend (by decide +kernel) (by decide) (by decide +kernel)
  exact ⟨c', hok⟩

/-- A coin with an unspendable script is not put back, and nothing is reported: `AddCoin` ignores
it. -/
theorem disconnectBlock_drops_unspendable :
    (oneCoin [0x6a]).view.Valid ∧
      (∀ o coin, (oneCoin [0x6a]).view.map o = some coin → 1 ≤ coin.height) ∧
      BlockApplies 2 (oneCoin [0x6a]).view.map chained.vtx ∧
      ((do
        let (undos, c₁) ← connectCoins chained 2 (oneCoin [0x6a])
        let (res, c₂) ← disconnectBlock chained (indexAt 2) (some undos) c₁
        pure (res, c₂.peekCoin ⟨hashOf 9, 0⟩)) =
          .ok (.ok, none)) ∧
      (oneCoin [0x6a]).view.map ⟨hashOf 9, 0⟩ ≠ none :=
  ⟨⟨Layer.valid_empty _, trivial⟩, fun _ _ hcoin => (oneCoin_eq_some hcoin).1.ge,
    by decide +kernel, by decide +kernel, by decide +kernel⟩

end Soveroot.Coins
