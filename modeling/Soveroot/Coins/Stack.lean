import Soveroot.Coins.Refine

/-!
# Runs of a stack of coin caches

The calls a program makes on the top cache of a stack, and the same calls on plain maps: one map for
every view of the stack, of which the first is what the top shows. A stack grows by a new cache and
loses its top when that cache is destroyed, with whatever had not been flushed.

`stack_refines` runs both side by side from any base map.
-/

namespace Soveroot.Coins

open Py Check

inductive Op where
  | addCoin (o : OutPoint) (coin : Coin) (possibleOverwrite : Bool)
  | spendCoin (o : OutPoint)
  | getCoin (o : OutPoint)
  | accessCoin (o : OutPoint)
  | haveCoin (o : OutPoint)
  | peekCoin (o : OutPoint)
  | uncache (o : OutPoint)
  | sync
  | flush
  /-- A new cache on top. -/
  | push
  /-- The top cache is destroyed. -/
  | pop

inductive Answer where
  | nothing
  | coin (c : Option Coin)
  | have (b : Bool)
  deriving DecidableEq

def Cache.call (c : Cache) : Op → Except CoinsError (Answer × View)
  | .addCoin o coin possibleOverwrite => do
      pure (.nothing, (← c.addCoin o coin possibleOverwrite).view)
  | .spendCoin o => .ok (.coin (c.spendCoin o).1.2, (c.spendCoin o).2.view)
  | .getCoin o => .ok (.coin (c.getCoin o).1, (c.getCoin o).2.view)
  | .accessCoin o => .ok (.coin (c.accessCoin o).1, (c.accessCoin o).2.view)
  | .haveCoin o => .ok (.have (c.haveCoin o).1, (c.haveCoin o).2.view)
  | .peekCoin o => .ok (.coin (c.peekCoin o), c.view)
  | .uncache o => .ok (.nothing, (c.uncache o).view)
  | .sync => do pure (.nothing, (← c.sync).view)
  | .flush => do pure (.nothing, (← c.flush).view)
  | .push => .ok (.nothing, .cache .empty c.view)
  | .pop => .ok (.nothing, c.below)

/-- A call at the top of a stack; on the base there is only room for a cache. -/
def View.call : View → Op → Except CoinsError (Answer × View)
  | .cache l below, op => Cache.call ⟨l, below⟩ op
  | v, .push => .ok (.nothing, .cache .empty v)
  | v, _ => .ok (.nothing, v)

def View.run : View → List Op → Except CoinsError (List Answer × View)
  | v, [] => .ok ([], v)
  | v, op :: ops => do
      let (answer, v) ← v.call op
      let (answers, v) ← v.run ops
      pure (answer :: answers, v)

/-! ## The same on plain maps -/

/-- What a call does to the maps of the views, the top one first. -/
def specCall : List CoinMap → Op → Answer × List CoinMap
  | m :: ms, .addCoin o coin _ => (.nothing, Cache.addTo m o coin :: ms)
  | m :: ms, .spendCoin o => (.coin (m o), Function.update m o none :: ms)
  | m :: ms, .getCoin o => (.coin (m o), m :: ms)
  | m :: ms, .accessCoin o => (.coin (m o), m :: ms)
  | m :: ms, .haveCoin o => (.have (m o).isSome, m :: ms)
  | m :: ms, .peekCoin o => (.coin (m o), m :: ms)
  | m :: ms, .uncache _ => (.nothing, m :: ms)
  | m :: _ :: ms, .sync => (.nothing, m :: m :: ms)
  | m :: _ :: ms, .flush => (.nothing, m :: m :: ms)
  | m :: ms, .push => (.nothing, m :: m :: ms)
  | _ :: ms, .pop => (.nothing, ms)
  | ms, _ => (.nothing, ms)

def specRun : List CoinMap → List Op → List Answer × List CoinMap
  | ms, [] => ([], ms)
  | ms, op :: ops =>
    let (answer, ms) := specCall ms op
    let (answers, ms) := specRun ms ops
    (answer :: answers, ms)

/-- Which calls are permitted: there is a cache to call, and a coin is added as new only where the
view has no unspent coin. -/
def Permitted : List CoinMap → Op → Prop
  | _, .push => True
  | m :: _ :: _, .addCoin o _ possibleOverwrite => possibleOverwrite = false → m o = none
  | _ :: _ :: _, _ => True
  | _, _ => False

def PermittedRun : List CoinMap → List Op → Prop
  | _, [] => True
  | ms, op :: ops => Permitted ms op ∧ PermittedRun (specCall ms op).2 ops

/-! ## Refinement -/

/-- A view whose layers are valid and whose maps are `ms`. -/
structure View.Shows (v : View) (ms : List CoinMap) : Prop where
  valid : v.Valid
  maps : v.maps = ms

variable {m : CoinMap} {ms : List CoinMap} {c : Cache}

theorem Cache.Shows.toView (h : c.Shows m ms) : c.view.Shows (m :: ms) := ⟨h.valid, h.maps⟩

variable {v : View}

theorem View.Shows.push (h : v.Shows (m :: ms)) : (View.cache .empty v).Shows (m :: m :: ms) := by
  refine ⟨⟨Layer.valid_empty _, h.valid⟩, ?_⟩
  simp only [View.maps, h.maps, View.map_of_maps h.maps]
  rfl

variable {op : Op}

theorem Cache.Shows.call {mb : CoinMap} (h : c.Shows m (mb :: ms))
    (hop : Permitted (m :: mb :: ms) op) :
    ∃ v, c.call op = .ok ((specCall (m :: mb :: ms) op).1, v) ∧
      v.Shows (specCall (m :: mb :: ms) op).2 := by
  cases op with
  | addCoin o coin possibleOverwrite =>
    obtain ⟨c', hc', hshows⟩ := h.addCoin o coin possibleOverwrite fun hp _ => hop hp
    exact ⟨c'.view, by simp only [Cache.call, hc', ok_bind, pure_eq_ok, specCall], hshows.toView⟩
  | spendCoin o =>
    obtain ⟨hcoin, -, hshows⟩ := h.spendCoin o
    exact ⟨_, by simp only [Cache.call, hcoin, specCall], hshows.toView⟩
  | getCoin o =>
    obtain ⟨hcoin, hshows⟩ := h.getCoin o
    exact ⟨_, by simp only [Cache.call, hcoin, specCall], hshows.toView⟩
  | accessCoin o =>
    obtain ⟨hcoin, hshows⟩ := h.getCoin o
    exact ⟨_, by simp only [Cache.call, Cache.accessCoin, hcoin, specCall], hshows.toView⟩
  | haveCoin o =>
    obtain ⟨hhave, hshows⟩ := h.haveCoin o
    exact ⟨_, by simp only [Cache.call, hhave, specCall], hshows.toView⟩
  | peekCoin o => exact ⟨_, by simp only [Cache.call, h.peekCoin, specCall], h.toView⟩
  | uncache o => exact ⟨_, rfl, (h.uncache o).toView⟩
  | sync =>
    obtain ⟨c', hc', hshows⟩ := h.sync
    exact ⟨c'.view, by simp only [Cache.call, hc', ok_bind, pure_eq_ok, specCall], hshows.toView⟩
  | flush =>
    obtain ⟨c', hc', hshows⟩ := h.flush
    exact ⟨c'.view, by simp only [Cache.call, hc', ok_bind, pure_eq_ok, specCall], hshows.toView⟩
  | push => exact ⟨_, rfl, h.toView.push⟩
  | pop => exact ⟨_, rfl, h.valid.2, h.below⟩

theorem View.Shows.call (h : v.Shows ms) (hop : Permitted ms op) :
    ∃ v', v.call op = .ok ((specCall ms op).1, v') ∧ v'.Shows (specCall ms op).2 := by
  obtain ⟨hvalid, rfl⟩ := h
  cases v with
  | base coins best =>
    cases op with
    | push => exact ⟨_, rfl, View.Shows.push ⟨hvalid, rfl⟩⟩
    | _ => exact hop.elim
  | cache l below =>
    have hmaps := below.maps_eq_cons
    have hc : Cache.Shows ⟨l, below⟩ (l.above below.map) (below.map :: below.maps.tail) :=
      ⟨hvalid, congrArg (_ :: ·) hmaps⟩
    simp only [View.maps] at hop ⊢
    rw [hmaps] at hop ⊢
    exact hc.call hop

theorem View.Shows.run (h : v.Shows ms) {ops : List Op} (hops : PermittedRun ms ops) :
    ∃ v', v.run ops = .ok ((specRun ms ops).1, v') ∧ v'.Shows (specRun ms ops).2 := by
  induction ops generalizing v ms with
  | nil => exact ⟨v, rfl, h⟩
  | cons op ops ih =>
    obtain ⟨v₁, hcall, h₁⟩ := h.call hops.1
    obtain ⟨v₂, hrun, h₂⟩ := ih h₁ hops.2
    exact ⟨v₂, by simp only [View.run, hcall, ok_bind, hrun, pure_eq_ok, specRun], h₂⟩

/-- Every permitted sequence of calls, from any base, answers as the plain maps do and ends in views
that show them. No call throws, and every layer keeps its invariant. -/
theorem stack_refines (base : CoinMap) (best : Option Digest) (ops : List Op)
    (hops : PermittedRun [base] ops) :
    ∃ v, (View.base base best).run ops = .ok ((specRun [base] ops).1, v) ∧
      v.maps = (specRun [base] ops).2 ∧ v.Valid := by
  obtain ⟨v, hrun, h⟩ := View.Shows.run (v := .base base best) ⟨trivial, rfl⟩ hops
  exact ⟨v, hrun, h.maps, h.valid⟩

namespace Sample

def hash : Digest := .filled 0
def outPoint : OutPoint := ⟨hash, 0⟩
def coin : Coin := ⟨paysFive [], false, 1⟩

/-- A coin created in one cache, spent in a cache above it and flushed down. -/
def spentAbove : List Op :=
  [.push, .addCoin outPoint coin false, .push, .spendCoin outPoint, .flush, .pop,
    .haveCoin outPoint]

end Sample

/-- A coin spent two layers up is gone from the layer that created it. -/
theorem stack_refines_spentAbove :
    ∃ v, (View.base (fun _ => none) none).run Sample.spentAbove =
        .ok ((specRun [fun _ => none] Sample.spentAbove).1, v) ∧
      v.maps = (specRun [fun _ => none] Sample.spentAbove).2 ∧ v.Valid :=
  stack_refines _ _ _ (by simp [Sample.spentAbove, PermittedRun, Permitted, specCall])

end Soveroot.Coins
