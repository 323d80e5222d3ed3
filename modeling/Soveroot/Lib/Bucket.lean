import Mathlib.Tactic.Linarith
import Mathlib.Tactic.Ring
import Soveroot.Lib.Dict

/-!
# Token buckets

A bucket holds tokens up to a capacity and gains some with every tick; an action is granted when the
bucket covers its cost. Buckets are kept lazily: a key without a bucket counts as full, and a bucket
that has filled up may be thrown away.

What a table means is the `level` of each key: the tokens it may spend at a tick. The bound on what
a key can spend in a window (`Metered.spent_le`) needs nothing but a level that grows no faster than
the refill and pays for every grant.
-/

open Py

/-- The tokens of a bucket when it was last used. -/
structure Bucket where
  tokens : Int
  tick : Int
  deriving DecidableEq

namespace Bucket

open Option

/-- How much a bucket holds and how fast it fills. -/
structure Rate where
  capacity : Int
  refill : Int
  capacity_nonneg : 0 ≤ capacity
  refill_nonneg : 0 ≤ refill

variable {κ : Type} [DecidableEq κ] (rate : Rate)

/-- The tokens at a later tick, before the capacity cuts them off. -/
def refilled (b : Bucket) (tick : Int) : Int := b.tokens + max 0 (tick - b.tick) * rate.refill

/-- Spend from the bucket of `key`. A new key is not taken into a full table. -/
def consume (limit : Nat) (table : Dict κ Bucket) (key : κ) (tick cost : Int) :
    Option Bool × Dict κ Bucket :=
  if table.contains key = false ∧ limit ≤ table.size then (none, table)
  else
    let bucket := (table.get? key).getD ⟨rate.capacity, tick⟩
    let tokens := min rate.capacity (bucket.refilled rate tick)
    if tokens < cost then (some false, table.set key ⟨tokens, tick⟩)
    else (some true, table.set key ⟨tokens - cost, tick⟩)

def discard (table : Dict κ Bucket) (tick : Int) : Dict κ Bucket :=
  table.filter fun _ b => b.refilled rate tick < rate.capacity

/-- What a key may spend. -/
def level (table : Dict κ Bucket) (key : κ) (tick : Int) : Int :=
  (table.get? key).elim rate.capacity fun b => min rate.capacity (b.refilled rate tick)

/-- The buckets were last used before now and are not overdrawn. -/
def WellFormed (table : Dict κ Bucket) (now : Int) : Prop :=
  ∀ key b, table.get? key = some b → 0 ≤ b.tokens ∧ b.tokens ≤ rate.capacity ∧ b.tick ≤ now

/-! ## Refilling -/

section

variable {tick tick' : Int}

theorem gain_nonneg (h : tick ≤ tick') : 0 ≤ (tick' - tick) * rate.refill :=
  mul_nonneg (by omega) rate.refill_nonneg

variable {b : Bucket}

theorem refilled_of_le (h : b.tick ≤ tick) :
    b.refilled rate tick = b.tokens + (tick - b.tick) * rate.refill := by
  rw [refilled, max_eq_right (by omega)]

theorem refilled_mono (b : Bucket) (h : tick ≤ tick') :
    b.refilled rate tick ≤ b.refilled rate tick' := by
  have hle : max 0 (tick - b.tick) ≤ max 0 (tick' - b.tick) := by omega
  have hmul := mul_le_mul_of_nonneg_right hle rate.refill_nonneg
  unfold refilled
  linarith

theorem refilled_le_add (b : Bucket) (h : tick ≤ tick') :
    b.refilled rate tick' ≤ b.refilled rate tick + (tick' - tick) * rate.refill := by
  have hle : max 0 (tick' - b.tick) ≤ max 0 (tick - b.tick) + (tick' - tick) := by omega
  have hmul := mul_le_mul_of_nonneg_right hle rate.refill_nonneg
  unfold refilled
  linarith

theorem refilled_add (hb : b.tick ≤ tick) (h : tick ≤ tick') :
    b.refilled rate tick' = b.refilled rate tick + (tick' - tick) * rate.refill := by
  rw [refilled_of_le rate hb, refilled_of_le rate (hb.trans h)]
  ring

end

section

variable {rate} {table : Dict κ Bucket} {key : κ} {tick tick' now cost : Int} {limit : Nat}

theorem level_le : level rate table key tick ≤ rate.capacity := by
  unfold level
  cases table.get? key with
  | none => exact le_refl _
  | some b => exact min_le_left _ _

theorem level_le_add (h : tick ≤ tick') :
    level rate table key tick' ≤ level rate table key tick + (tick' - tick) * rate.refill := by
  have hgain := gain_nonneg rate h
  unfold level
  cases table.get? key with
  | none => simpa using hgain
  | some b =>
    have hle := refilled_le_add rate b h
    simp only [elim_some]
    omega

section

variable (hw : WellFormed rate table now)
include hw

theorem WellFormed.level_nonneg : 0 ≤ level rate table key tick := by
  have hcapacity := rate.capacity_nonneg
  unfold level
  cases hget : table.get? key with
  | none => exact hcapacity
  | some b =>
    have htokens := (hw key b hget).1
    have hgain : 0 ≤ max 0 (tick - b.tick) * rate.refill :=
      mul_nonneg (le_max_left _ _) rate.refill_nonneg
    simp only [elim_some, refilled]
    omega

/-! ## The operations -/

theorem WellFormed.mono (h : now ≤ tick) :
    WellFormed rate table tick := fun k b hget =>
  ⟨(hw k b hget).1, (hw k b hget).2.1, (hw k b hget).2.2.trans h⟩

theorem WellFormed.discard (tick : Int) :
    WellFormed rate (discard rate table tick) now := by
  intro k b hget
  rw [Bucket.discard, Dict.get?_filter, filter_eq_some_iff] at hget
  exact hw k b hget.1

end

theorem level_discard (h : tick ≤ tick') :
    level rate (discard rate table tick) key tick' = level rate table key tick' := by
  unfold level
  rw [discard, Dict.get?_filter]
  cases table.get? key with
  | none => rfl
  | some b =>
    have hle := refilled_mono rate b h
    by_cases hfull : b.refilled rate tick < rate.capacity
    · rw [filter_some, if_pos (by simpa using hfull)]
    · rw [filter_some, if_neg (by simpa using hfull)]
      simp only [elim_none, elim_some]
      omega

theorem level_eq (h : tick ≤ tick') :
    level rate table key tick' =
      min rate.capacity (((table.get? key).getD ⟨rate.capacity, tick⟩).refilled rate tick') := by
  unfold level
  cases table.get? key with
  | none =>
    have hgain := gain_nonneg rate h
    simp only [elim_none, getD_none]
    rw [refilled_of_le rate (by exact h)]
    dsimp only
    omega
  | some b => rfl

theorem consume_of_full (h : table.contains key = false ∧ limit ≤ table.size) :
    consume rate limit table key tick cost = (none, table) := if_pos h

section

variable (hroom : ¬ (table.contains key = false ∧ limit ≤ table.size))
include hroom

theorem consume_of_lt (h : level rate table key tick < cost) :
    consume rate limit table key tick cost =
      (some false, table.set key ⟨level rate table key tick, tick⟩) := by
  rw [level_eq (le_refl tick)] at h ⊢
  rw [consume, if_neg hroom]
  exact if_pos h

theorem consume_of_le (h : cost ≤ level rate table key tick) :
    consume rate limit table key tick cost =
      (some true, table.set key ⟨level rate table key tick - cost, tick⟩) := by
  rw [level_eq (le_refl tick)] at h ⊢
  rw [consume, if_neg hroom]
  exact if_neg (not_lt.2 h)

end

theorem consume_cases (rate : Rate) (limit : Nat) (table : Dict κ Bucket) (key : κ)
    (tick cost : Int) :
    consume rate limit table key tick cost = (none, table) ∨
    (level rate table key tick < cost ∧ consume rate limit table key tick cost =
      (some false, table.set key ⟨level rate table key tick, tick⟩)) ∨
    (cost ≤ level rate table key tick ∧ consume rate limit table key tick cost =
      (some true, table.set key ⟨level rate table key tick - cost, tick⟩)) := by
  by_cases hfull : table.contains key = false ∧ limit ≤ table.size
  · exact .inl (consume_of_full hfull)
  · by_cases hcost : level rate table key tick < cost
    · exact .inr (.inl ⟨hcost, consume_of_lt hfull hcost⟩)
    · exact .inr (.inr ⟨not_lt.1 hcost, consume_of_le hfull (not_lt.1 hcost)⟩)

variable {key' : κ}

theorem level_set_ne (h : key' ≠ key) (b : Bucket) :
    level rate (table.set key b) key' tick = level rate table key' tick := by
  rw [level, level, Dict.get?_set_of_ne _ h]

theorem level_set_self (b : Bucket) :
    level rate (table.set key b) key tick = min rate.capacity (b.refilled rate tick) := by
  rw [level, Dict.get?_set_self]
  rfl

theorem WellFormed.set (hw : WellFormed rate table tick) {tokens : Int} (h0 : 0 ≤ tokens)
    (h : tokens ≤ rate.capacity) : WellFormed rate (table.set key ⟨tokens, tick⟩) tick := by
  intro k b hget
  rw [Dict.get?_set] at hget
  split_ifs at hget with hk
  · obtain rfl := Option.some.inj hget
    exact ⟨h0, h, le_refl tick⟩
  · exact hw k b hget

theorem WellFormed.consume (hw : WellFormed rate table tick) (hcost : 0 ≤ cost) (limit : Nat)
    (key : κ) : WellFormed rate (Bucket.consume rate limit table key tick cost).2 tick := by
  have h0 : 0 ≤ level rate table key tick := hw.level_nonneg
  have hle : level rate table key tick ≤ rate.capacity := level_le
  obtain h | ⟨-, h⟩ | ⟨hpaid, h⟩ := consume_cases rate limit table key tick cost
  · rw [h]
    exact hw
  · rw [h]
    exact hw.set h0 hle
  · rw [h]
    exact hw.set (by omega) (by omega)

/-- `consume` touches the bucket of its key only. -/
theorem level_consume_ne (h : key' ≠ key) :
    level rate (consume rate limit table key tick cost).2 key' tick' =
      level rate table key' tick' := by
  obtain hc | ⟨-, hc⟩ | ⟨-, hc⟩ := consume_cases rate limit table key tick cost
  · rw [hc]
  · rw [hc, level_set_ne h]
  · rw [hc, level_set_ne h]

theorem level_set_level (rate : Rate) (table : Dict κ Bucket) (key : κ) (spent : Int)
    (h : tick ≤ tick') :
    level rate (table.set key ⟨level rate table key tick - spent, tick⟩) key tick' =
      min rate.capacity (level rate table key tick - spent + (tick' - tick) * rate.refill) := by
  rw [level_set_self, refilled_of_le rate (by exact h)]

theorem level_add (hw : WellFormed rate table tick) (h : tick ≤ tick') :
    level rate table key tick' =
      min rate.capacity (level rate table key tick + (tick' - tick) * rate.refill) := by
  have hgain := gain_nonneg rate h
  unfold level
  cases hget : table.get? key with
  | none =>
    simp only [elim_none]
    omega
  | some b =>
    have hadd := refilled_add rate (hw key b hget).2.2 h
    simp only [elim_some]
    omega

theorem level_consume_of_not_granted (hw : WellFormed rate table tick)
    (hgrant : (consume rate limit table key tick cost).1 ≠ some true) (h : tick ≤ tick') :
    level rate (consume rate limit table key tick cost).2 key tick' =
      level rate table key tick' := by
  obtain hc | ⟨-, hc⟩ | ⟨-, hc⟩ := consume_cases rate limit table key tick cost
  · rw [hc]
  · have hset := level_set_level rate table key 0 h
    rw [sub_zero] at hset
    rw [hc, hset, ← level_add hw h]
  · rw [hc] at hgrant
    exact absurd rfl hgrant

theorem level_consume_of_granted
    (hgrant : (consume rate limit table key tick cost).1 = some true) (h : tick ≤ tick') :
    level rate (consume rate limit table key tick cost).2 key tick' =
      min rate.capacity (level rate table key tick - cost + (tick' - tick) * rate.refill) := by
  obtain hc | ⟨-, hc⟩ | ⟨hpaid, hc⟩ := consume_cases rate limit table key tick cost
  · rw [hc] at hgrant
    cases hgrant
  · rw [hc] at hgrant
    cases hgrant
  · rw [hc]
    exact level_set_level rate table key cost h

end

/-! ## Spending in a window -/

/-- A run of grants, each with its tick and its cost, paid for out of a credit. -/
inductive Metered {σ : Type} (credit : σ → Int → Int) : Int → σ → List (Int × Int) → Prop where
  | nil {now : Int} {s : σ} (nonneg : ∀ t, now ≤ t → 0 ≤ credit s t) : Metered credit now s []
  | cons {now tick cost : Int} {s s' : σ} {rest : List (Int × Int)}
      (nonneg : ∀ t, now ≤ t → 0 ≤ credit s t) (le : now ≤ tick)
      (later : ∀ t, tick ≤ t → credit s' t ≤ credit s t)
      (paid : credit s' tick + cost ≤ credit s tick) (tail : Metered credit tick s' rest) :
      Metered credit now s ((tick, cost) :: rest)

/-- What is spent from tick `t₀` to tick `t₁`. -/
def spent (t₀ t₁ : Int) (charges : List (Int × Int)) : Int :=
  ((charges.filter fun c => t₀ ≤ c.1 ∧ c.1 ≤ t₁).map Prod.snd).sum

namespace Metered

variable {rate} {σ : Type} {credit : σ → Int → Int} {now t₀ t₁ : Int} {s : σ}
  {charges : List (Int × Int)}

/-- A state with no less credit pays for the run as well. -/
theorem of_later {now' : Int} {s' : σ} (h : Metered credit now' s' charges) (hle : now ≤ now')
    (hlater : ∀ t, now' ≤ t → credit s' t ≤ credit s t) (hnonneg : ∀ t, now ≤ t → 0 ≤ credit s t) :
    Metered credit now s charges := by
  cases h with
  | nil _ => exact .nil hnonneg
  | cons _ le later paid tail =>
    exact .cons hnonneg (hle.trans le) (fun t ht => (later t ht).trans (hlater t (le.trans ht)))
      (paid.trans (hlater _ le)) tail

theorem spent_cons (tick cost : Int) : spent t₀ t₁ ((tick, cost) :: charges) =
    (if t₀ ≤ tick ∧ tick ≤ t₁ then cost else 0) + spent t₀ t₁ charges := by
  unfold spent
  by_cases h : t₀ ≤ tick ∧ tick ≤ t₁
  · rw [List.filter_cons_of_pos (by simpa using h), if_pos h]
    rfl
  · rw [List.filter_cons_of_neg (by simpa using h), if_neg h, zero_add]

theorem spent_of_lt (h : Metered credit now s charges) (hlt : t₁ < now) :
    spent t₀ t₁ charges = 0 := by
  induction h with
  | nil _ => rfl
  | cons _ le _ _ _ ih =>
    rw [spent_cons, if_neg (by omega), ih (by omega), add_zero]

variable (hgrow : ∀ s t t', t ≤ t' → credit s t' ≤ credit s t + (t' - t) * rate.refill)
include hgrow

/-- What is spent until `t₁` was there at the start of the window or has come in since. -/
theorem spent_le_credit (h : Metered credit now s charges) (hle : max now t₀ ≤ t₁) :
    spent t₀ t₁ charges ≤ credit s (max now t₀) + (t₁ - max now t₀) * rate.refill := by
  induction h with
  | nil nonneg =>
    have h0 := nonneg _ (le_max_left _ t₀)
    have hgain := gain_nonneg rate hle
    exact add_nonneg h0 hgain
  | @cons now tick cost s s' rest nonneg le later paid tail ih =>
    have h0 := nonneg _ (le_max_left _ t₀)
    have hgain := gain_nonneg rate hle
    rw [spent_cons]
    rcases lt_or_ge t₁ tick with hlate | htick
    · -- the window is over
      rw [if_neg (by omega), tail.spent_of_lt hlate]
      linarith
    have hrest := ih (max_le htick ((le_max_right _ _).trans hle))
    rcases lt_or_ge tick t₀ with hearly | hinside
    · -- it has not begun: the credit at its start only shrinks
      rw [if_neg (by omega)]
      rw [max_eq_right hearly.le] at hrest
      rw [max_eq_right (le.trans hearly.le)]
      have hlater := later t₀ hearly.le
      linarith
    · rw [if_pos ⟨hinside, htick⟩]
      rw [max_eq_left hinside] at hrest
      have hgrown := hgrow s (max now t₀) tick (max_le le hinside)
      linarith

theorem spent_le (hcapacity : ∀ s t, credit s t ≤ rate.capacity) (h : Metered credit now s charges)
    (hle : t₀ ≤ t₁) : spent t₀ t₁ charges ≤ rate.capacity + (t₁ - t₀) * rate.refill := by
  have hgain := gain_nonneg rate hle
  have hcap := rate.capacity_nonneg
  rcases lt_or_ge t₁ now with hlate | hnow
  · rw [h.spent_of_lt hlate]
    linarith
  · have hspent := spent_le_credit hgrow h (max_le hnow hle)
    have hfull := hcapacity s (max now t₀)
    have hless := gain_nonneg rate (le_max_right now t₀)
    linarith

end Metered

end Bucket
