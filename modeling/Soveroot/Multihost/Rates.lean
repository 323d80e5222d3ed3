import Soveroot.Multihost.Methods

/-!
# Rate limits

What an identity can have admitted in a window of ticks, and what a source network can: the
capacity of a bucket and the refill of the window.

A controller gives every key of a bucket family a level, the tokens it may spend
(`Controller.level`). A method moves the clock forward, never raises a level above what the refill
makes of it, and takes the cost of what it admits out of the level of its key (`Spent`). A
controller that keeps all its buckets gives every key the same level, so it decides the same until
its table is full.
-/

namespace Soveroot.Multihost

open Py Check Stateful Bucket List

/-! ## What a method does to the levels -/

/-- The tokens a key may spend. -/
def Controller.level (c : Controller) (family : Family) (key : Text) (tick : Int) : Int :=
  Bucket.level family.rate (c.table family) key tick

/-- The state during a method that began in `c₀` and has moved the clock to `tick`; the cost of what
it has let pass so far is `paid`. -/
structure Spent (c₀ : Controller) (tick : Int) (paid : Family → Text → Int) (c : Controller) :
    Prop where
  tick_eq : c.tick = tick
  tick_le : c₀.tick ≤ tick
  wellFormed : ∀ family, WellFormed family.rate (c.table family) tick
  later : ∀ family key t, tick ≤ t → c.level family key t ≤ c₀.level family key t
  paid_le : ∀ family key, c.level family key tick + paid family key ≤ c₀.level family key tick

/-- A state after a method that began in `c₀`, however it ended. -/
structure Later (c₀ c : Controller) : Prop where
  tick_le : c₀.tick ≤ c.tick
  wellFormed : ∀ family, WellFormed family.rate (c.table family) c.tick
  level_le : ∀ family key t, c.tick ≤ t → c.level family key t ≤ c₀.level family key t

/-- A state whose buckets are in order. -/
def Controller.InOrder (c : Controller) : Prop :=
  ∀ family, WellFormed family.rate (c.table family) c.tick

variable {c₀ c : Controller} {tick : Int} {paid : Family → Text → Int}

section

variable (c : Controller)

theorem Controller.table_advanced (family : Family) (tick : Int) :
    (c.advanced Bucket.discard tick).table family = discard family.rate (c.table family) tick := by
  cases family <;> rfl

theorem Controller.table_setTable_self (family : Family) (table : Dict Text Bucket) :
    (c.setTable family table).table family = table := by
  cases family <;> rfl

variable {family : Family}

theorem Controller.table_setTable_ne {family' : Family} (h : family' ≠ family)
    (table : Dict Text Bucket) : (c.setTable family table).table family' = c.table family' := by
  cases family <;> cases family' <;> first | exact absurd rfl h | rfl

theorem Controller.tick_setTable (family : Family) (table : Dict Text Bucket) :
    (c.setTable family table).tick = c.tick := by
  cases family <;> rfl

end

variable {c' : Controller}

section

variable (h : Spent c₀ tick paid c)
include h

theorem Spent.of_tables (htick : c'.tick = c.tick)
    (htable : ∀ family, c'.table family = c.table family) : Spent c₀ tick paid c' := by
  have hlevel : ∀ family key t, c'.level family key t = c.level family key t := by
    intro family key t
    rw [Controller.level, htable, Controller.level]
  refine ⟨htick.trans h.tick_eq, h.tick_le, fun family => ?_, fun family key t ht => ?_,
    fun family key => ?_⟩
  · rw [htable]
    exact h.wellFormed family
  · rw [hlevel]
    exact h.later family key t ht
  · rw [hlevel]
    exact h.paid_le family key

theorem Spent.rejected (rejections : Dict Text Int) :
    Spent c₀ tick paid { c with rejections := rejections } :=
  h.of_tables rfl fun f => by cases f <;> rfl

theorem Spent.later' : Later c₀ c := by
  obtain ⟨rfl, htick, hw, hlater, -⟩ := h
  exact ⟨htick, hw, hlater⟩

end

def charge (family : Family) (key : Text) (cost : Int) : Family → Text → Int := fun f k =>
  if f = family ∧ k = key then cost else 0

theorem charge_self (family : Family) (key : Text) (cost : Int) :
    charge family key cost family key = cost := if_pos ⟨rfl, rfl⟩

variable {key : Text} {cost : Int}

theorem charge_of_ne {f : Family} {k : Text} (h : ¬ (f = family ∧ k = key)) :
    charge family key cost f k = 0 := if_neg h

theorem spent_advanced (hc : c.InOrder) (h : c.tick ≤ tick) :
    Spent c tick (fun _ _ => 0) (c.advanced Bucket.discard tick) := by
  have hlevel : ∀ family key t, tick ≤ t →
      (c.advanced Bucket.discard tick).level family key t = c.level family key t := by
    intro family key t ht
    rw [Controller.level, Controller.table_advanced, Bucket.level_discard ht, Controller.level]
  refine ⟨rfl, h, fun family => ?_, fun family key t ht => (hlevel family key t ht).le,
    fun family key => ?_⟩
  · rw [Controller.table_advanced]
    exact ((hc family).mono h).discard tick
  · rw [hlevel family key tick (le_refl tick), add_zero]

/-- `_consume` takes the cost of a grant out of its key's level and leaves the others alone. -/
theorem Spent.consumed (h : Spent c₀ tick paid c) (hcost : 0 ≤ cost) (granted : Option Bool)
    (hgranted : (Bucket.consume family.rate maxAdmissionBuckets (c.table family) key tick cost).1 =
      granted) :
    Spent c₀ tick (fun f k => paid f k + if granted = some true then
      charge family key cost f k else 0)
      (c.setTable family
        (Bucket.consume family.rate maxAdmissionBuckets (c.table family) key tick cost).2) := by
  have hw := h.wellFormed family
  refine ⟨(c.tick_setTable _ _).trans h.tick_eq, h.tick_le, fun f => ?_, fun f k t ht => ?_,
    fun f k => ?_⟩
  · by_cases hf : f = family
    · subst hf
      rw [Controller.table_setTable_self]
      exact hw.consume hcost _ _
    · rw [Controller.table_setTable_ne _ hf]
      exact h.wellFormed f
  · refine le_trans ?_ (h.later f k t ht)
    by_cases hf : f = family
    · subst hf
      rw [Controller.level, Controller.table_setTable_self, Controller.level]
      by_cases hk : k = key
      · subst hk
        by_cases hgrant : granted = some true
        · rw [level_consume_of_granted (hgranted.trans hgrant) ht, level_add hw ht]
          omega
        · rw [level_consume_of_not_granted hw (hgranted ▸ hgrant) ht]
      · rw [level_consume_ne hk]
    · rw [Controller.level, Controller.table_setTable_ne _ hf, Controller.level]
  · refine le_trans ?_ (h.paid_le f k)
    by_cases hf : f = family
    · subst hf
      rw [Controller.level, Controller.table_setTable_self, Controller.level]
      by_cases hk : k = key
      · subst hk
        by_cases hgrant : granted = some true
        · rw [level_consume_of_granted (hgranted.trans hgrant) (le_refl tick), if_pos hgrant,
            charge_self]
          omega
        · rw [level_consume_of_not_granted hw (hgranted ▸ hgrant) (le_refl tick), if_neg hgrant,
            add_zero]
      · rw [level_consume_ne hk, charge_of_ne fun hfk => hk hfk.2, ite_self, add_zero]
    · rw [Controller.level, Controller.table_setTable_ne _ hf, Controller.level,
        charge_of_ne fun hfk => hf hfk.1, ite_self, add_zero]

/-! ## The methods -/

theorem checked_spent (c₀ : Controller) (tick : Int) (paid : Family → Text → Int) :
    Checked (Spent c₀ tick paid) fun _ => Later c₀ :=
  ⟨fun _ hc _ _ _ => (hc.rejected _).later', fun _ hc _ => hc.later'⟩

theorem Later.of_tables (hc : c₀.InOrder) (htick : c.tick = c₀.tick)
    (htable : ∀ family, c.table family = c₀.table family) : Later c₀ c := by
  refine ⟨htick.ge, fun family => ?_, fun family key t _ => ?_⟩
  · rw [htable, htick]
    exact hc family
  · rw [Controller.level, htable, Controller.level]

theorem ensures_advance (hc : c₀.InOrder) (tick : Int) :
    Ensures (· = c₀) (advanceWith Bucket.discard tick) (fun _ => Spent c₀ tick fun _ _ => 0)
      fun _ => Later c₀ := by
  refine ensures_advanceWith (fun c hcc detail => ?_) fun c hcc htick => ?_
  · subst hcc
    exact .of_tables hc rfl fun f => by cases f <;> rfl
  · subst hcc
    exact spent_advanced hc htick

variable {reason : String}

theorem ensures_pay (c₀ : Controller) (tick : Int) (paid : Family → Text → Int) (family : Family)
    (key : Text) (hcost : 0 ≤ cost) (full : String) (hreason : reason ∈ reasons) (detail : String) :
    Ensures (Spent c₀ tick paid)
      (pay family key tick cost full reason detail)
      (fun _ => Spent c₀ tick fun f k => paid f k + charge family key cost f k)
      fun _ => Later c₀ := by
  refine (Checked.ensures_pay (R := fun result => Spent c₀ tick fun f k =>
    paid f k + if result = some true then charge family key cost f k else 0)
    (fun _ => checked_spent _ _ _) full hreason detail fun c h => h.consumed hcost _ rfl).imp
    (fun _ h => h) (fun _ c h => ?_) fun _ _ h => h
  simpa only [if_true] using h

theorem ensures_admitHandshake (hc : c₀.InOrder) (peerId sourceIp : Text) (nonceHex : Json)
    (tick : Int) :
    Ensures (· = c₀) (admitHandshakeWith Bucket.discard peerId sourceIp nonceHex tick)
      (fun network => Spent c₀ tick fun f k => 0 + charge .handshake (identityKey peerId) 1 f k +
        charge .handshake (networkKey network) 1 f k)
      fun _ => Later c₀ := by
  refine (ensures_advance hc tick).bind fun _ => ?_
  have hchecked := checked_spent c₀ tick fun _ _ => 0
  refine (hchecked.ensures_check _).bind fun _ => ?_
  refine ((hchecked.mono fun _ h => h.1).ensures_check _).bind fun nonce => ?_
  refine ((hchecked.mono fun _ h => h.1.1).ensures_check _).bind fun network => ?_
  refine ((hchecked.mono fun _ h => h.1.1.1).ensures_screen _ _ _).bind fun _ => ?_
  refine Ensures.imp ?_ (fun _ h => h.1.1.1.1) (fun _ _ h => h) fun _ _ h => h
  refine (ensures_pay _ _ _ .handshake _ Int.one_nonneg _ (by decide) _).bind fun _ => ?_
  refine (ensures_pay _ _ _ .handshake _ Int.one_nonneg _ (by decide) _).bind fun _ => ?_
  refine ((checked_spent _ _ _).ensures_screenSessions _ _).bind fun _ => ?_
  refine Ensures.bind (.update fun c h => ?_) fun _ => .pure fun _ h => h
  exact h.1.of_tables rfl fun f => by cases f <;> rfl

theorem cost_nonneg {frameBytes : Int} (h : ¬ (frameBytes < 1 ∨ maxFrameBytes < frameBytes)) :
    0 ≤ 1 + (frameBytes - 1) / 4096 := by
  omega

theorem ensures_admitMessage (hc : c₀.InOrder) (peerId : Text) (frameBytes tick : Int) :
    Ensures (· = c₀) (admitMessageWith Bucket.discard peerId frameBytes tick)
      (fun cost => Spent c₀ tick fun f k => 0 + charge .message peerId cost f k)
      fun _ => Later c₀ := by
  refine (ensures_advance hc tick).bind fun _ => ?_
  refine ((checked_spent _ _ _).ensures_rejectIf _ (by decide) _).bind fun _ => ?_
  by_cases hsize : frameBytes < 1 ∨ maxFrameBytes < frameBytes
  · exact fun c h => absurd hsize h.2
  · refine Ensures.imp ?_ (fun _ h => h.1) (fun _ _ h => h) fun _ _ h => h
    refine (ensures_pay _ _ _ .message peerId (cost_nonneg hsize) _ (by decide) _).bind fun _ => ?_
    exact .pure fun _ h => h

theorem ensures_quarantine (hc : c₀.InOrder) (peerId : Text) (tick : Int) :
    Ensures (· = c₀) (quarantineWith Bucket.discard peerId tick) (fun _ => Later c₀)
      fun _ => Later c₀ := by
  refine (ensures_advance hc tick).bind fun _ => ?_
  refine Ensures.bind (.read fun _ h => h) fun _ => ?_
  refine ((checked_spent _ _ _).ensures_rejectIf _ (by decide) _).bind fun _ => ?_
  refine .update fun c h => ?_
  have hset : Spent c₀ tick (fun _ _ => 0)
      { c with quarantines := c.quarantines.set peerId (tick + quarantineTicks) } :=
    h.1.of_tables rfl fun f => by cases f <;> rfl
  exact hset.later'

theorem ensures_closeSession (hc : c₀.InOrder) (peerId sourceIp : Text) :
    Ensures (· = c₀) (closeSession peerId sourceIp) (fun _ => Later c₀) fun _ => Later c₀ := by
  refine Ensures.bind (Q := fun _ c => c = c₀) (.check (fun _ _ _ h => h) fun _ c h =>
    ?_) fun _ => ?_
  · subst h
    exact .of_tables hc rfl fun _ => rfl
  · refine .update fun c h => ?_
    subst h
    exact .of_tables hc rfl fun f => by cases f <;> rfl

/-! ## Runs -/

def charged (family : Family) (key : Text) : Op × Except SafetyError Grant → Option (Int × Int)
  | (.message peerId _ tick, .ok (.cost cost)) =>
    if family = .message ∧ peerId = key then some (tick, cost) else none
  | (.handshake peerId _ _ tick, .ok (.network network)) =>
    if family = .handshake ∧ (identityKey peerId = key ∨ networkKey network = key) then
      some (tick, 1)
    else none
  | _ => none

theorem identityKey_ne_networkKey (peerId network : Text) :
    identityKey peerId ≠ networkKey network := by
  intro h
  have hhead := congrArg head? h
  cases hhead

theorem identityKey_injective : Function.Injective identityKey := fun _ _ h =>
  append_cancel_left h

theorem networkKey_injective : Function.Injective networkKey := fun _ _ h =>
  append_cancel_left h

/-- What a call has charged is gone from the level of the key. -/
def Charges (c : Controller) (op : Op) (grant : Grant) (c' : Controller) : Prop :=
  ∀ family key tick cost, charged family key (op, .ok grant) = some (tick, cost) →
    c'.tick = tick ∧ c'.level family key tick + cost ≤ c.level family key tick

theorem ensures_perform (hc : c₀.InOrder) (op : Op) :
    Ensures (· = c₀) (perform op) (fun grant c => Later c₀ c ∧ Charges c₀ op grant c)
      fun _ => Later c₀ := by
  cases op with
  | handshake peerId sourceIp nonceHex tick =>
    refine (ensures_admitHandshake hc peerId sourceIp nonceHex tick).bind fun network => ?_
    refine .pure fun c h => ⟨h.later', fun family key t cost hcharged => ?_⟩
    simp only [charged, Option.ite_none_right_eq_some, Option.some.injEq, Prod.mk.injEq] at hcharged
    obtain ⟨⟨rfl, hkey⟩, rfl, rfl⟩ := hcharged
    refine ⟨h.tick_eq, ?_⟩
    have hpaid := h.paid_le .handshake key
    rcases hkey with rfl | rfl
    · rwa [charge_self, charge_of_ne fun hk => identityKey_ne_networkKey _ _ hk.2, zero_add,
        add_zero] at hpaid
    · rwa [charge_self, charge_of_ne fun hk => (identityKey_ne_networkKey _ _).symm hk.2, zero_add,
        zero_add] at hpaid
  | close peerId sourceIp =>
    refine (ensures_closeSession hc peerId sourceIp).bind fun _ => ?_
    exact .pure fun c h => ⟨h, fun family key t cost hcharged => by cases hcharged⟩
  | message peerId frameBytes tick =>
    refine (ensures_admitMessage hc peerId frameBytes tick).bind fun cost => ?_
    refine .pure fun c h => ⟨h.later', fun family key t cost hcharged => ?_⟩
    simp only [charged, Option.ite_none_right_eq_some, Option.some.injEq, Prod.mk.injEq] at hcharged
    obtain ⟨⟨rfl, rfl⟩, rfl, rfl⟩ := hcharged
    have hpaid := h.paid_le .message peerId
    rw [charge_self, zero_add] at hpaid
    exact ⟨h.tick_eq, hpaid⟩
  | quarantine peerId tick =>
    refine (ensures_quarantine hc peerId tick).bind fun _ => ?_
    exact .pure fun c h => ⟨h, fun family key t cost hcharged => by cases hcharged⟩

theorem perform_later (hc : c.InOrder) (op : Op) : Later c (perform op c).2 := by
  have h := ensures_perform hc op c rfl
  match hperform : perform op c with
  | (.ok grant, c') =>
    rw [hperform] at h
    exact h.1
  | (.error e, c') =>
    rw [hperform] at h
    exact h

theorem perform_charges (hc : c.InOrder) {op : Op} {charge : Int × Int}
    (h : charged family key (op, (perform op c).1) = some charge) :
    (perform op c).2.tick = charge.1 ∧
      (perform op c).2.level family key charge.1 + charge.2 ≤ c.level family key charge.1 := by
  have hensures := ensures_perform hc op c rfl
  match hperform : perform op c with
  | (.ok grant, c') =>
    rw [hperform] at hensures h
    exact hensures.2 family key charge.1 charge.2 h
  | (.error e, c') =>
    rw [hperform] at h
    cases op <;> cases h

/-- What a run has cost a key. -/
def charges (family : Family) (key : Text) (ops : List Op) (c : Controller) : List (Int × Int) :=
  (trace ops c).filterMap (charged family key)

theorem metered_charges (family : Family) (key : Text) (ops : List Op) {c : Controller}
    (hc : c.InOrder) :
    Metered (fun c => c.level family key) c.tick c (charges family key ops c) := by
  have hnonneg : ∀ {c : Controller}, c.InOrder → ∀ t, c.tick ≤ t → 0 ≤ c.level family key t :=
    fun hc t _ => (hc family).level_nonneg
  induction ops generalizing c with
  | nil => exact .nil (hnonneg hc)
  | cons op ops ih =>
    have hlater := perform_later hc op
    have htail := ih hlater.wellFormed
    have hcons : charges family key (op :: ops) c =
        (charged family key (op, (perform op c).1)).toList ++
          charges family key ops (perform op c).2 := by
      unfold charges trace
      rw [traceWith, filterMap_cons]
      cases hcharge : charged family key (op, (performWith Bucket.discard op c).1) <;>
        simp [perform, hcharge]
    rw [hcons]
    cases hcharge : charged family key (op, (perform op c).1) with
    | none => exact htail.of_later hlater.tick_le (hlater.level_le family key) (hnonneg hc)
    | some charge =>
      obtain ⟨htick, hpaid⟩ := perform_charges hc hcharge
      have hlevel := hlater.level_le family key
      rw [htick] at htail hlevel
      exact .cons (hnonneg hc) (htick ▸ hlater.tick_le) hlevel hpaid htail

/-! ## Keeping all buckets -/

def keepAll : Sweep := fun _ table _ => table

/-- Two tables that give every key the same level; the second has all keys of the first. -/
structure TableAlike (rate : Rate) (now : Int) (t u : Dict Text Bucket) : Prop where
  left : WellFormed rate t now
  right : WellFormed rate u now
  level_eq : ∀ key tick, now ≤ tick → Bucket.level rate t key tick = Bucket.level rate u key tick
  subset : ∀ key ∈ t.keys, key ∈ u.keys
  size_le : u.size ≤ maxAdmissionBuckets

/-- A controller that discards and one that has kept its buckets. -/
structure Alike (c d : Controller) : Prop where
  tick : c.tick = d.tick
  replayNonces : c.replayNonces = d.replayNonces
  quarantines : c.quarantines = d.quarantines
  activeIdentity : c.activeIdentity = d.activeIdentity
  activePrefix : c.activePrefix = d.activePrefix
  rejections : c.rejections = d.rejections
  tables : ∀ family, TableAlike family.rate c.tick (c.table family) (d.table family)

/-- The rejection of a full table. -/
def IsBucketLimit (e : SafetyError) : Prop := e.reason = "admission_bucket_limit"

namespace TableAlike

variable {rate : Rate} {now tick : Int} {t u : Dict Text Bucket} {key : Text}

variable (h : TableAlike rate now t u)
include h

theorem discard (hle : now ≤ tick) :
    TableAlike rate tick (Bucket.discard rate t tick) u := by
  refine ⟨(h.left.mono hle).discard tick, h.right.mono hle, fun k s hs => ?_, fun k hk => ?_,
    h.size_le⟩
  · rw [level_discard hs, h.level_eq k s (hle.trans hs)]
  · refine h.subset k ?_
    obtain ⟨e, he, rfl⟩ := mem_map.1 hk
    exact mem_map_of_mem (mem_of_mem_filter he)

section

variable (hroom : ¬ (u.contains key = false ∧ maxAdmissionBuckets ≤ u.size))
include hroom

theorem room :
    ¬ (t.contains key = false ∧ maxAdmissionBuckets ≤ t.size) := by
  rintro ⟨hkey, hfull⟩
  have hkey' : key ∉ t.keys := Dict.contains_eq_false_iff.1 hkey
  have hsize := h.size_le
  have hset : (t.set key ⟨0, 0⟩).size = t.size + 1 := by rw [Dict.size_set, if_neg hkey']
  by_cases hu : key ∈ u.keys
  · -- with `key` the smaller table is still inside the larger one
    have hle : (t.set key ⟨0, 0⟩).size ≤ u.size := Dict.size_le_of_subset fun k hk => by
      rcases Dict.mem_keys_set.1 hk with rfl | hk
      · exact hu
      · exact h.subset k hk
    omega
  · have hle : t.size ≤ u.size := Dict.size_le_of_subset h.subset
    exact hroom ⟨Dict.contains_eq_false_iff.2 hu, hfull.trans hle⟩

theorem set {tokens : Int}
    (h0 : 0 ≤ tokens) (hle : tokens ≤ rate.capacity) :
    TableAlike rate now (t.set key ⟨tokens, now⟩) (u.set key ⟨tokens, now⟩) := by
  refine ⟨h.left.set h0 hle, h.right.set h0 hle, fun k s hs => ?_, fun k hk => ?_, ?_⟩
  · by_cases hk : k = key
    · rw [hk, level_set_self, level_set_self]
    · rw [level_set_ne hk, level_set_ne hk, h.level_eq k s hs]
  · rcases Dict.mem_keys_set.1 hk with rfl | hk
    · exact Dict.mem_keys_set.2 (.inl rfl)
    · exact Dict.mem_keys_set.2 (.inr (h.subset k hk))
  · have hsize := h.size_le
    rw [Dict.size_set]
    split_ifs with hk
    · exact hsize
    · have hlt : ¬ maxAdmissionBuckets ≤ u.size := fun hfull =>
        hroom ⟨Dict.contains_eq_false_iff.2 hk, hfull⟩
      omega

end

/-- Both tables grant or refuse, unless the larger one is full. -/
theorem consume {cost : Int} (hcost : 0 ≤ cost)
    (hroom : ¬ (u.contains key = false ∧ maxAdmissionBuckets ≤ u.size)) :
    (Bucket.consume rate maxAdmissionBuckets t key now cost).1 =
        (Bucket.consume rate maxAdmissionBuckets u key now cost).1 ∧
      (Bucket.consume rate maxAdmissionBuckets u key now cost).1 ≠ none ∧
      TableAlike rate now (Bucket.consume rate maxAdmissionBuckets t key now cost).2
        (Bucket.consume rate maxAdmissionBuckets u key now cost).2 := by
  have hlevel := h.level_eq key now (le_refl now)
  have h0 : 0 ≤ Bucket.level rate u key now := h.right.level_nonneg
  have hle : Bucket.level rate u key now ≤ rate.capacity := level_le
  by_cases hpaid : Bucket.level rate u key now < cost
  · rw [consume_of_lt (h.room hroom) (hlevel ▸ hpaid), consume_of_lt hroom hpaid, hlevel]
    exact ⟨rfl, Option.some_ne_none _, h.set hroom h0 hle⟩
  · rw [not_lt] at hpaid
    rw [consume_of_le (h.room hroom) (hlevel ▸ hpaid), consume_of_le hroom hpaid, hlevel]
    exact ⟨rfl, Option.some_ne_none _, h.set hroom (by omega) (by omega)⟩

end TableAlike

/-- Alike, during a method at a tick. -/
def AlikeAt (tick : Int) (c d : Controller) : Prop := Alike c d ∧ c.tick = tick

variable {d : Controller}

theorem Alike.rejected {c : Controller} (h : Alike c d) (reason : String) :
    Alike { c with rejections := bump c.rejections (ascii reason) }
      { d with rejections := bump d.rejections (ascii reason) } := by
  refine ⟨h.tick, h.replayNonces, h.quarantines, h.activeIdentity, h.activePrefix, ?_, fun f => ?_⟩
  · exact congrArg (bump · (ascii reason)) h.rejections
  · cases f
    · exact h.tables .handshake
    · exact h.tables .message

variable {R : Controller → Controller → Prop}

section

variable (hR : ∀ c d reason, R c d → R { c with rejections := bump c.rejections (ascii reason) }
  { d with rejections := bump d.rejections (ascii reason) })
include hR

theorem agree_rejectIf (excuse : SafetyError → Prop)
    (condition : Prop) [Decidable condition] (reason detail : String) :
    Agree excuse R (rejectIf condition reason detail) (rejectIf condition reason detail) := by
  unfold rejectIf
  by_cases hc : condition
  · rw [if_pos hc]
    exact (Agree.update fun c d h => hR c d reason h).bind fun _ => .raise _
  · rw [if_neg hc]
    exact .pure ()

variable {α : Type} {excuse : SafetyError → Prop}

theorem agree_rejectIf_bind {condition : Prop}
    [Decidable condition] {detail : String} {f g : Unit → Method α}
    (h : ¬ condition → Agree excuse R (f ()) (g ())) :
    Agree excuse R (rejectIf condition reason detail >>= f)
    (rejectIf condition reason detail >>= g) := by
  by_cases hc : condition
  · intro c d hcd
    have hreject : ∀ c : Controller, rejectIf condition reason detail c = (.error ⟨reason, detail⟩,
        { c with rejections := bump c.rejections (ascii reason) }) := by
      intro c
      rw [rejectIf, if_pos hc]
      rfl
    rw [bind_apply, bind_apply, hreject, hreject]
    exact .inr ⟨rfl, hR c d reason hcd⟩
  · exact (agree_rejectIf hR _ _ _ _).bind fun _ => h hc

end

theorem alikeAt_rejected {tick : Int} (c d : Controller) (reason : String) (h : AlikeAt tick c d) :
    AlikeAt tick { c with rejections := bump c.rejections (ascii reason) }
      { d with rejections := bump d.rejections (ascii reason) } :=
  ⟨h.1.rejected reason, h.2⟩

theorem Alike.advanced {c : Controller} (h : Alike c d) {tick : Int} (hle : c.tick ≤ tick) :
    AlikeAt tick (c.advanced Bucket.discard tick) (d.advanced keepAll tick) := by
  refine ⟨⟨rfl, ?_, ?_, h.activeIdentity, h.activePrefix, h.rejections, fun f => ?_⟩, rfl⟩
  · simp only [Controller.advanced, h.replayNonces]
  · simp only [Controller.advanced, h.quarantines]
  · cases f
    · exact (h.tables .handshake).discard hle
    · exact (h.tables .message).discard hle

theorem agree_advance_bind {tick : Int} {rest rest' : Unit → Method α}
    (h : Agree excuse (AlikeAt tick) (rest ()) (rest' ())) :
    Agree excuse Alike (advanceWith Bucket.discard tick >>= rest)
      (advanceWith keepAll tick >>= rest') := by
  intro c d hcd
  rw [bind_apply, bind_apply]
  rcases lt_or_ge tick c.tick with htick | htick
  · rw [advanceWith_of_lt _ htick, advanceWith_of_lt _ (hcd.tick ▸ htick)]
    exact .inr ⟨rfl, hcd.rejected _⟩
  · rw [advanceWith_of_le _ htick, advanceWith_of_le _ (hcd.tick ▸ htick)]
    rcases h _ _ (hcd.advanced htick) with hexcuse | ⟨hsame, halike⟩
    · exact .inl hexcuse
    · exact .inr ⟨hsame, halike.1⟩

theorem Alike.setTable {c : Controller} (h : Alike c d) (family : Family) {t u : Dict Text Bucket}
    (htable : TableAlike family.rate c.tick t u) :
    Alike (c.setTable family t) (d.setTable family u) := by
  cases family <;> refine ⟨h.tick, h.replayNonces, h.quarantines, h.activeIdentity, h.activePrefix,
    h.rejections, fun f => ?_⟩ <;> cases f
  · exact htable
  · exact h.tables .message
  · exact h.tables .handshake
  · exact htable

theorem agree_settle {tick : Int} (excuse : SafetyError → Prop) (full reason detail : String)
    (result : Option Bool) :
    Agree excuse (AlikeAt tick) (settle full reason detail result)
      (settle full reason detail result) :=
  .bind (agree_rejectIf alikeAt_rejected _ _ _ _) fun _ => agree_rejectIf alikeAt_rejected _ _ _ _

theorem agree_pay (family : Family) (key : Text) (tick : Int) (hcost : 0 ≤ cost)
    (full reason detail : String) :
    Agree IsBucketLimit (AlikeAt tick) (pay family key tick cost full reason detail)
      (pay family key tick cost full reason detail) := by
  rintro c d ⟨hcd, rfl⟩
  have htable := hcd.tables family
  by_cases hroom : (d.table family).contains key = false ∧
    maxAdmissionBuckets ≤ (d.table family).size
  · refine .inl ⟨⟨"admission_bucket_limit", full⟩, ?_, rfl⟩
    simp only [pay, bind_apply, consume, consume_of_full hroom, Stateful.next]
    rfl
  · obtain ⟨hsame, -, halike⟩ := htable.consume hcost hroom
    have hafter := hcd.setTable family halike
    unfold pay
    rw [bind_apply, bind_apply, consume, consume]
    simp only [Stateful.next, hsame]
    refine agree_settle _ _ _ _ _ _ _ ⟨hafter, ?_⟩
    cases family <;> rfl

theorem agree_screen (excuse : SafetyError → Prop) (peerId nonce : Text) (tick : Int) :
    Agree excuse (AlikeAt tick) (screen peerId nonce tick) (screen peerId nonce tick) := by
  refine .read_bind fun c d h => ?_
  rw [h.1.quarantines, h.1.replayNonces]
  exact .bind (agree_rejectIf alikeAt_rejected _ _ _ _) fun _ =>
    .bind (agree_rejectIf alikeAt_rejected _ _ _ _) fun _ => agree_rejectIf alikeAt_rejected _ _ _ _

theorem agree_screenSessions (excuse : SafetyError → Prop) (peerId network : Text) (tick : Int) :
    Agree excuse (AlikeAt tick) (screenSessions peerId network)
    (screenSessions peerId network) := by
  refine .read_bind fun c d h => ?_
  rw [h.1.activeIdentity, h.1.activePrefix]
  exact .bind (agree_rejectIf alikeAt_rejected _ _ _ _) fun _ =>
    .bind (agree_rejectIf alikeAt_rejected _ _ _ _) fun _ => agree_rejectIf alikeAt_rejected _ _ _ _

theorem Alike.of_tables {c d' : Controller} (h : Alike c d) (hc : c'.tick = c.tick)
    (hd : d'.tick = d.tick) (hct : ∀ family, c'.table family = c.table family)
    (hdt : ∀ family, d'.table family = d.table family) (hn : c'.replayNonces = d'.replayNonces)
    (hq : c'.quarantines = d'.quarantines) (hi : c'.activeIdentity = d'.activeIdentity)
    (hp : c'.activePrefix = d'.activePrefix) (hr : c'.rejections = d'.rejections) :
    Alike c' d' := by
  refine ⟨hc.trans (h.tick.trans hd.symm), hn, hq, hi, hp, hr, fun f => ?_⟩
  rw [hct, hdt, hc]
  exact h.tables f

/-- A call has the same outcome on both, unless the one that keeps its buckets is full. -/
theorem agree_perform (op : Op) :
    Agree IsBucketLimit Alike (performWith Bucket.discard op) (performWith keepAll op) := by
  cases op with
  | handshake peerId sourceIp nonceHex tick =>
    refine Agree.bind (agree_advance_bind ?_) fun _ => .pure _
    refine (Agree.check _).bind fun _ => (Agree.check _).bind fun nonce =>
      (Agree.check _).bind fun network => ?_
    refine (agree_screen _ peerId nonce tick).bind fun _ => ?_
    refine (agree_pay _ _ _ Int.one_nonneg _ _ _).bind fun _ => ?_
    refine (agree_pay _ _ _ Int.one_nonneg _ _ _).bind fun _ => ?_
    refine (agree_screenSessions _ peerId network tick).bind fun _ => ?_
    refine (Agree.update fun c d h => ⟨?_, h.2⟩).bind fun _ => .pure network
    exact h.1.of_tables rfl rfl (fun f => by cases f <;> rfl) (fun f => by cases f <;> rfl)
      (by simp only [Controller.admitted, h.1.replayNonces]) h.1.quarantines
      (by simp only [Controller.admitted, h.1.activeIdentity])
      (by simp only [Controller.admitted, h.1.activePrefix]) h.1.rejections
  | close peerId sourceIp =>
    refine Agree.bind ((Agree.check _).bind fun network => ?_) fun _ => .pure _
    refine Agree.update fun c d h => ?_
    exact h.of_tables rfl rfl (fun f => by cases f <;> rfl) (fun f => by cases f <;> rfl)
      h.replayNonces h.quarantines (by simp only [h.activeIdentity]) (by simp only [h.activePrefix])
      h.rejections
  | message peerId frameBytes tick =>
    refine Agree.bind (agree_advance_bind ?_) fun _ => .pure _
    refine agree_rejectIf_bind alikeAt_rejected fun hsize => ?_
    exact (agree_pay _ _ _ (cost_nonneg hsize) _ _ _).bind fun _ => .pure _
  | quarantine peerId tick =>
    refine Agree.bind (agree_advance_bind ?_) fun _ => .pure _
    refine .read_bind fun c d h => ?_
    rw [h.1.quarantines]
    refine (agree_rejectIf alikeAt_rejected _ _ _ _).bind fun _ => ?_
    refine Agree.update fun c d h => ⟨?_, h.2⟩
    exact h.1.of_tables rfl rfl (fun f => by cases f <;> rfl) (fun f => by cases f <;> rfl)
      h.1.replayNonces (by simp only [h.1.quarantines]) h.1.activeIdentity h.1.activePrefix
      h.1.rejections

theorem trace_eq_of_alike (ops : List Op) {c : Controller} (h : Alike c d)
    (hlimit : ∀ outcome ∈ traceWith keepAll ops d, ∀ e, outcome.2 = .error e → ¬ IsBucketLimit e) :
    trace ops c = traceWith keepAll ops d := by
  induction ops generalizing c d with
  | nil => rfl
  | cons op ops ih =>
    simp only [traceWith, forall_mem_cons] at hlimit
    rcases agree_perform op c d h with ⟨e, he, hexcuse⟩ | ⟨hsame, halike⟩
    · exact absurd hexcuse (hlimit.1 e he)
    · have htail := ih halike hlimit.2
      unfold trace at htail ⊢
      rw [traceWith, traceWith, hsame, htail]

/-! ## The limits -/

abbrev Outcome := Op × Except SafetyError Grant

/-- The cost of a message admitted for an identity from tick `t₀` to tick `t₁`. -/
def messageCostOf (peerId : Text) (t₀ t₁ : Int) : Outcome → Int
  | (.message p _ tick, .ok (.cost cost)) => if p = peerId ∧ t₀ ≤ tick ∧ tick ≤ t₁ then cost else 0
  | _ => 0

/-- A handshake admitted for an identity from tick `t₀` to tick `t₁`. -/
def isIdentityHandshake (peerId : Text) (t₀ t₁ : Int) : Outcome → Bool
  | (.handshake p _ _ tick, .ok (.network _)) => p = peerId ∧ t₀ ≤ tick ∧ tick ≤ t₁
  | _ => false

/-- A handshake admitted from a source network from tick `t₀` to tick `t₁`. -/
def isNetworkHandshake (network : Text) (t₀ t₁ : Int) : Outcome → Bool
  | (.handshake _ _ _ tick, .ok (.network n)) => n = network ∧ t₀ ≤ tick ∧ tick ≤ t₁
  | _ => false

def Started (c : Controller) : Prop := c = .fresh ∨ ∃ snapshot, restore snapshot = .ok c

def inWindow (t₀ t₁ : Int) (charge : Option (Int × Int)) : Int :=
  charge.elim 0 fun c => if t₀ ≤ c.1 ∧ c.1 ≤ t₁ then c.2 else 0

theorem spent_filterMap (f : Outcome → Option (Int × Int)) (t₀ t₁ : Int) (outcomes : List Outcome) :
    spent t₀ t₁ (outcomes.filterMap f) = (outcomes.map fun o => inWindow t₀ t₁ (f o)).sum := by
  induction outcomes with
  | nil => rfl
  | cons outcome outcomes ih =>
    rw [map_cons, sum_cons, ← ih, filterMap_cons]
    cases f outcome with
    | none => exact (zero_add _).symm
    | some charge => exact Metered.spent_cons charge.1 charge.2

theorem messageCostOf_eq (peerId : Text) (t₀ t₁ : Int) (outcome : Outcome) :
    messageCostOf peerId t₀ t₁ outcome = inWindow t₀ t₁ (charged .message peerId outcome) := by
  obtain ⟨op, result⟩ := outcome
  cases op with
  | message p frameBytes tick =>
    match result with
    | .ok (.cost cost) => by_cases hp : p = peerId <;> simp [messageCostOf, charged, inWindow, hp]
    | .ok (.network _) | .ok .done | .error _ => rfl
  | handshake p sourceIp nonceHex tick =>
    match result with
    | .ok (.network _) => simp [messageCostOf, charged, inWindow]
    | .ok (.cost _) | .ok .done | .error _ => rfl
  | close | quarantine => rfl

theorem countP_eq {f : Outcome → Option (Int × Int)} {p : Outcome → Bool}
    (h : ∀ o, (if p o then 1 else 0) = inWindow t₀ t₁ (f o)) (outcomes : List Outcome) :
    (outcomes.countP p : Int) = spent t₀ t₁ (outcomes.filterMap f) := by
  rw [spent_filterMap]
  induction outcomes with
  | nil => rfl
  | cons outcome outcomes ih =>
    rw [map_cons, sum_cons, ← ih, ← h, countP_cons]
    push_cast
    omega

theorem isIdentityHandshake_eq (peerId : Text) (t₀ t₁ : Int) (outcome : Outcome) :
    (if isIdentityHandshake peerId t₀ t₁ outcome then 1 else 0) =
      inWindow t₀ t₁ (charged .handshake (identityKey peerId) outcome) := by
  obtain ⟨op, result⟩ := outcome
  cases op with
  | handshake p sourceIp nonceHex tick =>
    match result with
    | .ok (.network n) =>
      have hne : networkKey n ≠ identityKey peerId := (identityKey_ne_networkKey _ _).symm
      by_cases heq : p = peerId <;>
        simp [isIdentityHandshake, charged, inWindow, heq, hne, identityKey_injective.eq_iff]
    | .ok (.cost _) | .ok .done | .error _ => rfl
  | message p frameBytes tick =>
    match result with
    | .ok (.cost _) => simp [isIdentityHandshake, charged, inWindow]
    | .ok (.network _) | .ok .done | .error _ => rfl
  | close | quarantine => rfl

theorem isNetworkHandshake_eq (network : Text) (t₀ t₁ : Int) (outcome : Outcome) :
    (if isNetworkHandshake network t₀ t₁ outcome then 1 else 0) =
      inWindow t₀ t₁ (charged .handshake (networkKey network) outcome) := by
  obtain ⟨op, result⟩ := outcome
  cases op with
  | handshake p sourceIp nonceHex tick =>
    match result with
    | .ok (.network n) =>
      have hne : identityKey p ≠ networkKey network := identityKey_ne_networkKey _ _
      by_cases heq : n = network <;>
        simp [isNetworkHandshake, charged, inWindow, heq, hne, networkKey_injective.eq_iff]
    | .ok (.cost _) | .ok .done | .error _ => rfl
  | message p frameBytes tick =>
    match result with
    | .ok (.cost _) => simp [isNetworkHandshake, charged, inWindow]
    | .ok (.network _) | .ok .done | .error _ => rfl
  | close | quarantine => rfl

theorem spent_charges_le (family : Family) (key : Text) (ops : List Op) (hc : c.InOrder)
    (h : t₀ ≤ t₁) : spent t₀ t₁ ((trace ops c).filterMap (charged family key)) ≤
      family.rate.capacity + (t₁ - t₀) * family.rate.refill := by
  have hgrow : ∀ (c : Controller) t t', t ≤ t' →
      c.level family key t' ≤ c.level family key t + (t' - t) * family.rate.refill :=
    fun _ _ _ ht => level_le_add ht
  exact Metered.spent_le hgrow (fun _ _ => level_le) (metered_charges family key ops hc) h

theorem restoreBuckets_eq_ok {rate : Rate} {now : Int} {value : Json} {table : Dict Text Bucket}
    (h : restoreBuckets rate.capacity now value = .ok table) :
    WellFormed rate table now ∧ table.size ≤ maxAdmissionBuckets := by
  simp only [restoreBuckets, bind_eq_ok, orRaise_eq_ok, Option.filter_eq_some_iff,
    decide_eq_true_eq, pure_eq_ok, Except.ok.injEq] at h
  obtain ⟨rows, ⟨-, hrows⟩, entries, hentries, rfl⟩ := h
  constructor
  · intro key b hget
    obtain ⟨row, -, hrow⟩ :=
      mem_of_mapM_eq_ok hentries (Dict.mem_of_mem_ofList (Dict.get?_eq_some_iff.1 hget))
    simp only [bind_eq_ok, pure_eq_ok, Except.ok.injEq, Prod.mk.injEq, restoreBucket, orRaise_eq_ok,
      Option.filter_eq_some_iff, decide_eq_true_eq] at hrow
    obtain ⟨_, ⟨fields, -, tokens, ⟨-, h0, hle⟩, tick, ⟨-, -, htick⟩, rfl⟩, -, rfl⟩ := hrow
    exact ⟨h0, hle, htick⟩
  · exact (Dict.size_ofList_le entries).trans (length_of_mapM_eq_ok hentries ▸ hrows)

theorem restore_inOrder {snapshot : Json} (h : restore snapshot = .ok c) :
    c.InOrder ∧ ∀ family, (c.table family).size ≤ maxAdmissionBuckets := by
  simp only [restore, bind_eq_ok, pure_eq_ok, Except.ok.injEq] at h
  obtain ⟨_, -, tick, -, handshakes, hh, messages, hm, _, -, _, -, _, -, _, -, _, -, _, -,
    _, -, _, -,
    rfl⟩ := h
  have hhandshakes := restoreBuckets_eq_ok hh
  have hmessages := restoreBuckets_eq_ok hm
  refine ⟨fun family => ?_, fun family => ?_⟩
  · cases family
    · exact hhandshakes.1
    · exact hmessages.1
  · cases family
    · exact hhandshakes.2
    · exact hmessages.2

theorem Started.inOrder (h : Started c) :
    c.InOrder ∧ ∀ family, (c.table family).size ≤ maxAdmissionBuckets := by
  obtain rfl | ⟨snapshot, hrestore⟩ := h
  · refine ⟨fun family key b hget => ?_, fun family => ?_⟩
    · cases family <;> cases hget
    · cases family <;> exact Nat.zero_le _
  · exact restore_inOrder hrestore

theorem Started.alike (h : Started c) : Alike c c := by
  refine ⟨rfl, rfl, rfl, rfl, rfl, rfl, fun family => ?_⟩
  have hw := h.inOrder.1 family
  exact ⟨hw, hw, fun _ _ _ => rfl, fun _ hk => hk, h.inOrder.2 family⟩

/-- **The rate limits hold over every window.** In every run of a controller the messages admitted
for one identity cost at most `64 + 4 * (t₁ - t₀)` tokens from tick `t₀` to tick `t₁`, and at most
`8 + (t₁ - t₀)` handshakes are admitted for one identity, or from one source network. A controller
that never discards a bucket makes the same decisions as long as its tables are not full. -/
theorem rate_limits (c : Controller) (hc : Started c) (ops : List Op) :
    (∀ peerId t₀ t₁, t₀ ≤ t₁ →
      ((trace ops c).map (messageCostOf peerId t₀ t₁)).sum ≤ 64 + 4 * (t₁ - t₀)) ∧
    (∀ peerId t₀ t₁, t₀ ≤ t₁ →
      ((trace ops c).countP (isIdentityHandshake peerId t₀ t₁) : Int) ≤ 8 + (t₁ - t₀)) ∧
    (∀ network t₀ t₁, t₀ ≤ t₁ →
      ((trace ops c).countP (isNetworkHandshake network t₀ t₁) : Int) ≤ 8 + (t₁ - t₀)) ∧
    ((∀ outcome ∈ traceWith keepAll ops c, ∀ e, outcome.2 = .error e →
        e.reason ≠ "admission_bucket_limit") →
      trace ops c = traceWith keepAll ops c) := by
  refine ⟨fun peerId t₀ t₁ h => ?_, fun peerId t₀ t₁ h => ?_, fun network t₀ t₁ h => ?_, ?_⟩
  · have hspent := spent_charges_le .message peerId ops hc.inOrder.1 h
    rw [spent_filterMap] at hspent
    simp only [← messageCostOf_eq] at hspent
    calc ((trace ops c).map (messageCostOf peerId t₀ t₁)).sum ≤ 64 + (t₁ - t₀) * 4 := hspent
      _ = 64 + 4 * (t₁ - t₀) := by rw [mul_comm]
  · have hspent := spent_charges_le .handshake (identityKey peerId) ops hc.inOrder.1 h
    rw [← countP_eq (isIdentityHandshake_eq peerId t₀ t₁)] at hspent
    calc ((trace ops c).countP (isIdentityHandshake peerId t₀ t₁) : Int) ≤ 8 +
      (t₁ - t₀) * 1 := hspent
      _ = 8 + (t₁ - t₀) := by rw [mul_one]
  · have hspent := spent_charges_le .handshake (networkKey network) ops hc.inOrder.1 h
    rw [← countP_eq (isNetworkHandshake_eq network t₀ t₁)] at hspent
    calc ((trace ops c).countP (isNetworkHandshake network t₀ t₁) : Int) ≤ 8 +
      (t₁ - t₀) * 1 := hspent
      _ = 8 + (t₁ - t₀) := by rw [mul_one]
  · exact fun hlimit => trace_eq_of_alike ops hc.alike hlimit

namespace Sample

def messages : List Op :=
  [.message (ascii "peer-a") 131072 0, .message (ascii "peer-a") 131072 0,
    .message (ascii "peer-a") 1 0]

end Sample

theorem rate_limits_messages :
    Started .fresh ∧
    ((trace Sample.messages .fresh).map (messageCostOf (ascii "peer-a") 0 0)).sum = 64 ∧
      ((trace Sample.messages .fresh).map (messageCostOf (ascii "peer-a") 0 0)).sum ≤ 64 + 4 *
      (0 - 0) :=
  ⟨.inl rfl, by decide +kernel,
    (rate_limits .fresh (.inl rfl) Sample.messages).1 (ascii "peer-a") 0 0 (le_refl 0)⟩

end Soveroot.Multihost
