import Soveroot.Pow.Planner

/-!
# The planner's schedules are legal

The checks never fail, so that the planner with checks is the planner (`planner_legal`). What the
planner keeps is what it kept, what an event writes, and what it has replayed (`retain_checks`,
`canonicalRead_checks`).
-/

namespace Soveroot.Pow

open Check List Finset

/-- A computation with checks goes like the one without, and returns only what satisfies `Q`. -/
def Checks {α : Type} (checked x : Except (Raised LookupError) α) (Q : α → Prop) : Prop :=
  checked = x ∧ ∀ a, x = .ok a → Q a

namespace Checks

variable {α β : Type} {x y x' y' : Except (Raised LookupError) α} {Q : α → Prop} {R : β → Prop}

theorem ok {a : α} (h : Q a) : Checks (.ok a) (.ok a) Q :=
  ⟨rfl, fun _ ha => Except.ok.inj ha ▸ h⟩

theorem imp {Q' : α → Prop} (h : Checks y x Q) (hQ : ∀ a, Q a → Q' a) : Checks y x Q' :=
  ⟨h.1, fun a ha => hQ a (h.2 a ha)⟩

theorem bind {f g : α → Except (Raised LookupError) β} (hx : Checks y x Q)
    (hf : ∀ a, Q a → Checks (g a) (f a) R) : Checks (y >>= g) (x >>= f) R := by
  obtain ⟨rfl, hQ⟩ := hx
  cases hy : y with
  | error e => exact ⟨rfl, by rintro _ ⟨⟩⟩
  | ok a => exact hf a (hQ a hy)

theorem promise {p : Prop} [Decidable p] (hp : p) (h : Checks y x Q) :
    Checks (Planner.promise true p >>= fun _ => y) (Planner.promise false p >>= fun _ => x) Q := by
  rw [Planner.promise, Planner.promise, require_of_pos fun _ => hp, require_of_pos (by simp)]
  exact h

theorem ite {c : Prop} [Decidable c] (ht : c → Checks y x Q) (hf : ¬ c → Checks y' x' Q) :
    Checks (if c then y else y') (if c then x else x') Q := by
  by_cases hc : c
  · rw [if_pos hc, if_pos hc]
    exact ht hc
  · rw [if_neg hc, if_neg hc]
    exact hf hc

end Checks

/-- The plan of a decoded graph. -/
structure Plan.Decoded (plan : Plan) : Prop where
  capacity_pos : 0 < plan.capacity
  producers : ∀ i e, plan.edges[i]? = some e →
    plan.graph.producerOf e.first = some i ∧ plan.graph.producerOf e.second = some i

namespace Planner

variable {capacity version : Nat} {s s' s₁ s₂ : Planner} {pinned : Finset Nat} {plan : Plan}

variable {turns : Nat} {victim : Nat × Nat}

/-- The loop finds a victim that is cached and not pinned, and loses no live entry but that of the
victim. -/
theorem popUnpinned_spec {heap deferred : List (Int × Nat)}
    (hlive : ∀ v ∈ s.cache, s.entry v ∈ deferred ++ heap)
    (h : (s.popUnpinned pinned turns heap deferred).1 = some victim) :
    (victim.1 ∈ s.cache ∧ victim.1 ∉ pinned) ∧ ∀ v ∈ s.cache, v ≠ victim.1 →
      s.entry v ∈ (s.popUnpinned pinned turns heap deferred).2.2 ++
        (s.popUnpinned pinned turns heap deferred).2.1 := by
  induction turns generalizing heap deferred with
  | zero => cases h
  | succ turns ih =>
    unfold popUnpinned at h ⊢
    split at h
    · cases h
    · rename_i item _
      -- what is live and not this entry stays where it is
      have hother : ∀ v ∈ s.cache, s.entry v ≠ item → s.entry v ∈ deferred ++ heap.erase item := by
        intro v hv hne
        rcases mem_append.1 (hlive v hv) with hmem | hmem
        · exact mem_append_left _ hmem
        · exact mem_append_right _ ((mem_erase_of_ne hne).2 hmem)
      split_ifs at h ⊢ with hstale hpinned
      · refine ih (fun v hv => hother v hv ?_) h
        rintro rfl
        simp [entry, hv] at hstale
      · refine ih (fun v hv => ?_) h
        by_cases hitem : s.entry v = item
        · exact mem_append_left _ (hitem ▸ mem_cons_self)
        · exact mem_cons_of_mem item (hother v hv hitem)
      · obtain rfl := Option.some.inj h
        rw [not_or, not_not] at hstale
        refine ⟨⟨hstale.1, hpinned⟩, fun v hv hne => hother v hv ?_⟩
        rintro rfl
        exact hne rfl

theorem farthestUnpinned_spec (hlive : ∀ v ∈ s.cache, s.entry v ∈ s.evictionHeap)
    (h : s.farthestUnpinned pinned = .ok (victim, s')) :
    (victim.1 ∈ s.cache ∧ victim.1 ∉ pinned) ∧ ∃ heap, s' = { s with evictionHeap := heap } ∧
      ∀ v ∈ s.cache, v ≠ victim.1 → s.entry v ∈ heap := by
  unfold farthestUnpinned at h
  split at h
  case h_1 found heap deferred heq =>
    obtain ⟨victim', hvictim, h⟩ := bind_eq_ok.1 h
    obtain ⟨rfl, rfl⟩ := Prod.mk.inj (Except.ok.inj h)
    obtain rfl := orRaise_eq_ok.1 hvictim
    obtain ⟨hmem, hothers⟩ := popUnpinned_spec hlive (congrArg Prod.fst heq)
    rw [heq] at hothers
    exact ⟨hmem, _, rfl, hothers⟩

/-- What a value retained does to the cache: it may come in, and others may go. -/
structure Retains (capacity version : Nat) (s s' : Planner) : Prop where
  cache : ∀ v ∈ s'.cache, v ∈ s.cache ∨ v = version
  card_le : s'.cache.card ≤ capacity
  replayed : s'.replayedProducers = s.replayedProducers

/-- What becomes of the pinned versions: they stay, and one that is retained is there. -/
def Pins (version : Nat) (pinned : Finset Nat) (s s' : Planner) : Prop :=
  s.cache ∩ pinned ⊆ s'.cache ∧ (version ∈ pinned → version ≠ 0 → version ∈ s'.cache)

theorem add_spec (hs : s.Orderly capacity) (h : s.cache.card < capacity) :
    (s.add version).Orderly capacity ∧ Pins version pinned s (s.add version) ∧
      Retains capacity version s (s.add version) := by
  have hcard : (s.add version).cache.card ≤ capacity := le_trans (card_insert_le _ _) h
  refine ⟨⟨hcard, fun v hv => ?_⟩, ⟨fun v hv => mem_insert_of_mem (mem_inter.1 hv).1,
    fun _ _ => mem_insert_self _ _⟩, ⟨fun v hv => (mem_insert.1 hv).symm, hcard, rfl⟩⟩
  rcases mem_insert.1 hv with rfl | hv
  · exact mem_cons_self
  · exact mem_cons_of_mem _ (hs.2 v hv)

theorem makeRoom_checks (hcapacity : 0 < capacity) (hturns : s.cache.card ≤ turns)
    (hs : s.Orderly capacity) :
    Checks (makeRoom true capacity version pinned turns s)
    (makeRoom false capacity version pinned turns s)
      fun s' => s'.Orderly capacity ∧ Pins version pinned s s' ∧ Retains capacity version s s' := by
  induction turns generalizing s with
  | zero => exact .ok (add_spec hs (by omega))
  | succ turns ih =>
    refine .ite (fun hfull => ?_) fun hroom => .ok (add_spec hs (by omega))
    refine .bind (Q := fun r => s.farthestUnpinned pinned = .ok r) ⟨rfl, fun _ h => h⟩ ?_
    rintro ⟨victim, s₁⟩ hvictim
    obtain ⟨⟨hmem, hpinned⟩, heap, rfl, hothers⟩ := farthestUnpinned_spec hs.2 hvictim
    refine .promise hpinned (.ite (fun hdecline => .ok ⟨⟨hs.1, fun v hv => ?_⟩, ?_, ?_⟩)
      fun _ => ?_)
    · by_cases hv' : v = victim.1
      · subst hv'
        exact mem_cons_self
      · exact mem_cons_of_mem _ (hothers v hv hv')
    · exact ⟨inter_subset_left, fun hv => absurd hv hdecline.1⟩
    · exact ⟨fun v hv => .inl hv, hs.1, rfl⟩
    · have hlt := card_erase_lt_of_mem hmem
      refine (ih (s := { s with evictionHeap := heap, cache := s.cache.erase victim.1 })
        (by dsimp only; omega) ⟨le_trans hlt.le hs.1, fun v hv => ?_⟩).imp fun s' h' => ?_
      · obtain ⟨hne, hv⟩ := mem_erase.1 hv
        exact hothers v hv hne
      · obtain ⟨hs', hpins, hretains⟩ := h'
        refine ⟨hs', ⟨fun v hv => hpins.1 ?_, hpins.2⟩, ⟨fun v hv => ?_, hretains.card_le,
          hretains.replayed⟩⟩
        · obtain ⟨hv, hpin⟩ := mem_inter.1 hv
          refine mem_inter.2 ⟨mem_erase.2 ⟨?_, hv⟩, hpin⟩
          rintro rfl
          exact hpinned hpin
        · exact (hretains.cache v hv).imp_left mem_of_mem_erase

theorem retain_checks (hcapacity : 0 < capacity) (hs : s.Orderly capacity) (version : Nat)
    (pinned : Finset Nat) :
    Checks (s.retain true capacity version pinned) (s.retain false capacity version pinned)
      fun s' => s'.Orderly capacity ∧ Pins version pinned s s' ∧ Retains capacity version s s' := by
  have hsame : Retains capacity version s s := ⟨fun v hv => .inl hv, hs.1, rfl⟩
  refine .promise hs (.ite (fun h => .ok ?_) fun h => .ite (fun hdrop => .ok ?_) fun _ => ?_)
  · exact ⟨hs, ⟨inter_subset_left, fun _ hne => h.resolve_left hne⟩, hsame⟩
  · exact ⟨hs, ⟨inter_subset_left, fun hpin => absurd hpin hdrop.2⟩, hsame⟩
  · exact makeRoom_checks hcapacity le_rfl hs

/-- What replaying producers does: the values kept were kept, or come from one of them. -/
structure Replays (plan : Plan) (replayed : List Nat) (s s' : Planner) : Prop where
  cache : ∀ v ∈ s'.cache, v ∈ s.cache ∨ ∃ p ∈ replayed, plan.graph.producerOf v = some p
  card_le : s'.cache.card ≤ plan.capacity
  replayed : s'.replayedProducers = s.replayedProducers + replayed.length

theorem Replays.refl (hcard : s.cache.card ≤ plan.capacity) : Replays plan [] s s :=
  ⟨fun _ hv => .inl hv, hcard, rfl⟩

theorem Replays.trans {r₁ r₂ : List Nat} (h₁ : Replays plan r₁ s s₁) (h₂ : Replays plan r₂ s₁ s₂) :
    Replays plan (r₁ ++ r₂) s s₂ where
  cache v hv := by
    rcases h₂.cache v hv with hv | ⟨p, hp, hprod⟩
    · rcases h₁.cache v hv with hv | ⟨p, hp, hprod⟩
      · exact .inl hv
      · exact .inr ⟨p, mem_append_left _ hp, hprod⟩
    · exact .inr ⟨p, mem_append_right _ hp, hprod⟩
  card_le := h₂.card_le
  replayed := by rw [h₂.replayed, h₁.replayed, length_append, Nat.add_assoc]

variable {producer : Nat}

theorem Replays.retain {replayed : List Nat} (h : Replays plan replayed s s₁)
    (hr : Retains plan.capacity version s₁ s₂) (hmem : producer ∈ replayed)
    (hproducer : plan.graph.producerOf version = some producer) : Replays plan replayed s s₂ where
  cache v hv := by
    rcases hr.cache v hv with hv | rfl
    · exact h.cache v hv
    · exact .inr ⟨producer, hmem, hproducer⟩
  card_le := hr.card_le
  replayed := hr.replayed.trans h.replayed

/-- What `ensure` is for, and what it replays for it. -/
def Ensured (plan : Plan) (version : Nat) (actions : List Nat) (s : Planner)
    (r : Planner × List Nat) : Prop :=
  ∃ replayed, r.2 = actions ++ replayed ∧ Replays plan replayed s r.1 ∧
    (version ≠ 0 → version ∈ s.cache ∨ ∃ p ∈ replayed, plan.graph.producerOf version = some p)

variable {actions : List Nat}

/-- The inputs are replayed, then the producer itself, and its two outputs are retained. -/
theorem Ensured.node (hplan : plan.Decoded) {edges : ProducerEdges} {actions₁ actions₂ : List Nat}
    {s₃ s₄ : Planner} {transient : Nat} (hproducer : plan.graph.producerOf version = some producer)
    (hedges : plan.edges[producer]? = some edges)
    (hleft : Ensured plan edges.left actions s (s₁, actions₁))
    (hright : Ensured plan edges.right actions₁ s₁ (s₂, actions₂))
    (hversion : Retains plan.capacity version { s₂ with
      peakTransient := transient, replayedProducers := s₂.replayedProducers + 1 } s₃)
    (hsibling : Retains plan.capacity (if version = edges.first then edges.second else edges.first)
      s₃ s₄) : Ensured plan version actions s (s₄, actions₂ ++ [producer]) := by
  obtain ⟨r₁, rfl, h₁, -⟩ := hleft
  obtain ⟨r₂, rfl, h₂, -⟩ := hright
  obtain ⟨hfirst, hsecond⟩ := hplan.producers producer edges hedges
  have hsib : plan.graph.producerOf (if version = edges.first then edges.second else edges.first) =
      some producer := by
    split_ifs
    · exact hsecond
    · exact hfirst
  have h₁₂ := h₁.trans h₂
  have hrun : Replays plan (r₁ ++ r₂ ++ [producer]) s { s₂ with
      peakTransient := transient, replayedProducers := s₂.replayedProducers + 1 } := {
    cache := fun v hv => (h₁₂.cache v hv).imp_right
      (Exists.imp fun _ => And.imp_left (mem_append_left _))
    card_le := h₁₂.card_le
    replayed := by
      rw [length_append, ← Nat.add_assoc]
      exact congrArg (· + 1) h₁₂.replayed }
  have hmem : producer ∈ r₁ ++ r₂ ++ [producer] := mem_append_right _ mem_cons_self
  exact ⟨r₁ ++ r₂ ++ [producer], by simp,
    (hrun.retain hversion hmem hproducer).retain hsibling hmem hsib,
    fun _ => .inr ⟨producer, hmem, hproducer⟩⟩

theorem ensure_checks (hcapacity : 0 < plan.capacity) {stack : Nat} (hs : s.Orderly plan.capacity)
    (hpinned : pinned ⊆ s.cache) (depth : Nat) (actions : List Nat) :
    Checks (ensure true plan stack s version pinned depth actions)
      (ensure false plan stack s version pinned depth actions)
      fun r => r.1.Orderly plan.capacity ∧ pinned ⊆ r.1.cache ∧
        (version ≠ 0 → version ∈ r.1.cache) ∧
        (plan.Decoded → Ensured plan version actions s r) := by
  induction stack generalizing s version pinned depth actions with
  | zero => exact ⟨rfl, by rintro _ ⟨⟩⟩
  | succ stack ih =>
    have hnone : Replays plan [] s s := .refl hs.1
    have hactions : actions = actions ++ [] := (append_nil _).symm
    refine .promise ⟨hs, hpinned⟩ (.ite (fun hzero => .ok ?_) fun hne => ?_)
    · exact ⟨hs, hpinned, (absurd hzero ·), fun _ => ⟨[], hactions, hnone, (absurd hzero ·)⟩⟩
    refine .ite (fun hcached => .ok ?_) fun _ => ?_
    · exact ⟨hs, hpinned, fun _ => hcached, fun _ => ⟨[], hactions, ⟨hnone.cache, hs.1, rfl⟩,
        fun _ => .inl hcached⟩⟩
    refine .bind (Q := fun source => plan.graph.producer version = .ok source) ⟨rfl,
      fun _ h => h⟩ ?_
    intro source hsource
    refine .bind (Q := fun producer => source = some producer)
      ⟨rfl, fun _ h => orRaise_eq_ok.1 h⟩ fun producer hproducer => ?_
    refine .bind (Q := fun edges => plan.edges[producer]? = some edges)
      ⟨rfl, fun _ h => orRaise_eq_ok.1 h⟩ fun edges hedges => ?_
    refine .bind (ih (by exact hs) (by exact hpinned) _ _) ?_
    rintro ⟨s₁, actions₁⟩ ⟨hs₁, hpinned₁, hleft, hreplayed₁⟩
    -- the left input is pinned while the right one is made
    have hleftPin : (if edges.left ≠ 0 then insert edges.left pinned else pinned) ⊆ s₁.cache := by
      split_ifs with hzero
      · exact insert_subset (hleft hzero) hpinned₁
      · exact hpinned₁
    refine .bind (ih hs₁ hleftPin _ _) ?_
    rintro ⟨s₂, actions₂⟩ ⟨hs₂, hleftPin₂, hright, hreplayed₂⟩
    refine .promise ⟨hleftPin₂, hright⟩ ?_
    have hpinned₂ : pinned ⊆ s₂.cache := by
      refine subset_trans ?_ hleftPin₂
      split_ifs
      · exact subset_insert _ _
      · exact subset_rfl
    refine .bind (retain_checks hcapacity (by exact hs₂) _ _) fun s₃ h₃ => ?_
    refine .bind (retain_checks hcapacity h₃.1 _ _) fun s₄ h₄ =>
      .ok ⟨h₄.1, fun v hv => ?_, fun _ => ?_, fun hplan => ?_⟩
    · have hv₃ := h₃.2.1.1 (mem_inter.2 ⟨hpinned₂ hv, mem_insert_of_mem hv⟩)
      exact h₄.2.1.1 (mem_inter.2 ⟨hv₃, mem_insert_of_mem hv⟩)
    · have hversion := h₃.2.1.2 (mem_insert_self _ _) hne
      exact h₄.2.1.1 (mem_inter.2 ⟨hversion, mem_insert_self _ _⟩)
    · have hof : plan.graph.producerOf version = some producer := by
        rw [hproducer, CapturedVersionedGraph.producer, orRaise_eq_ok] at hsource
        rw [CapturedVersionedGraph.producerOf, getD_eq_getElem?_getD, hsource]
        rfl
      obtain ⟨r₁, hactions₁, h₁, hread⟩ := hreplayed₁ hplan
      exact .node hplan hof hedges ⟨r₁, hactions₁, ⟨h₁.cache, h₁.card_le, h₁.replayed⟩, hread⟩
        (hreplayed₂ hplan) h₃.2.2 h₄.2.2

theorem consume_spec {eventIndex : Nat} (hs : s.Orderly capacity)
    (h : s.consume version eventIndex = .ok s') :
    s'.Orderly capacity ∧ s'.cache ⊆ s.cache ∧ s'.replayedProducers = s.replayedProducers := by
  have hother : ∀ v ∈ s.cache, v ≠ version → ∀ uses,
      entry { s with futureReads := Function.update s.futureReads version uses }
        v ∈ s.evictionHeap := by
    intro v hv hne uses
    simp only [entry, nextUse, Function.update_of_ne hne]
    exact hs.2 v hv
  unfold consume at h
  dsimp only at h
  split at h
  · cases h
  · obtain ⟨_, -, h⟩ := bind_eq_ok.1 h
    split_ifs at h with hcached huses
    · obtain rfl := Except.ok.inj h
      refine ⟨⟨hs.1, fun v hv => ?_⟩, subset_rfl, rfl⟩
      by_cases hne : v = version
      · subst hne
        exact mem_cons_self
      · exact mem_cons_of_mem _ (hother v hv hne _)
    · obtain rfl := Except.ok.inj h
      refine ⟨⟨le_trans (card_le_card (erase_subset _ _)) hs.1, fun v hv => ?_⟩,
        erase_subset _ _, rfl⟩
      obtain ⟨hne, hv⟩ := mem_erase.1 hv
      exact hother v hv hne _
    · obtain rfl := Except.ok.inj h
      exact ⟨⟨hs.1, fun v hv => hother v hv (fun heq => hcached (heq ▸ hv)) _⟩, subset_rfl, rfl⟩

theorem writeFrame_spec (h : s.writeFrame version actions = .ok s') :
    s'.cache = s.cache ∧ s'.replayedProducers = s.replayedProducers ∧
      (s.Orderly capacity → s'.Orderly capacity) := by
  obtain ⟨_, -, h⟩ := bind_eq_ok.1 h
  obtain ⟨_, -, h⟩ := bind_eq_ok.1 h
  obtain rfl := Except.ok.inj h
  exact ⟨rfl, rfl, id⟩

variable (hcapacity : 0 < plan.capacity) (hs : s.Orderly plan.capacity)
include hcapacity hs

/-- A canonical read finds its version, or replays its producer. -/
theorem canonicalRead_checks (stack version eventIndex : Nat) :
    Checks (canonicalRead true plan stack s version eventIndex)
      (canonicalRead false plan stack s version eventIndex)
      fun s' => s'.Orderly plan.capacity ∧ (plan.Decoded → ∃ replayed, Replays plan replayed s s' ∧
        (version ≠ 0 → version ∈ s.cache ∨
          ∃ p ∈ replayed, plan.graph.producerOf version = some p)) := by
  have hnone : Replays plan [] s { s with canonicalReads := s.canonicalReads + 1 } :=
    ⟨fun _ hv => .inl hv, hs.1, rfl⟩
  refine .promise hs (.ite (fun hzero => .ok ⟨hs, fun _ => ⟨[], hnone, (absurd hzero ·)⟩⟩)
    fun hzero => ?_)
  refine .bind (Q := fun s₁ => (s₁.Orderly plan.capacity ∧ version ∈ s₁.cache) ∧
      (plan.Decoded → ∃ actions, Ensured plan version [] s (s₁, actions)))
    (.ite (fun _ => ?_) fun hcached => .ok ⟨⟨hs, not_not.1 hcached⟩, fun _ => ⟨[], [], rfl, hnone,
      fun _ => .inl (not_not.1 hcached)⟩⟩) fun s₁ h₁ => ?_
  · refine .bind (ensure_checks hcapacity (by exact hs) (empty_subset _) _ _) ?_
    rintro ⟨s₁, actions⟩ ⟨hs₁, -, hversion, hensured⟩
    refine ⟨rfl, fun s₂ hframe => ?_⟩
    obtain ⟨hcache, hcount, horderly⟩ := writeFrame_spec hframe
    refine ⟨⟨horderly hs₁, hcache ▸ hversion hzero⟩, fun hplan => ?_⟩
    obtain ⟨replayed, hactions, hreplays, hread⟩ := hensured hplan
    exact ⟨actions, replayed, hactions, ⟨fun v hv => hreplays.cache v (hcache ▸ hv),
      hcache ▸ hreplays.card_le, hcount.trans hreplays.replayed⟩, hread⟩
  · refine .promise h₁.1 ⟨rfl, fun s₂ h => ?_⟩
    obtain ⟨hs₂, hsub, hcount⟩ := consume_spec h₁.1.1 h
    refine ⟨hs₂, fun hplan => ?_⟩
    obtain ⟨actions, replayed, -, hreplays, hread⟩ := h₁.2 hplan
    exact ⟨replayed, ⟨fun v hv => hreplays.cache v (hsub hv), hs₂.1,
      hcount.trans hreplays.replayed⟩, hread⟩

theorem runProducers_checks (stack producer : Nat) (edges : List ProducerEdges) :
    Checks (runProducers true plan stack producer edges s)
      (runProducers false plan stack producer edges s) (Orderly plan.capacity) := by
  induction edges generalizing producer s with
  | nil => exact .ok hs
  | cons e edges ih =>
    refine .bind (canonicalRead_checks hcapacity hs _ _ _) fun s₁ h₁ => ?_
    refine .bind (canonicalRead_checks hcapacity h₁.1 _ _ _) fun s₂ h₂ => ?_
    refine .bind (retain_checks hcapacity (by exact h₂.1) _ _) fun s₃ h₃ => ?_
    exact .bind (retain_checks hcapacity h₃.1 _ _) fun s₄ h₄ => ih h₄.1 _

theorem runFinal_checks (stack eventIndex : Nat) (events : List (Nat × Nat)) :
    Checks (runFinal true plan stack eventIndex events s)
      (runFinal false plan stack eventIndex events s) (Orderly plan.capacity) := by
  induction events generalizing eventIndex s with
  | nil => exact .ok hs
  | cons event events ih =>
    exact .bind (canonicalRead_checks hcapacity hs _ _ _) fun s₁ h₁ => ih h₁.1 _

end Planner

/-- A planner that starts with an empty cache, on whatever graph, keeps its promises: with the
checks it goes as without. -/
theorem planner_legal (plan : Plan) (hcapacity : 2 ≤ plan.capacity) (s : Planner) (hs : s.cache = ∅)
    (stack : Nat) (finalEvents : List (Nat × Nat)) :
    (s.runProducers true plan stack 0 plan.edges >>=
        Planner.runFinal true plan stack (plan.edges.length * 4) finalEvents) =
      (s.runProducers false plan stack 0 plan.edges >>=
        Planner.runFinal false plan stack (plan.edges.length * 4) finalEvents) := by
  have hpos : 0 < plan.capacity := by omega
  have hstart : s.Orderly plan.capacity := by simp [Planner.Orderly, hs]
  have hrun := Checks.bind (Planner.runProducers_checks hpos hstart stack 0 plan.edges) fun s₁ h₁ =>
    Planner.runFinal_checks hpos h₁ stack (plan.edges.length * 4) finalEvents
  exact hrun.1

/-- Two producers and four reads with room for two values: the outputs of the first producer are
evicted for those of the second, and the first is replayed. -/
theorem planner_legal_evicting :
    let events := [(0, 0), (0, 0), (1, 1), (1, 2), (0, 0), (0, 0), (1, 3), (1, 4)]
    let finalEvents := [(0, 3), (0, 4), (0, 1), (0, 2)]
    let plan : Plan := ⟨⟨events ++ finalEvents, [none, some 0, some 0, some 1, some 1]⟩, 2,
      [⟨0, 0, 1, 2⟩, ⟨0, 0, 3, 4⟩]⟩
    let s : Planner :=
      { futureReads := futureReads plan.graph.events, scheduleBytes := 0, hashed := [] }
    let run := fun checks => s.runProducers checks plan 9 0 plan.edges >>=
      Planner.runFinal checks plan 9 8 finalEvents
    run true = run false ∧
      (run false).map (fun s => (s.canonicalMisses, s.replayedProducers)) = .ok (1, 1) :=
  ⟨planner_legal _ (by decide) _ rfl 9 _, by decide +kernel⟩

end Soveroot.Pow
