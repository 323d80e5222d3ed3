import Mathlib.Logic.Basic
import Mathlib.Data.List.Basic

/-!
# Chains of checks

A validator is a chain of checks in the `Except` monad.

* What a successful run has passed: `bind_eq_ok`, `require_eq_ok`, `orRaise_eq_ok`, `foldlM_eq_ok`.
* What a failed run can end with: `Raises E`.
* When two chains are the same validator: `Agree E R` relates two runs that both succeed with
  `R`-related results or both fail with `E`-related errors.
-/

namespace Check

open List

variable {ε ε' α α' β β' : Type}

/-- Continue when `c` holds and end with `e` otherwise. -/
def require (c : Prop) [Decidable c] (e : ε) : Except ε Unit := if c then .ok () else .error e

/-- The value, or the error when there is none. -/
def orRaise (x : Option α) (e : ε) : Except ε α := x.elim (.error e) .ok

/-! ## What a successful run has passed -/

variable {x : Except ε α} {f : α → Except ε β} {b : β}

theorem bind_eq_ok : (x >>= f) = .ok b ↔ ∃ a, x = .ok a ∧ f a = .ok b := by
  cases x <;> simp [bind, Except.bind]

@[simp] theorem ok_bind (a : α) (f : α → Except ε β) : (Except.ok a >>= f) = f a := rfl

@[simp] theorem error_bind (e : ε) (f : α → Except ε β) :
    ((Except.error e : Except ε α) >>= f) = .error e := rfl

@[simp] theorem pure_eq_ok (a : α) : (pure a : Except ε α) = .ok a := rfl

@[simp] theorem throw_eq_error (e : ε) : (throw e : Except ε α) = .error e := rfl

variable {c : Prop} {e : ε}

theorem require_eq_ok [Decidable c] {u : Unit} : require c e = .ok u ↔ c := by
  unfold require
  split_ifs with h <;> simp [h]

@[simp] theorem require_of_pos [Decidable c] (h : c) (e : ε) : require c e = .ok () := if_pos h

@[simp] theorem require_of_neg [Decidable c] (h : ¬ c) (e : ε) : require c e = .error e := if_neg h

variable {a : α}

theorem orRaise_eq_ok {x : Option α} : orRaise x e = .ok a ↔ x = some a := by
  cases x <;> simp [orRaise]

@[simp] theorem orRaise_some (a : α) (e : ε) : orRaise (some a) e = .ok a := rfl

@[simp] theorem orRaise_none (e : ε) : orRaise (none : Option α) e = .error e := rfl

theorem mapError_eq_ok {f : ε → ε'} : x.mapError f = .ok a ↔ x = .ok a := by
  cases x <;> simp [Except.mapError]

theorem toOption_eq_some : x.toOption = some a ↔ x = .ok a := by
  cases x <;> simp [Except.toOption]

variable {P : List α → β → Prop} {init : β}

/-- The invariant rule for a loop of checks: what one step keeps, the loop keeps. -/
theorem foldlM_eq_ok {f : β → α → Except ε β} (h0 : P [] init)
    (hstep : ∀ done b a b', P done b → f b a = .ok b' → P (done ++ [a]) b') :
    ∀ {l : List α} {b : β}, l.foldlM f init = .ok b → P l b := by
  have key : ∀ (l done : List α) (b₀ b : β), P done b₀ → l.foldlM f b₀ = .ok b →
      P (done ++ l) b := by
    intro l
    induction l with
    | nil =>
      intro done b₀ b hP h
      simp only [foldlM_nil, pure_eq_ok, Except.ok.injEq] at h
      simpa [← h] using hP
    | cons a l ih =>
      intro done b₀ b hP h
      rw [foldlM_cons, bind_eq_ok] at h
      obtain ⟨b₁, h₁, h⟩ := h
      simpa using ih (done ++ [a]) b₁ b (hstep _ _ _ _ hP h₁) h
  intro l b h
  simpa using key l [] init b h0 h

variable {l : List α}

theorem foldlM_cases {f : β → α → Except ε β} {g : α → Prop} {E : ε → Prop} (h0 : P [] init)
    (hstep : ∀ done a rest b, l = done ++ a :: rest → P done b →
      (g a ∧ ∃ b', f b a = .ok b' ∧ P (done ++ [a]) b') ∨
        (¬ g a ∧ ∃ e, f b a = .error e ∧ E e)) :
    ((∀ a ∈ l, g a) ∧ ∃ b, l.foldlM f init = .ok b ∧ P l b) ∨
      ((¬ ∀ a ∈ l, g a) ∧ ∃ e, l.foldlM f init = .error e ∧ E e) := by
  have key : ∀ (rest done : List α) (b₀ : β), l = done ++ rest → P done b₀ →
      ((∀ a ∈ rest, g a) ∧ ∃ b, rest.foldlM f b₀ = .ok b ∧ P (done ++ rest) b) ∨
        ((¬ ∀ a ∈ rest, g a) ∧ ∃ e, rest.foldlM f b₀ = .error e ∧ E e) := by
    intro rest
    induction rest with
    | nil => exact fun done b₀ _ hP => .inl ⟨by simp, b₀, rfl, by simpa using hP⟩
    | cons a rest ih =>
      intro done b₀ hl hP
      rw [foldlM_cons]
      obtain ⟨ha, b₁, hb₁, hP₁⟩ | ⟨ha, e, he, hE⟩ := hstep done a rest b₀ hl hP
      · rw [hb₁, ok_bind, forall_mem_cons]
        have hrec := ih (done ++ [a]) b₁ (by simpa using hl) hP₁
        simpa only [append_assoc, singleton_append, ha, true_and] using hrec
      · rw [he, error_bind]
        exact .inr ⟨fun hall => ha (hall a (by simp)), e, rfl, hE⟩
  simpa using key l [] init rfl h0

/-- The rule for a loop that does not fail. The invariant speaks about the items to come. -/
theorem foldlM_total {f : β → α → Except ε β}
    (hstep : ∀ a rest b, P (a :: rest) b → ∃ b', f b a = .ok b' ∧ P rest b') :
    ∀ {l : List α} {b : β}, P l b → ∃ b', l.foldlM f b = .ok b' ∧ P [] b'
  | [], b, h => ⟨b, rfl, h⟩
  | a :: l, b, h => by
    obtain ⟨b₁, hb₁, h₁⟩ := hstep a l b h
    rw [foldlM_cons, hb₁, ok_bind]
    exact foldlM_total hstep h₁

variable {g : α → β}

theorem mapM_eq_ok_map : ∀ {l : List α}, (∀ a ∈ l, f a = .ok (g a)) → l.mapM f = .ok (l.map g)
  | [], _ => rfl
  | a :: l, h => by
    rw [mapM_cons, h a (by simp), ok_bind,
      mapM_eq_ok_map fun x hx => h x (mem_cons_of_mem _ hx)]
    rfl

/-- A loop of checks fails at the first item that does not pass. -/
theorem mapM_require {p : α → Prop} [DecidablePred p] (e : α → ε) (g : α → β) (l : List α) :
    l.mapM (fun a => do require (p a) (e a); pure (g a)) =
      (l.find? fun a => ¬ p a).elim (.ok (l.map g)) fun a => .error (e a) := by
  induction l with
  | nil => rfl
  | cons a l ih =>
    rw [mapM_cons, ih]
    by_cases ha : p a
    · rw [require_of_pos ha, ok_bind, find?_cons_of_neg (by simpa using ha)]
      cases l.find? fun a => ¬ p a <;> rfl
    · rw [require_of_neg ha, error_bind, find?_cons_of_pos (by simpa using ha)]
      rfl

variable {l' : List β}

theorem mem_of_mapM_eq_ok (h : l.mapM f = .ok l') (hb : b ∈ l') : ∃ a ∈ l, f a = .ok b := by
  induction l generalizing l' with
  | nil =>
    obtain rfl := Except.ok.inj h
    exact absurd hb not_mem_nil
  | cons a l ih =>
    rw [mapM_cons, bind_eq_ok] at h
    obtain ⟨c, hc, h⟩ := h
    rw [bind_eq_ok] at h
    obtain ⟨rest, hrest, h⟩ := h
    obtain rfl := Except.ok.inj h
    rcases mem_cons.1 hb with rfl | hb
    · exact ⟨a, by simp, hc⟩
    · obtain ⟨a', ha', hfa'⟩ := ih hrest hb
      exact ⟨a', by simp [ha'], hfa'⟩

theorem length_of_mapM_eq_ok (h : l.mapM f = .ok l') : l'.length = l.length := by
  induction l generalizing l' with
  | nil =>
    obtain rfl := Except.ok.inj h
    rfl
  | cons a l ih =>
    rw [mapM_cons, bind_eq_ok] at h
    obtain ⟨b, -, h⟩ := h
    rw [bind_eq_ok] at h
    obtain ⟨rest, hrest, h⟩ := h
    obtain rfl := Except.ok.inj h
    rw [length_cons, length_cons, ih hrest]

theorem mapM_eq_ok_iff {P : α → Prop} (h : ∀ a ∈ l, ∀ b, f a = .ok b ↔ P a ∧ b = g a) :
    l.mapM f = .ok l' ↔ (∀ a ∈ l, P a) ∧ l' = l.map g := by
  induction l generalizing l' with
  | nil => simp [mapM_nil, eq_comm]
  | cons a l ih =>
    rw [forall_mem_cons] at h
    rw [mapM_cons, forall_mem_cons]
    simp only [bind_eq_ok, h.1, ih h.2, pure_eq_ok, Except.ok.injEq]
    constructor
    · rintro ⟨_, ⟨ha, rfl⟩, _, ⟨hl, rfl⟩, rfl⟩
      exact ⟨⟨ha, hl⟩, rfl⟩
    · rintro ⟨⟨ha, hl⟩, rfl⟩
      exact ⟨_, ⟨ha, rfl⟩, _, ⟨hl, rfl⟩, rfl⟩

theorem mapM_map_eq_ok {f : β → Except ε α} {P : α → Prop}
    (h : ∀ a a', f (g a) = .ok a' ↔ a' = a ∧ P a) {l' : List α} :
    (l.map g).mapM f = .ok l' ↔ l' = l ∧ ∀ a ∈ l, P a := by
  have hiff : ∀ a ∈ l, ∀ a', (f ∘ g) a = .ok a' ↔ P a ∧ a' = id a := fun a _ a' =>
    (h a a').trans and_comm
  rw [mapM_map, mapM_eq_ok_iff hiff, map_id, and_comm]

/-! ## What a failed run can end with -/

/-- Every error the run can end with satisfies `E`. -/
def Raises (E : ε → Prop) (x : Except ε α) : Prop := ∀ e, x = .error e → E e

namespace Raises

variable {E : ε → Prop}

theorem ok (a : α) : Raises E (.ok a : Except ε α) := fun _ h => by cases h

variable {e : ε}

theorem error (h : E e) : Raises E (.error e : Except ε α) := fun e' he => by
  cases he
  exact h

theorem bind {x : Except ε α} {f : α → Except ε β} (hx : Raises E x)
    (hf : ∀ a, x = .ok a → Raises E (f a)) : Raises E (x >>= f) := by
  cases hx' : x with
  | error e => exact error (hx e hx')
  | ok a => exact hf a hx'

theorem require {c : Prop} [Decidable c] (h : E e) : Raises E (Check.require c e) := by
  by_cases hc : c
  · rw [require_of_pos hc]
    exact ok ()
  · rw [require_of_neg hc]
    exact error h

theorem orRaise {x : Option α} (h : E e) : Raises E (Check.orRaise x e) := by
  cases x with
  | none => exact error h
  | some a => exact ok a

theorem foldlM {f : β → α → Except ε β} (hf : ∀ b a, Raises E (f b a)) :
    ∀ (l : List α) (b : β), Raises E (l.foldlM f b)
  | [], b => ok b
  | a :: l, b => (hf b a).bind fun b' _ => foldlM hf l b'

theorem mapM {f : α → Except ε β} {l : List α} (hf : ∀ a ∈ l, Raises E (f a)) :
    Raises E (l.mapM f) := by
  induction l with
  | nil => exact ok []
  | cons a l ih =>
    rw [List.mapM_cons]
    refine (hf a mem_cons_self).bind fun b _ => ?_
    exact (ih fun a' ha' => hf a' (mem_cons_of_mem a ha')).bind fun bs _ => ok (b :: bs)

end Raises

/-! ## When two chains agree -/

/-- Both runs succeed with `R`-related results, or both fail with `E`-related errors. -/
def Agree (E : ε → ε' → Prop) (R : α → α' → Prop) : Except ε α → Except ε' α' → Prop
  | .ok a, .ok a' => R a a'
  | .error e, .error e' => E e e'
  | _, _ => False

namespace Agree

variable {E : ε → ε' → Prop} {R : α → α' → Prop} {S : β → β' → Prop}

theorem ok {a : α} {a' : α'} (h : R a a') : Agree E R (.ok a) (.ok a') := h

variable {e : ε} {e' : ε'}

theorem error (h : E e e') : Agree E R (.error e : Except ε α) (.error e' : Except ε' α') := h

variable {x : Except ε α} {x' : Except ε' α'}

theorem cases (h : Agree E R x x') :
    (∃ a a', x = .ok a ∧ x' = .ok a' ∧ R a a') ∨ ∃ e e', x = .error e ∧ x' = .error e' ∧
      E e e' := by
  cases x <;> cases x'
  · exact .inr ⟨_, _, rfl, rfl, h⟩
  · exact h.elim
  · exact h.elim
  · exact .inl ⟨_, _, rfl, rfl, h⟩

theorem imp {R' : α → α' → Prop} (h : Agree E R x x') (hR : ∀ a a', R a a' → R' a a') :
    Agree E R' x x' := by
  cases x <;> cases x' <;> first | exact h | exact hR _ _ h

variable {f' : α' → Except ε' β'}

section

variable {f : α → Except ε β} (h : Agree E R x x')
include h

theorem bind_of_ok (hf : ∀ a a', x = .ok a → R a a' → Agree E S (f a) (f' a')) :
    Agree E S (x >>= f) (x' >>= f') := by
  cases x <;> cases x' <;> first | exact h.elim | exact h | exact hf _ _ rfl h

theorem bind (hf : ∀ a a', R a a' → Agree E S (f a) (f' a')) : Agree E S (x >>= f) (x' >>= f') :=
  h.bind_of_ok fun a a' _ => hf a a'

end

variable {c' : Prop}

theorem require {c : Prop} [Decidable c] [Decidable c'] (hc : c ↔ c') (he : E e e') :
    Agree E (fun _ _ => c) (Check.require c e) (Check.require c' e') := by
  by_cases h : c
  · rw [require_of_pos h, require_of_pos (hc.1 h)]
    exact h
  · rw [require_of_neg h, require_of_neg fun h' => h (hc.2 h')]
    exact he

theorem require_split {c d : Prop} [Decidable c] [Decidable d] [Decidable c'] {e₁ e₂ : ε}
    (he₁ : E e₁ e') (he₂ : E e₂ e') (hc : c ∧ d ↔ c') (h : c' → Agree E R x x') :
    Agree E R (Check.require c e₁ >>= fun _ => Check.require d e₂ >>= fun _ => x)
      (Check.require c' e' >>= fun _ => x') := by
  by_cases h₁ : c
  · by_cases h₂ : d
    · rw [require_of_pos h₁, require_of_pos h₂, require_of_pos (hc.1 ⟨h₁, h₂⟩)]
      exact h (hc.1 ⟨h₁, h₂⟩)
    · rw [require_of_pos h₁, require_of_neg h₂, require_of_neg fun h => h₂ (hc.2 h).2]
      exact he₂
  · rw [require_of_neg h₁, require_of_neg fun h => h₁ (hc.2 h).1]
    exact he₁

theorem orRaise {x : Option α} (he : E e e') :
    Agree E (fun a a' => a = a' ∧ x = some a) (Check.orRaise x e) (Check.orRaise x e') := by
  cases x with
  | none => exact he
  | some a => exact ⟨rfl, rfl⟩

theorem foldlM {f : β → α → Except ε β} {g : β' → α → Except ε' β'}
    (hf : ∀ b b' a, S b b' → Agree E S (f b a) (g b' a)) :
    ∀ (l : List α) {b : β} {b' : β'}, S b b' → Agree E S (l.foldlM f b) (l.foldlM g b')
  | [], _, _, h => h
  | a :: l, b, b', h => by
    rw [foldlM_cons, foldlM_cons]
    exact (hf b b' a h).bind fun _ _ h' => foldlM hf l h'

end Agree

end Check
