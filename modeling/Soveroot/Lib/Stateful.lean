import Mathlib.Logic.Basic

/-!
# Computations with a state that survives exceptions

A method of an object may raise after it has changed the object, and the changes stay.
`Ensures P x Q E` is the triple for such computations: from a state in `P`, `x` returns with `Q` or
raises with `E`. `Agree R x y` relates two of them. Both have one rule per construct.
-/

/-- A computation on a state `σ` that may raise `ε`. -/
def Stateful (σ ε α : Type) : Type := σ → Except ε α × σ

namespace Stateful

open List

variable {σ τ ε α β : Type}

def next (f : α → Stateful σ ε β) : Except ε α × σ → Except ε β × σ
  | (.ok a, s) => f a s
  | (.error e, s) => (.error e, s)

instance : Monad (Stateful σ ε) where
  pure a := fun s => (.ok a, s)
  bind x f := fun s => next f (x s)

theorem bind_apply (x : Stateful σ ε α) (f : α → Stateful σ ε β) (s : σ) :
    (x >>= f) s = next f (x s) := rfl

def read : Stateful σ ε σ := fun s => (.ok s, s)

def update (f : σ → σ) : Stateful σ ε Unit := fun s => (.ok (), f s)

def raise (e : ε) : Stateful σ ε α := fun s => (.error e, s)

def check (x : Except ε α) : Stateful σ ε α := fun s => (x, s)

theorem check_ok_bind (a : α) (f : α → Stateful σ ε β) : (check (.ok a) >>= f) = f a := rfl

/-! ## One computation -/

/-- An outcome is a return with `Q` or an exception with `E`. -/
def Holds (Q : α → σ → Prop) (E : ε → σ → Prop) : Except ε α × σ → Prop
  | (.ok a, s) => Q a s
  | (.error e, s) => E e s

/-- From `P`, the computation returns with `Q` or raises with `E`. -/
def Ensures (P : σ → Prop) (x : Stateful σ ε α) (Q : α → σ → Prop) (E : ε → σ → Prop) : Prop :=
  ∀ s, P s → Holds Q E (x s)

namespace Ensures

variable {P P' : σ → Prop} {Q : α → σ → Prop} {E : ε → σ → Prop} {R : β → σ → Prop}

theorem pure {a : α} (h : ∀ s, P s → Q a s) : Ensures P (Pure.pure a) Q E := h

theorem raise {e : ε} (h : ∀ s, P s → E e s) : Ensures P (Stateful.raise e) Q E := h

theorem read {Q : σ → σ → Prop} (h : ∀ s, P s → Q s s) : Ensures P Stateful.read Q E := h

theorem update {f : σ → σ} {Q : Unit → σ → Prop} (h : ∀ s, P s → Q () (f s)) :
    Ensures P (Stateful.update f) Q E := h

theorem check {x : Except ε α} (hok : ∀ a, x = .ok a → ∀ s, P s → Q a s)
    (herror : ∀ e s, P s → E e s) : Ensures P (Stateful.check x) Q E := by
  intro s hs
  cases x with
  | ok a => exact hok a rfl s hs
  | error e => exact herror e s hs

variable {x : Stateful σ ε α}

theorem bind {f : α → Stateful σ ε β} (hx : Ensures P x Q E) (hf : ∀ a, Ensures (Q a) (f a) R E) :
    Ensures P (x >>= f) R E := by
  intro s hs
  have h := hx s hs
  rw [bind_apply]
  match hxs : x s with
  | (.ok a, s') => exact hf a s' (by rwa [hxs] at h)
  | (.error e, s') => rwa [hxs] at h

theorem read_bind {f : σ → Stateful σ ε β} (h : ∀ s, P s → Ensures (· = s) (f s) R E) :
    Ensures P (Stateful.read >>= f) R E := fun s hs => h s hs s rfl

theorem ite {c : Prop} [Decidable c] {y : Stateful σ ε α} (hx : c → Ensures P x Q E)
    (hy : ¬ c → Ensures P y Q E) : Ensures P (if c then x else y) Q E := by
  by_cases hc : c
  · rw [if_pos hc]
    exact hx hc
  · rw [if_neg hc]
    exact hy hc

theorem after {S : σ → Prop} (h : Ensures P x (fun _ => S) fun _ => S) {s : σ} (hs : P s) :
    S (x s).2 := by
  have hx := h s hs
  match hxs : x s with
  | (.ok a, s') => rwa [hxs] at hx
  | (.error e, s') => rwa [hxs] at hx

variable {f : β → Nat → Stateful σ ε β} {I : Nat → β → σ → Prop} {n : Nat}

theorem foldlM_range' {a : Nat}
    (h : ∀ i b, a ≤ i → i < a + n → Ensures (I i b) (f b i) (I (i + 1)) E) (b : β) :
    Ensures (I a b) ((range' a n).foldlM f b) (I (a + n)) E := by
  induction n generalizing a b with
  | zero => exact pure fun s hs => hs
  | succ n ih =>
    refine bind (h a b (Nat.le_refl a) (by omega)) fun b' => ?_
    have hrest := ih (a := a + 1) (fun i b hi hlt => h i b (by omega) (by omega)) b'
    rwa [Nat.add_assoc, Nat.add_comm 1] at hrest

theorem foldlM_range (h : ∀ i b, i < n → Ensures (I i b) (f b i) (I (i + 1)) E) (b : β) :
    Ensures (I 0 b) ((range n).foldlM f b) (I n) E := by
  rw [range_eq_range']
  have hloop := foldlM_range' (I := I) (a := 0) (n := n) (fun i b _ hlt => h i b (by omega)) b
  rwa [Nat.zero_add] at hloop

theorem imp {Q' : α → σ → Prop} {E' : ε → σ → Prop} (h : Ensures P x Q E) (hP : ∀ s, P' s → P s)
    (hQ : ∀ a s, Q a s → Q' a s) (hE : ∀ e s, E e s → E' e s) : Ensures P' x Q' E' := by
  intro s hs
  have hx := h s (hP s hs)
  match hxs : x s with
  | (.ok a, s') => exact hQ a s' (by rwa [hxs] at hx)
  | (.error e, s') => exact hE e s' (by rwa [hxs] at hx)

end Ensures

/-! ## Two computations -/

/-- From related states the computations have the same outcome and end in related states, unless the
second one raises an exception that excuses it. -/
def Agree (excuse : ε → Prop) (R : σ → τ → Prop) (x : Stateful σ ε α) (y : Stateful τ ε α) : Prop :=
  ∀ s t, R s t → (∃ e, (y t).1 = .error e ∧ excuse e) ∨ (x s).1 = (y t).1 ∧ R (x s).2 (y t).2

namespace Agree

variable {excuse : ε → Prop} {R : σ → τ → Prop}

theorem pure (a : α) : Agree excuse R (Pure.pure a : Stateful σ ε α) (Pure.pure a) :=
  fun _ _ h => .inr ⟨rfl, h⟩

theorem raise (e : ε) : Agree excuse R (Stateful.raise e : Stateful σ ε α) (Stateful.raise e) :=
  fun _ _ h => .inr ⟨rfl, h⟩

theorem check (x : Except ε α) :
    Agree excuse R (Stateful.check x : Stateful σ ε α) (Stateful.check x) :=
  fun _ _ h => .inr ⟨rfl, h⟩

theorem update {f : σ → σ} {g : τ → τ} (h : ∀ s t, R s t → R (f s) (g t)) :
    Agree excuse R (Stateful.update f : Stateful σ ε Unit) (Stateful.update g) :=
  fun s t hst => .inr ⟨rfl, h s t hst⟩

theorem bind {x : Stateful σ ε α} {y : Stateful τ ε α} {f : α → Stateful σ ε β}
    {g : α → Stateful τ ε β} (hx : Agree excuse R x y) (hf : ∀ a, Agree excuse R (f a) (g a)) :
    Agree excuse R (x >>= f) (y >>= g) := by
  intro s t hst
  rw [bind_apply, bind_apply]
  rcases hx s t hst with ⟨e, he, hexcuse⟩ | h
  · match hyt : y t with
    | (.error e', t') =>
      rw [hyt] at he
      exact .inl ⟨e, congrArg Except.error (Except.error.inj he), hexcuse⟩
    | (.ok b, t') =>
      rw [hyt] at he
      cases he
  · match hxs : x s, hyt : y t with
    | (.error e, s'), (.error e', t') =>
      rw [hxs, hyt] at h
      exact .inr ⟨congrArg Except.error (Except.error.inj h.1), h.2⟩
    | (.ok a, s'), (.ok b, t') =>
      rw [hxs, hyt] at h
      obtain rfl := Except.ok.inj h.1
      exact hf a s' t' h.2
    | (.error e, s'), (.ok b, t') =>
      rw [hxs, hyt] at h
      cases h.1
    | (.ok a, s'), (.error e, t') =>
      rw [hxs, hyt] at h
      cases h.1

theorem read_bind {f : σ → Stateful σ ε β} {g : τ → Stateful τ ε β}
    (h : ∀ s t, R s t → Agree excuse R (f s) (g t)) :
    Agree excuse R (Stateful.read >>= f) (Stateful.read >>= g) :=
  fun s t hst => h s t hst s t hst

theorem foldlM {γ : Type} {f : β → γ → Stateful σ ε β} {g : β → γ → Stateful τ ε β}
    (h : ∀ b c, Agree excuse R (f b c) (g b c)) (l : List γ) (b : β) :
    Agree excuse R (l.foldlM f b) (l.foldlM g b) := by
  induction l generalizing b with
  | nil => exact pure b
  | cons c l ih => exact bind (h b c) ih

end Agree

/-! ## Loops -/

instance : LawfulMonad (Stateful σ ε) := by
  refine LawfulMonad.mk' _ (fun x => funext fun s => ?_) (fun _ _ => rfl)
    (fun x f g => funext fun s => ?_)
  · change next _ (x s) = x s
    rcases x s with ⟨_ | _, _⟩ <;> rfl
  · change next g (next f (x s)) = next _ (x s)
    rcases x s with ⟨_ | _, _⟩ <;> rfl

variable (f : β → Nat → Stateful σ ε β)

theorem foldlM_range_mul (n k : Nat) (b : β) :
    (range n).foldlM (fun b i => (range k).foldlM (fun b j => f b (i * k + j)) b) b =
      (range (n * k)).foldlM f b := by
  induction n with
  | zero => rw [Nat.zero_mul]; rfl
  | succ n ih =>
    rw [range_succ, foldlM_append, ih, Nat.succ_mul, range_add, foldlM_append]
    simp [foldlM_map]

theorem foldlM_range_succ (n : Nat) (b : β) (s : σ) :
    (range (n + 1)).foldlM f b s = next (fun b => f b n) ((range n).foldlM f b s) := by
  rw [range_succ, foldlM_append, bind_apply]
  simp only [foldlM_cons, foldlM_nil, bind_pure]

end Stateful
