import Mathlib.Data.List.Basic

/-!
# Loops

A loop that says `none` when it ends is run with fuel, and `none` is a run that the fuel does not
suffice for. With a measure that goes down in every turn it ends (`While.run_ends`).

`untilRefused` runs a body over a list and stops at the first element it refuses, in the state the
body leaves then. `visited` are the states it passes. The rules follow the list: an invariant speaks
of the elements done and the elements to come.
-/

namespace While

variable {σ : Type*}

def run (step : σ → Option σ) : Nat → σ → Option σ
  | 0, _ => none
  | fuel + 1, s =>
    match step s with
    | none => some s
    | some s' => run step fuel s'

theorem run_ends (step : σ → Option σ) (fuel : Nat) (s : σ) (I : σ → Prop) (measure : σ → Nat)
    (hstep : ∀ s s', I s → step s = some s' → I s' ∧ measure s' < measure s) (hs : I s)
    (hfuel : measure s < fuel) : ∃ s', run step fuel s = some s' ∧ I s' ∧ step s' = none := by
  induction fuel generalizing s with
  | zero => exact absurd hfuel (Nat.not_lt_zero _)
  | succ fuel ih =>
    rw [run]
    cases h : step s with
    | none => exact ⟨s, rfl, hs, h⟩
    | some s₁ =>
      obtain ⟨h₁, hlt⟩ := hstep s s₁ hs h
      exact ih s₁ h₁ (by omega)

end While

namespace Loop

variable {σ α : Type}

/-- A loop that stops at the first element its body refuses. -/
def untilRefused (body : σ → α → Bool × σ) : List α → σ → Bool × σ
  | [], s => (true, s)
  | a :: as, s =>
    match body s a with
    | (true, s) => untilRefused body as s
    | (false, s) => (false, s)

/-- The states the loop passes, the first and the last included. -/
def visited (body : σ → α → Bool × σ) : List α → σ → List σ
  | [], s => [s]
  | a :: as, s =>
    match body s a with
    | (true, s') => s :: visited body as s'
    | (false, s') => [s, s']

variable {body : σ → α → Bool × σ} {as : List α} {s : σ}

theorem untilRefused_ok (I : List α → List α → σ → Prop)
    (hstep : ∀ done a rest s s', I done (a :: rest) s → body s a = (true, s') →
      I (done ++ [a]) rest s')
    (done : List α) {s' : σ} (hs : I done as s) (h : untilRefused body as s = (true, s')) :
    I (done ++ as) [] s' := by
  induction as generalizing done s with
  | nil =>
    obtain rfl := (Prod.mk.inj h).2
    rwa [List.append_nil]
  | cons a as ih =>
    rw [untilRefused] at h
    split at h
    case h_1 s₁ heq => simpa using ih (done ++ [a]) (hstep done a as s s₁ hs heq) h
    case h_2 s₁ heq => exact absurd (Prod.mk.inj h).1 Bool.false_ne_true

theorem untilRefused_total (I : List α → List α → σ → Prop)
    (hstep : ∀ done a rest s, I done (a :: rest) s → ∃ s', body s a = (true, s') ∧
      I (done ++ [a]) rest s')
    (done : List α) (hs : I done as s) :
    ∃ s', untilRefused body as s = (true, s') ∧ I (done ++ as) [] s' := by
  induction as generalizing done s with
  | nil => exact ⟨s, rfl, by rwa [List.append_nil]⟩
  | cons a as ih =>
    obtain ⟨s₁, heq, h₁⟩ := hstep done a as s hs
    obtain ⟨s', hrest, h'⟩ := ih (done ++ [a]) h₁
    exact ⟨s', by rw [untilRefused, heq]; exact hrest, by simpa using h'⟩

theorem forall_visited (I : Nat → σ → Prop) (Q : σ → Prop) (hQ : ∀ n s, I n s → n ≤ as.length → Q s)
    (htrue : ∀ n s a s', I n s → body s a = (true, s') → I (n + 1) s')
    (hfalse : ∀ n s a s', I n s → n < as.length → body s a = (false, s') → Q s')
    (hs : I 0 s) : ∀ s' ∈ visited body as s, Q s' := by
  suffices h : ∀ (bs : List α) (n : Nat) (s : σ), n + bs.length = as.length → I n s →
      ∀ s' ∈ visited body bs s, Q s' from h as 0 s (Nat.zero_add _) hs
  intro bs
  induction bs with
  | nil =>
    intro n s hn hI s' hs'
    obtain rfl := List.mem_singleton.1 hs'
    exact hQ n s' hI (by simp at hn; omega)
  | cons b bs ih =>
    intro n s hn hI s' hs'
    rw [List.length_cons] at hn
    rw [visited] at hs'
    split at hs'
    case h_1 s₁ heq =>
      rcases List.mem_cons.1 hs' with rfl | hs'
      · exact hQ n s' hI (by omega)
      · exact ih (n + 1) s₁ (by omega) (htrue n s b s₁ hI heq) s' hs'
    case h_2 s₁ heq =>
      rcases List.mem_cons.1 hs' with rfl | hs'
      · exact hQ n s' hI (by omega)
      · obtain rfl := List.mem_singleton.1 hs'
        exact hfalse n s b s' hI (by omega) heq

end Loop
