import Mathlib.Data.List.Basic
import Mathlib.Data.List.Induction
import Mathlib.Data.List.Infix

/-!
# Programs with a disk and a network

A program works on a state in memory, may write that state to a disk, may produce events that
others can see, and may wait for messages. Which of the coming writes succeed and which messages
arrive is fixed in advance. The states written and the events produced are the *log*; a crash keeps
a part of the log from its start and forgets the memory.

A program is compared with a transition system on memory and log. `Sim` says that a run of the
program is a sequence of moves of the system; it is built up along the program. What every move
keeps, the program then keeps (`Moves.induct`), up to every point at which it can crash
(`Moves.exists_log`).
-/

namespace Journal

open List

variable {S E R X α β : Type}

/-- What a run leaves behind. -/
inductive Entry (S E : Type) where
  /-- The state was written to disk. -/
  | saved (s : S)
  /-- Something happened that others can see. -/
  | event (e : E)

/-- A process: its memory, and all it has left behind. -/
structure Node (S E : Type) where
  mem : S
  log : List (Entry S E)

/-- A process and what the outside has in store for it. -/
structure World (S E R : Type) extends Node S E where
  /-- Which of the coming writes succeed. After the end of the list all of them do. -/
  saves : List Bool
  /-- The messages that will arrive. -/
  replies : List R

def disk (log : List (Entry S E)) : Option S :=
  log.foldl (fun d entry => match entry with
    | .saved s => some s
    | .event _ => d) none

@[simp] theorem disk_saved (log : List (Entry S E)) (s : S) :
    disk (log ++ [.saved s]) = some s := by
  simp [disk]

@[simp] theorem disk_event (log : List (Entry S E)) (e : E) :
    disk (log ++ [.event e]) = disk log := by
  simp [disk]

/-- What a new process starts from: the state on disk, or `init`. -/
def durable (init : S) (log : List (Entry S E)) : S := (disk log).getD init

@[simp] theorem durable_saved (init : S) (log : List (Entry S E)) (s : S) :
    durable init (log ++ [.saved s]) = s := by
  rw [durable, disk_saved, Option.getD_some]

@[simp] theorem durable_event (init : S) (log : List (Entry S E)) (e : E) :
    durable init (log ++ [.event e]) = durable init log := by
  rw [durable, disk_event, durable]

theorem durable_append (init : S) (log added : List (Entry S E)) :
    durable init (log ++ added) = durable init log ∨
      .saved (durable init (log ++ added)) ∈ added := by
  induction added using reverseRecOn with
  | nil => exact .inl (by rw [append_nil])
  | append_singleton added entry ih =>
    rw [← append_assoc]
    cases entry with
    | saved s =>
      rw [durable_saved]
      exact .inr (mem_append_right _ mem_cons_self)
    | event e =>
      rw [durable_event]
      exact ih.imp_right fun h => mem_append_left _ h

theorem durable_cases (init : S) (log : List (Entry S E)) :
    durable init log = init ∨ .saved (durable init log) ∈ log :=
  durable_append init [] log

def events (log : List (Entry S E)) : List E :=
  log.filterMap fun
    | .saved _ => none
    | .event e => some e

@[simp] theorem events_saved (log : List (Entry S E)) (s : S) :
    events (log ++ [.saved s]) = events log := by
  simp [events]

@[simp] theorem events_event (log : List (Entry S E)) (e : E) :
    events (log ++ [.event e]) = events log ++ [e] := by
  simp [events]

/-! ## Programs -/

/-- A program that returns an `α` or raises an `X`. What it did before it raised remains done. -/
def Prog (S E R X α : Type) : Type := World S E R → Except X α × World S E R

namespace Prog

instance : Monad (Prog S E R X) where
  pure a := fun w => (.ok a, w)
  bind x f := fun w =>
    match x w with
    | (.ok a, w') => f a w'
    | (.error e, w') => (.error e, w')

/-- Read the memory. -/
def mem : Prog S E R X S := fun w => (.ok w.mem, w)

def update (f : S → S) : Prog S E R X Unit := fun w => (.ok (), { w with mem := f w.mem })

def lift (x : Except X α) : Prog S E R X α := fun w => (x, w)

/-- Write the memory to disk, or raise `failure` and leave the disk as it was. -/
def save (failure : X) : Prog S E R X Unit := fun w =>
  match w.saves with
  | false :: saves => (.error failure, { w with saves := saves })
  | _ => (.ok (), { w with log := w.log ++ [.saved w.mem], saves := w.saves.tail })

def emit (e : E) : Prog S E R X Unit := fun w => (.ok (), { w with log := w.log ++ [.event e] })

/-- Change the memory and write it; when that succeeds, produce events. -/
def commit (f : S → S) (failure : X) (es : List E) : Prog S E R X Unit := do
  update f
  save failure
  es.forM emit

def receive (failure : X) : Prog S E R X R := fun w =>
  match w.replies with
  | [] => (.error failure, w)
  | r :: replies => (.ok r, { w with replies := replies })

variable {x : Prog S E R X α} {f : α → Prog S E R X β} {w w' : World S E R}

theorem bind_ok {a : α} (h : x w = (.ok a, w')) : (x >>= f) w = f a w' := by
  show (match x w with
    | (.ok a, w') => f a w'
    | (.error e, w') => (.error e, w')) = f a w'
  rw [h]

theorem bind_error {e : X} (h : x w = (.error e, w')) : (x >>= f) w = (.error e, w') := by
  show (match x w with
    | (.ok a, w') => f a w'
    | (.error e, w') => (.error e, w')) = (.error e, w')
  rw [h]

theorem save_cases (failure : X) (w : World S E R) :
    save failure w =
        (.ok (), { w with log := w.log ++ [.saved w.mem], saves := w.saves.tail }) ∨
      (false ∈ w.saves ∧ save failure w = (.error failure, { w with saves := w.saves.tail })) := by
  cases hs : w.saves with
  | nil => exact .inl (by simp only [save, hs])
  | cons b saves =>
    cases b with
    | false => exact .inr ⟨mem_cons_self, by simp only [save, hs, tail_cons]⟩
    | true => exact .inl (by simp only [save, hs])

def committed (w : World S E R) (f : S → S) (es : List E) : World S E R :=
  { w with
    mem := f w.mem
    log := w.log ++ .saved (f w.mem) :: es.map .event
    saves := w.saves.tail }

theorem forM_emit (es : List E) (w : World S E R) :
    (es.forM emit : Prog S E R X Unit) w = (.ok (), { w with log := w.log ++ es.map .event }) := by
  induction es generalizing w with
  | nil =>
    rw [map_nil, append_nil]
    rfl
  | cons e es ih =>
    have hcons := ih { w with log := w.log ++ [.event e] }
    rw [append_assoc, singleton_append] at hcons
    exact hcons

theorem commit_cases (f : S → S) (failure : X) (es : List E) (w : World S E R) :
    commit f failure es w = (.ok (), committed w f es) ∨
      (false ∈ w.saves ∧
        commit f failure es w =
        (.error failure, { w with mem := f w.mem, saves := w.saves.tail })) := by
  have hrun : commit f failure es w =
      (save failure >>= fun _ => (es.forM emit : Prog S E R X Unit)) { w with mem := f w.mem } :=
    bind_ok (x := update f) rfl
  rw [hrun]
  rcases save_cases failure { w with mem := f w.mem } with hsave | ⟨hfalse, hsave⟩
  · left
    rw [bind_ok hsave, forM_emit, committed, append_assoc, singleton_append]
  · right
    rw [bind_error hsave]
    exact ⟨hfalse, rfl⟩

end Prog

/-! ## Moves -/

/-- What is counted about a move. -/
inductive Label where
  | plain
  /-- A message is about to be sent. -/
  | send
  /-- The memory has changed and could not be written. -/
  | unsaved
  deriving DecidableEq

section Moves

variable (move : Node S E → Label → Node S E → Prop)

inductive Moves (n : Node S E) : List Label → Node S E → Prop where
  | refl : Moves n [] n
  | tail {ls : List Label} {m m' : Node S E} {l : Label} (h : Moves n ls m) (hm : move m l m') :
      Moves n (ls ++ [l]) m'

variable {move} {n m m' : Node S E} {ls ls' : List Label} {l : Label}

theorem Moves.single (h : move n l m) : Moves move n [l] m := .tail .refl h

theorem Moves.trans (h : Moves move n ls m) (h' : Moves move m ls' m') :
    Moves move n (ls ++ ls') m' := by
  induction h' with
  | refl => simpa using h
  | tail _ hm ih => rw [← append_assoc]; exact .tail ih hm

theorem Moves.induct {I : Node S E → Prop} (hI : ∀ n l m, move n l m → I n → I m)
    (h : Moves move n ls m) (hn : I n) : I m := by
  induction h with
  | refl => exact hn
  | tail _ hm ih => exact hI _ _ _ hm ih

theorem Moves.induct_sends {I : Nat → Node S E → Prop}
    (hsend : ∀ n m k, move n .send m → I (k + 1) n → I k m)
    (hother : ∀ n l m k, l ≠ .send → move n l m → I k n → I k m)
    (h : Moves move n ls m) {k : Nat} (hn : I (k + ls.count .send) n) : I k m := by
  induction h generalizing k with
  | refl => exact hn
  | @tail ls m m' l _ hm ih =>
    by_cases hl : l = .send
    · subst hl
      refine hsend _ _ k hm (ih ?_)
      rw [count_append, count_singleton_self] at hn
      rwa [Nat.add_right_comm, Nat.add_assoc]
    · refine hother _ _ _ k hl hm (ih ?_)
      rwa [count_append, count_singleton, beq_eq_false_iff_ne.2 hl] at hn

/-- A sequence of moves goes through every log between its first and its last, if each move
does. -/
theorem Moves.exists_log (hlog : ∀ n l m, move n l m → n.log <+: m.log)
    (hmove : ∀ n l m, move n l m → ∀ p, n.log <+: p → p <+: m.log →
      ∃ ls m', Moves move n ls m' ∧ m'.log = p)
    (h : Moves move n ls m) {p : List (Entry S E)} (hn : n.log <+: p) (hm : p <+: m.log) :
    ∃ ls m', Moves move n ls m' ∧ m'.log = p := by
  induction h with
  | refl => exact ⟨[], n, .refl, hn.eq_of_length_le hm.length_le⟩
  | @tail ls m m' l hmoves hlast ih =>
    rcases Nat.le_total p.length m.log.length with hle | hle
    · exact ih (prefix_of_prefix_length_le hm (hlog _ _ _ hlast) hle)
    · obtain ⟨ls', m₁, h₁, hp⟩ := hmove _ _ _ hlast p
        (prefix_of_prefix_length_le (hlog _ _ _ hlast) hm hle) hm
      exact ⟨_, m₁, hmoves.trans h₁, hp⟩

end Moves

/-! ## Simulation -/

section Simulation

variable (move : Node S E → Label → Node S E → Prop) (T : R → Prop)

/-- From `w` to `w'` by moves, of which those that send number at most `c` more than the messages
taken from the outside. -/
structure Traced (c : Int) (w w' : World S E R) : Prop where
  moves : ∃ ls, Moves move w.toNode ls w'.toNode ∧
    (ls.count .send : Int) + w'.replies.length ≤ w.replies.length + c ∧
    (.unsaved ∈ ls → false ∈ w.saves)
  replies : w'.replies <:+ w.replies
  saves : w'.saves <:+ w.saves

/-- Runs of `x` from worlds with `P`, when the messages that arrive satisfy `T`, are sequences of
moves. A run that returns ends with `Q` and sends at most `c` messages more than it receives; one
that raises, at most `e` more. -/
def Sim (c e : Int) (P : World S E R → Prop) (x : Prog S E R X α) (Q : α → World S E R → Prop) :
    Prop :=
  ∀ w, (∀ r ∈ w.replies, T r) → P w →
    (∀ a, (x w).1 = .ok a → Traced move c w (x w).2 ∧ Q a (x w).2) ∧
      ∀ err, (x w).1 = .error err → Traced move e w (x w).2

variable {move T}

namespace Traced

variable {c c' : Int} {w w' w'' : World S E R}

theorem refl (w : World S E R) : Traced move 0 w w :=
  ⟨⟨[], .refl, by simp, by simp⟩, suffix_refl _, suffix_refl _⟩

theorem trans (h : Traced move c w w') (h' : Traced move c' w' w'') :
    Traced move (c + c') w w'' := by
  obtain ⟨ls, hmoves, hcount, hsaved⟩ := h.moves
  obtain ⟨ls', hmoves', hcount', hsaved'⟩ := h'.moves
  refine ⟨⟨ls ++ ls', hmoves.trans hmoves', ?_, ?_⟩, h'.replies.trans h.replies,
    h'.saves.trans h.saves⟩
  · rw [count_append]
    omega
  · intro hmem
    rcases mem_append.1 hmem with hmem | hmem
    · exact hsaved hmem
    · exact h.saves.subset (hsaved' hmem)

theorem mono (h : Traced move c w w') (hc : c ≤ c') : Traced move c' w w' := by
  obtain ⟨ls, hmoves, hcount, hsaved⟩ := h.moves
  exact ⟨⟨ls, hmoves, by omega, hsaved⟩, h.replies, h.saves⟩

theorem of_move {l : Label} {mem : S} {log : List (Entry S E)}
    (h : move w.toNode l ⟨mem, log⟩) (hl : l ≠ .unsaved)
    (hc : (if l = .send then 1 else 0) ≤ c) :
    Traced move c w { w with mem := mem, log := log } := by
  refine ⟨⟨[l], .single h, ?_, ?_⟩, suffix_refl _, suffix_refl _⟩
  · cases l <;> simp at hc ⊢ <;> omega
  · intro hmem
    exact absurd (mem_singleton.1 hmem).symm hl

end Traced

namespace Sim

variable {c c' e e' : Int} {P P' : World S E R → Prop} {Q Q' : α → World S E R → Prop}
  {x : Prog S E R X α} {f : α → Prog S E R X β} {Z : β → World S E R → Prop}

theorem weaken (h : Sim move T c e P x Q) (hP : ∀ w, P' w → P w) (hQ : ∀ a w, Q a w → Q' a w)
    (hc : c ≤ c') (he : e ≤ e') : Sim move T c' e' P' x Q' := by
  intro w hT hw
  obtain ⟨hok, herror⟩ := h w hT (hP w hw)
  refine ⟨fun a ha => ?_, fun err herr => (herror err herr).mono he⟩
  obtain ⟨htraced, hq⟩ := hok a ha
  exact ⟨htraced.mono hc, hQ a _ hq⟩

theorem pre (h : Sim move T c e P x Q) (hP : ∀ w, P' w → P w) : Sim move T c e P' x Q :=
  h.weaken hP (fun _ _ hq => hq) (Int.le_refl _) (Int.le_refl _)

theorem assume {p : Prop} (h : p → Sim move T c e P x Q) :
    Sim move T c e (fun w => P w ∧ p) x Q :=
  fun w hT hw => h hw.2 w hT hw.1

theorem pure {a : α} (h : ∀ w, P w → Q a w) (hc : 0 ≤ c) :
    Sim move T c e P (pure a : Prog S E R X α) Q := by
  intro w _ hw
  refine ⟨fun b hb => ?_, fun err herr => (by cases herr)⟩
  obtain rfl := Except.ok.inj hb
  exact ⟨(Traced.refl w).mono hc, h w hw⟩

variable {y : Except X α}

theorem lift (h : ∀ a w, y = .ok a → P w → Q a w) (hc : 0 ≤ c) (he : 0 ≤ e) :
    Sim move T c e P (Prog.lift y) Q := by
  intro w _ hw
  exact ⟨fun a ha => ⟨(Traced.refl w).mono hc, h a w ha hw⟩, fun _ _ => (Traced.refl w).mono he⟩

theorem bind {c₁ c₂ e₁ e₂ : Int} (hx : Sim move T c₁ e₁ P x Q)
    (hf : ∀ a, Sim move T c₂ e₂ (Q a) (f a) Z) (hc : c₁ + c₂ ≤ c) (he₁ : e₁ ≤ e)
    (he₂ : c₁ + e₂ ≤ e) : Sim move T c e P (x >>= f) Z := by
  intro w hT hw
  obtain ⟨hok, herror⟩ := hx w hT hw
  cases hxw : x w with
  | mk result w' =>
    rw [hxw] at hok herror
    cases result with
    | error err =>
      rw [Prog.bind_error hxw]
      exact ⟨fun b hb => (by cases hb), fun _ _ => (herror err rfl).mono he₁⟩
    | ok a =>
      rw [Prog.bind_ok hxw]
      obtain ⟨htraced, hq⟩ := hok a rfl
      obtain ⟨hok', herror'⟩ := hf a w' (fun r hr => hT r (htraced.replies.subset hr)) hq
      refine ⟨fun b hb => ?_, fun err herr => (htraced.trans (herror' err herr)).mono he₂⟩
      obtain ⟨htraced', hz⟩ := hok' b hb
      exact ⟨(htraced.trans htraced').mono hc, hz⟩

theorem seq (hx : Sim move T 0 e P x Q) (hf : ∀ a, Sim move T c e (Q a) (f a) Z) :
    Sim move T c e P (x >>= f) Z :=
  hx.bind hf (by omega) (Int.le_refl _) (by omega)

theorem after_send {a : Int} (hx : Sim move T 1 1 P x Q)
    (hf : ∀ b, Sim move T a 0 (Q b) (f b) Z) (hc : 1 + a = c) :
    Sim move T c 1 P (x >>= f) Z :=
  hx.bind hf (Int.le_of_eq hc) (Int.le_refl _) (by omega)

theorem after_receive (hx : Sim move T (-1) 0 P x Q) (hf : ∀ a, Sim move T 0 0 (Q a) (f a) Z) :
    Sim move T (-1) 0 P (x >>= f) Z :=
  hx.bind hf (by decide) (by decide) (by decide)

theorem ret {g : α → β} (hx : Sim move T c e P x Q) (hQ : ∀ a w, Q a w → Z (g a) w) :
    Sim move T c e P (x >>= fun a => Pure.pure (g a)) Z := by
  -- returning does not raise, so any bound will do for that
  exact hx.bind (fun a => Sim.pure (c := 0) (e := e - c) (hQ a) (Int.le_refl _)) (by omega)
    (Int.le_refl _) (by omega)

theorem bind_mem {f : S → Prog S E R X β}
    (h : ∀ s, Sim move T c e (fun w => P w ∧ w.mem = s) (f s) Z) :
    Sim move T c e P (Prog.mem >>= f) Z := by
  intro w hT hw
  exact h w.mem w hT ⟨hw, rfl⟩

theorem bind_lift (he : 0 ≤ e) (h : ∀ a, y = .ok a → Sim move T c e P (f a) Z) :
    Sim move T c e P (Prog.lift y >>= f) Z := by
  intro w hT hw
  cases hy : y with
  | error err =>
    exact ⟨fun b hb => (by cases hb), fun _ _ => (Traced.refl w).mono he⟩
  | ok a => exact h a hy w hT hw

variable {g : S → S} {failure : X}

section

variable {Q : Unit → World S E R → Prop}

theorem update (hmove : ∀ w, P w → move w.toNode .plain ⟨g w.mem, w.log⟩)
    (hQ : ∀ w, P w → Q () { w with mem := g w.mem }) (hc : 0 ≤ c) :
    Sim move T c e P (Prog.update g : Prog S E R X Unit) Q := by
  intro w _ hw
  refine ⟨fun _ _ => ⟨?_, hQ w hw⟩, fun err herr => (by cases herr)⟩
  exact Traced.of_move (hmove w hw) (by decide) (by simpa using hc)

theorem save (hmove : ∀ w, P w → move w.toNode .plain ⟨w.mem, w.log ++ [.saved w.mem]⟩)
    (hQ : ∀ w saves, P w → Q () { w with log := w.log ++ [.saved w.mem], saves := saves })
    (hc : 0 ≤ c) (he : 0 ≤ e) : Sim move T c e P (Prog.save failure) Q := by
  intro w _ hw
  rcases Prog.save_cases failure w with hrun | ⟨-, hrun⟩
  · rw [hrun]
    refine ⟨fun _ _ => ⟨?_, hQ w _ hw⟩, fun err herr => (by cases herr)⟩
    obtain ⟨hmoves, hreplies, -⟩ :=
      Traced.of_move (c := c) (hmove w hw) (by decide) (by simpa using hc)
    exact ⟨hmoves, hreplies, tail_suffix _⟩
  · rw [hrun]
    refine ⟨fun a ha => (by cases ha), fun _ _ => ?_⟩
    exact ⟨((Traced.refl w).mono he).moves, suffix_refl _, tail_suffix _⟩

theorem emit {ev : E} (hmove : ∀ w, P w → move w.toNode .plain ⟨w.mem, w.log ++ [.event ev]⟩)
    (hQ : ∀ w, P w → Q () { w with log := w.log ++ [.event ev] }) (hc : 0 ≤ c) :
    Sim move T c e P (Prog.emit ev : Prog S E R X Unit) Q := by
  intro w _ hw
  refine ⟨fun _ _ => ⟨?_, hQ w hw⟩, fun err herr => (by cases herr)⟩
  exact Traced.of_move (hmove w hw) (by decide) (by simpa using hc)

/-- A commit is one sequence of moves when it is written and another when it is not. -/
theorem commit {es : List E}
    (hfail : ∀ w, P w → ∃ ls, Moves move w.toNode ls ⟨g w.mem, w.log⟩ ∧ (ls.count .send : Int) ≤ e)
    (hok : ∀ w, P w → ∃ ls,
      Moves move w.toNode ls ⟨g w.mem, w.log ++ .saved (g w.mem) :: es.map .event⟩ ∧
        (ls.count .send : Int) ≤ c ∧ .unsaved ∉ ls) (hQ : ∀ w, P w → Q () (Prog.committed w g es)) :
    Sim move T c e P (Prog.commit g failure es) Q := by
  intro w _ hw
  rcases Prog.commit_cases g failure es w with hrun | ⟨hfalse, hrun⟩
  · rw [hrun]
    refine ⟨fun _ _ => ⟨?_, hQ w hw⟩, fun err herr => (by cases herr)⟩
    obtain ⟨ls, hmoves, hcount, hsaved⟩ := hok w hw
    refine ⟨⟨ls, hmoves, ?_, fun h => absurd h hsaved⟩, suffix_refl _, tail_suffix _⟩
    simp only [Prog.committed]
    omega
  · rw [hrun]
    refine ⟨fun a ha => (by cases ha), fun _ _ => ?_⟩
    obtain ⟨ls, hmoves, hcount⟩ := hfail w hw
    refine ⟨⟨ls, hmoves, ?_, fun _ => hfalse⟩, suffix_refl _, tail_suffix _⟩
    simp only
    omega

end

theorem receive (hP : ∀ w replies, P w → P { w with replies := replies }) :
    Sim move T (-1) 0 P (Prog.receive failure) fun r w => T r ∧ P w := by
  intro w hT hw
  cases hr : w.replies with
  | nil =>
    have hrun : Prog.receive failure w = (.error failure, w) := by rw [Prog.receive, hr]
    rw [hrun]
    exact ⟨fun a ha => (by cases ha), fun _ _ => Traced.refl w⟩
  | cons r replies =>
    have hrun : Prog.receive failure w = (.ok r, { w with replies := replies }) := by
      rw [Prog.receive, hr]
    rw [hrun]
    refine ⟨fun a ha => ?_, fun err herr => (by cases herr)⟩
    obtain rfl := Except.ok.inj ha
    refine ⟨⟨⟨[], .refl, ?_, by simp⟩, hr ▸ suffix_cons r replies, suffix_refl _⟩,
      hT r (hr ▸ mem_cons_self), hP w _ hw⟩
    simp only [hr, count_nil, length_cons]
    omega

theorem foldlM {I : World S E R → Prop} {g : β → α → Prog S E R X β} (he : 0 ≤ e)
    (h : ∀ b a, Sim move T 0 e I (g b a) fun _ => I) :
    ∀ (l : List α) (b : β), Sim move T 0 e I (l.foldlM g b) fun _ => I
  | [], b => Sim.pure (fun _ hw => hw) (Int.le_refl _)
  | a :: l, b => by
    rw [foldlM_cons]
    exact (h b a).seq fun b' => foldlM he h l b'

end Sim

end Simulation

end Journal
