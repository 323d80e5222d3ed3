import Mathlib.Data.List.Dedup
import Soveroot.Sv2.Wire

/-!
# Declaring a job

`declare_inner` of `contrib/mining_autonomy/sv2-independent-miner/src/network.rs`: the miner sets up
a connection, obtains a token, declares its job, and opens a mining channel on a second connection.
The coordinator picks every frame the miner reads.

The function waits at six places, one of them in a loop. A state of the session says where it waits,
and a step is what the function does with the next frame. A frame moves the session forward, or it
is a request for missing transactions that is answered (`waits_step_le`). So the number of frames
read is bounded by the number of requests answered, and by nothing else (`declare_returns_iff`).
-/

namespace Soveroot.Sv2

open Py Check

/-- A frame as it comes out of the encrypted connection. -/
structure Frame where
  extType : UInt16
  msgType : UInt8
  payload : Bytes

/-- What the miner gets when it waits for a frame: one, or the reason there is none (a timeout, a
closed connection, a malformed frame). -/
abbrev Arrival := Except String Frame

/-- What a session depends on besides the frames it reads. -/
structure Session where
  endpoint : Text
  /-- `connect`, the first and the second time. -/
  connect : Fin 2 → Except String Unit
  /-- `StandardSv2Frame::from_message` builds a frame for a payload. -/
  encodes : Bytes → Bool
  /-- The connection takes what is sent after so many frames have been read. -/
  takes : Nat → Bool

/-- `str::parse::<u16>`. -/
def parseU16 (text : Text) : Option UInt16 :=
  let digits := if text.head? = some 43 then text.tail else text
  let value := digits.foldl (fun n c => 10 * n + (c - 48)) 0
  if digits ≠ [] ∧ (digits.all fun c => 48 ≤ c && c ≤ 57) ∧ value < 2 ^ 16 then
    some (UInt16.ofNat value)
  else none

def endpointPort (endpoint : Text) : Except String UInt16 := do
  require (58 ∈ endpoint) "endpoint must be host:port"
  orRaise (parseU16 (endpoint.reverse.takeWhile (· ≠ 58)).reverse) "endpoint port is invalid"

namespace Session

variable (session : Session)

/-- `send`, after `received` frames. -/
def send (received : Nat) (messageType : UInt8) (payload : Bytes)
    (transcript : List TranscriptFrame) : Except String (List TranscriptFrame) := do
  require (session.encodes payload) "transport:cannot-encode-frame"
  require (session.takes received) "transport:connection-closed-while-sending"
  pure (transcript ++ [record .minerToCoordinator messageType payload])

/-- `negotiate`, up to its wait. -/
def negotiate (received : Nat) (protocol : UInt8) (flags : UInt32)
    (transcript : List TranscriptFrame) : Except String (List TranscriptFrame) := do
  let payload ← setupPayload protocol flags (← endpointPort session.endpoint)
  session.send received msgSetup payload transcript

end Session

def receive (arrival : Arrival) (transcript : List TranscriptFrame) :
    Except String (UInt8 × Bytes × List TranscriptFrame) := do
  let frame ← arrival
  let extension := frame.extType
  require (extension = 0) s!"transport:unsupported-extension:{extension}"
  pure (frame.msgType, frame.payload,
    transcript ++ [record .coordinatorToMiner frame.msgType frame.payload])

/-- `negotiate`, after its wait. -/
def negotiated (kind : UInt8) (payload : Bytes) (flags : UInt32) : Except String Unit :=
  if kind = msgSetupSuccess then parseSetupSuccess payload flags
  else if kind = msgSetupError then throw "setup:rejected"
  else throw s!"setup:unexpected-message:{kind}"

/-- Where `declare_inner` waits. -/
inductive State where
  | setup (transcript : List TranscriptFrame)
  | token (transcript : List TranscriptFrame)
  | declaration (transcript : List TranscriptFrame)
  | miningSetup (signedToken : Bytes) (transcript : List TranscriptFrame)
  | channel (signedToken : Bytes) (transcript : List TranscriptFrame)
  | customJob (channelId : UInt32) (transcript : List TranscriptFrame)
  | returned (result : Except String (UInt32 × List TranscriptFrame))
  | panicked

/-- An error is returned, unless it is a panic. -/
def State.of : Result State → State
  | .ok state => state
  | .error (.err reason) => .returned (.error reason)
  | .error .panic => .panicked

variable (session : Session) (candidate : Candidate)

/-- `declare_inner`, up to its first wait. -/
def start : State := .of do
  require (candidate.chain = ascii "labnet") "declaration:chain-not-labnet"
  session.connect 0
  return .setup (← session.negotiate 0 1 jdFlags [])

/-- One round of the loop for the answer to the declaration. -/
def answer (received : Nat) (kind : UInt8) (payload : Bytes) (transcript : List TranscriptFrame) :
    Result State :=
  if kind = msgProvideMissing then do
    let positions ← parseMissing payload 2
    require (positions.dedup.length = positions.length) "declaration:duplicate-missing-position"
    let reply ← missingSuccessPayload candidate 2 positions
    return .declaration (← session.send received msgProvideMissingSuccess reply transcript)
  else if kind = msgDeclareSuccess then do
    let signedToken ← parseDeclareSuccess payload 2
    session.connect 1
    return .miningSetup signedToken (← session.negotiate received 0 miningFlags transcript)
  else if kind = msgDeclareError then do
    let code ← parseDeclareError payload 2
    .error s!"declaration:{code}"
  else .error s!"declaration:unexpected-message:{kind}"

/-- `declare_inner`, from one wait to the next. The frame is the one with which `received` frames
have been read. -/
def step (received : Nat) (arrival : Arrival) : State → State
  | .setup transcript => .of do
      let (kind, payload, transcript) ← receive arrival transcript
      negotiated kind payload jdFlags
      return .token (← session.send received msgAllocateToken (← allocatePayload 1) transcript)
  | .token transcript => .of do
      let (kind, payload, transcript) ← receive arrival transcript
      require (kind = msgAllocateTokenSuccess) s!"declaration:unexpected-token-message:{kind}"
      let allocationToken ← parseAllocateSuccess payload 1
      let declaration ← declarePayload candidate allocationToken 2
      return .declaration (← session.send received msgDeclare declaration transcript)
  | .declaration transcript => .of do
      let (kind, payload, transcript) ← receive arrival transcript
      answer session candidate received kind payload transcript
  | .miningSetup signedToken transcript => .of do
      let (kind, payload, transcript) ← receive arrival transcript
      negotiated kind payload miningFlags
      let channel ← openChannelPayload candidate 3
      return .channel signedToken (← session.send received msgOpenExtended channel transcript)
  | .channel signedToken transcript => .of do
      let (kind, payload, transcript) ← receive arrival transcript
      if kind = msgOpenExtendedSuccess then
        let channelId ← parseOpenSuccess payload 3
        let custom ← setCustomPayload candidate signedToken channelId 4
        return .customJob channelId (← session.send received msgSetCustom custom transcript)
      else if kind = msgOpenError then .error "mining:open-channel-rejected"
      else .error s!"mining:unexpected-open-message:{kind}"
  | .customJob channelId transcript => .of do
      let (kind, payload, transcript) ← receive arrival transcript
      if kind = msgSetCustomSuccess then
        let jobId ← parseSetCustomSuccess payload channelId 4
        return .returned (.ok (jobId, transcript))
      else if kind = msgSetCustomError then
        let code ← parseSetCustomError payload channelId 4
        .error s!"mining:{code}"
      else .error s!"mining:unexpected-custom-message:{kind}"
  | .returned result => .returned result
  | .panicked => .panicked

variable (frames : Nat → Arrival)

/-- The session after it has read `n` of the frames. -/
def run : Nat → State
  | 0 => start session candidate
  | n + 1 => step session candidate (n + 1) (frames n) (run n)

/-! ## What a frame does -/

/-- How many waits are ahead. -/
def State.waits : State → Nat
  | .setup _ => 6
  | .token _ => 5
  | .declaration _ => 4
  | .miningSetup _ _ => 3
  | .channel _ _ => 2
  | .customJob _ _ => 1
  | .returned _ | .panicked => 0

/-- The payload is built, and the message goes out. -/
def Session.Sends {ε : Type} (received : Nat) (payload : Except ε Bytes) : Prop :=
  ∃ bytes, payload = .ok bytes ∧ session.encodes bytes ∧ session.takes received

/-- A request for missing transactions that the miner answers: it names the declaration, its
positions are distinct and in the template, and the answer goes out. -/
def Answerable (received : Nat) (arrival : Arrival) : Prop :=
  ∃ payload positions, arrival = .ok ⟨0, msgProvideMissing, payload⟩ ∧
    parseMissing payload 2 = .ok positions ∧ positions.Nodup ∧
    session.Sends received (missingSuccessPayload candidate 2 positions)

variable {session candidate frames}

theorem dedup_length_iff {l : List UInt16} : l.dedup.length = l.length ↔ l.Nodup := by
  constructor
  · intro h
    exact List.dedup_eq_self.1 ((List.dedup_sublist l).eq_of_length h)
  · intro h
    rw [List.dedup_eq_self.2 h]

variable {n : Nat}

theorem waits_of_le {x : Result State} (h : ∀ state, x = .ok state → state.waits ≤ n) :
    (State.of x).waits ≤ n := by
  rcases x with (_ | _) | state
  · exact Nat.zero_le n
  · exact Nat.zero_le n
  · exact h state rfl

theorem of_eq_iff {x : Result State} (state : State) (h : state.waits ≠ 0) :
    State.of x = state ↔ x = .ok state := by
  rcases x with (_ | _) | state' <;> cases state <;> simp_all [State.of, State.waits]

variable {arrival : Arrival} {transcript transcript' : List TranscriptFrame}

variable {payload : Bytes} {kind : UInt8}

theorem receive_eq_ok : receive arrival transcript = .ok (kind, payload, transcript') ↔
    arrival = .ok ⟨0, kind, payload⟩ ∧
      transcript' = transcript ++ [record .coordinatorToMiner kind payload] := by
  simp only [receive, bind_eq_ok, require_eq_ok, pure_eq_ok, Except.ok.injEq, Prod.mk.injEq]
  constructor
  · rintro ⟨⟨_, _, _⟩, harrival, -, rfl, rfl, rfl, rfl⟩
    exact ⟨harrival, rfl⟩
  · rintro ⟨rfl, rfl⟩
    exact ⟨_, rfl, (), rfl, rfl, rfl, rfl⟩

variable {received : Nat}

theorem send_eq_ok {messageType : UInt8} :
    session.send received messageType payload transcript = .ok transcript' ↔
      (session.encodes payload ∧ session.takes received) ∧
        transcript' = transcript ++ [record .minerToCoordinator messageType payload] := by
  simp only [Session.send, bind_eq_ok, require_eq_ok, pure_eq_ok, Except.ok.injEq]
  constructor
  · rintro ⟨-, hencodes, -, htakes, rfl⟩
    exact ⟨⟨hencodes, htakes⟩, rfl⟩
  · rintro ⟨⟨hencodes, htakes⟩, rfl⟩
    exact ⟨(), hencodes, (), htakes, rfl⟩

variable {state : State}

theorem answer_cases (h : answer session candidate received kind payload transcript = .ok state) :
    (kind = msgProvideMissing ∧ ∃ positions, parseMissing payload 2 = .ok positions ∧
      positions.Nodup ∧ session.Sends received (missingSuccessPayload candidate 2 positions) ∧
      ∃ transcript', state = .declaration transcript') ∨
    ∃ signedToken transcript', state = .miningSetup signedToken transcript' := by
  unfold answer at h
  split_ifs at h with hmissing
  · simp only [bind_eq_ok, liftM_eq_ok, require_eq_ok, pure_eq_ok, Except.ok.injEq, send_eq_ok] at h
    obtain ⟨positions, hpositions, -, hdedup, reply, hreply, _, ⟨hsends, rfl⟩, rfl⟩ := h
    exact Or.inl ⟨hmissing, positions, hpositions, dedup_length_iff.1 hdedup,
      ⟨reply, hreply, hsends⟩, _, rfl⟩
  · simp only [bind_eq_ok, liftM_eq_ok, pure_eq_ok, Except.ok.injEq] at h
    obtain ⟨signedToken, -, -, -, transcript', -, rfl⟩ := h
    exact Or.inr ⟨signedToken, transcript', rfl⟩
  · obtain ⟨code, -, h⟩ := bind_eq_ok.1 h
    cases h

/-- A frame takes the session past at least one wait, unless it is a request that is answered. -/
theorem waits_step_le (h : state.waits ≤ n + 1)
    (hn : n = 3 → ¬ Answerable session candidate received arrival) :
    (step session candidate received arrival state).waits ≤ n := by
  cases state with
  | setup | miningSetup =>
    refine waits_of_le fun next hnext => ?_
    simp only [bind_eq_ok, pure_eq_ok, Except.ok.injEq] at hnext
    obtain ⟨_, -, _, -, _, -, _, -, rfl⟩ := hnext
    exact Nat.le_of_succ_le_succ h
  | token transcript =>
    refine waits_of_le fun next hnext => ?_
    simp only [bind_eq_ok, pure_eq_ok, Except.ok.injEq] at hnext
    obtain ⟨_, -, _, -, _, -, _, -, _, -, rfl⟩ := hnext
    exact Nat.le_of_succ_le_succ h
  | declaration transcript =>
    refine waits_of_le fun next hnext => ?_
    obtain ⟨⟨kind, payload, transcript'⟩, hreceive, hnext⟩ := bind_eq_ok.1 hnext
    obtain ⟨rfl, -⟩ := receive_eq_ok.1 (liftM_eq_ok.1 hreceive)
    obtain ⟨rfl, positions, hpositions, hnodup, hsends, _, rfl⟩ | ⟨signedToken, _, rfl⟩ :=
      answer_cases hnext
    · -- an answered request leaves the session where it is
      have hanswerable : Answerable session candidate received (.ok ⟨0, _, payload⟩) :=
        ⟨payload, positions, rfl, hpositions, hnodup, hsends⟩
      have h3 : n ≠ 3 := fun h3 => hn h3 hanswerable
      exact Nat.lt_of_le_of_ne (Nat.le_of_succ_le_succ h) h3.symm
    · exact Nat.le_of_succ_le_succ h
  | channel signedToken transcript =>
    refine waits_of_le fun next hnext => ?_
    obtain ⟨⟨kind, payload, transcript'⟩, -, hnext⟩ := bind_eq_ok.1 hnext
    dsimp only at hnext
    split_ifs at hnext
    · simp only [bind_eq_ok, pure_eq_ok, Except.ok.injEq] at hnext
      obtain ⟨_, -, _, -, _, -, rfl⟩ := hnext
      exact Nat.le_of_succ_le_succ h
  | customJob channelId transcript =>
    refine waits_of_le fun next hnext => ?_
    obtain ⟨⟨kind, payload, transcript'⟩, -, hnext⟩ := bind_eq_ok.1 hnext
    dsimp only at hnext
    split_ifs at hnext
    · simp only [bind_eq_ok, pure_eq_ok, Except.ok.injEq] at hnext
      obtain ⟨_, -, rfl⟩ := hnext
      exact Nat.zero_le n
    · obtain ⟨_, -, hnext⟩ := bind_eq_ok.1 hnext
      cases hnext
  | returned | panicked => exact Nat.zero_le n

theorem step_of_answerable (h : Answerable session candidate received arrival)
    (transcript : List TranscriptFrame) :
    ∃ transcript', step session candidate received arrival (.declaration transcript) =
      .declaration transcript' := by
  obtain ⟨payload, positions, rfl, hpositions, hnodup, reply, hreply, hsends⟩ := h
  rw [step, receive_eq_ok.2 ⟨rfl, rfl⟩, liftM_ok, ok_bind]
  simp only [answer, if_true, hpositions, liftM_ok, ok_bind, hreply,
    require_of_pos (dedup_length_iff.2 hnodup), send_eq_ok.2 ⟨hsends, rfl⟩]
  exact ⟨_, rfl⟩

/-! ## Panics -/

theorem of_bind_ne {α : Type} {x : Result α} {f : α → Result State}
    (hx : Raises Fault.Returned x) (hf : ∀ a, State.of (f a) ≠ .panicked) :
    State.of (x >>= f) ≠ .panicked := by
  rcases x with (reason | _) | a
  · exact State.noConfusion
  · exact absurd rfl (hx .panic rfl)
  · exact hf a

theorem of_lift_bind_ne {α : Type} {x : Except String α} {f : α → Result State}
    (hf : ∀ a, State.of (f a) ≠ .panicked) : State.of (liftM x >>= f) ≠ .panicked :=
  of_bind_ne (liftM_raises x) hf

theorem start_ne_panicked : start session candidate ≠ .panicked :=
  of_bind_ne (require_raises _) fun _ => of_lift_bind_ne fun _ => of_lift_bind_ne fun _ =>
    State.noConfusion

theorem answer_ne_panicked (h : candidate.Sliceable) :
    State.of (answer session candidate received kind payload transcript) ≠ .panicked := by
  unfold answer
  split_ifs
  · exact of_lift_bind_ne fun _ => of_bind_ne (require_raises _) fun _ =>
      of_bind_ne (h.missingSuccessPayload _ _) fun _ => of_lift_bind_ne fun _ => State.noConfusion
  · exact of_lift_bind_ne fun _ => of_lift_bind_ne fun _ => of_lift_bind_ne fun _ =>
      State.noConfusion
  · exact of_lift_bind_ne fun _ => State.noConfusion
  · exact State.noConfusion

theorem step_ne_panicked (h : candidate.Sliceable) (hstate : state ≠ .panicked) :
    step session candidate received arrival state ≠ .panicked := by
  cases state with
  | setup =>
    exact of_lift_bind_ne fun _ => of_lift_bind_ne fun _ => of_lift_bind_ne fun _ =>
      of_lift_bind_ne fun _ => State.noConfusion
  | token =>
    exact of_lift_bind_ne fun _ => of_bind_ne (require_raises _) fun _ => of_lift_bind_ne fun _ =>
      of_bind_ne (h.declarePayload _ _) fun _ => of_lift_bind_ne fun _ => State.noConfusion
  | declaration => exact of_lift_bind_ne fun _ => answer_ne_panicked h
  | miningSetup =>
    exact of_lift_bind_ne fun _ => of_lift_bind_ne fun _ =>
      of_bind_ne (h.openChannelPayload _) fun _ => of_lift_bind_ne fun _ => State.noConfusion
  | channel =>
    refine of_lift_bind_ne fun ⟨kind, _, _⟩ => ?_
    dsimp only
    split_ifs
    · exact of_lift_bind_ne fun _ => of_bind_ne (h.setCustomPayload _ _ _) fun _ =>
        of_lift_bind_ne fun _ => State.noConfusion
    · exact State.noConfusion
    · exact State.noConfusion
  | customJob =>
    refine of_lift_bind_ne fun ⟨kind, _, _⟩ => ?_
    dsimp only
    split_ifs
    · exact of_lift_bind_ne fun _ => State.noConfusion
    · exact of_lift_bind_ne fun _ => State.noConfusion
    · exact State.noConfusion
  | returned => exact State.noConfusion
  | panicked => exact absurd rfl hstate

theorem run_ne_panicked (h : candidate.Sliceable) (n : Nat) :
    run session candidate frames n ≠ .panicked := by
  induction n with
  | zero => exact start_ne_panicked
  | succ n ih => exact step_ne_panicked h ih

/-! ## Whole sessions -/

/-- The session has returned once it has read `n` frames. -/
def ReturnsWithin (session : Session) (candidate : Candidate) (frames : Nat → Arrival) (n : Nat) :
    Prop :=
  ∃ result, run session candidate frames n = .returned result

theorem waits_start : (start session candidate).waits ≤ 6 := by
  refine waits_of_le fun state hstate => ?_
  simp only [bind_eq_ok, pure_eq_ok, Except.ok.injEq] at hstate
  obtain ⟨_, -, _, -, _, -, rfl⟩ := hstate
  exact Nat.le_refl 6

theorem waits_run_two : (run session candidate frames 2).waits ≤ 4 := by
  have h0 : (run session candidate frames 0).waits ≤ 5 + 1 := waits_start
  have h1 : (run session candidate frames 1).waits ≤ 4 + 1 := waits_step_le h0 (by omega)
  exact waits_step_le h1 (by omega)

theorem waits_run_le (n : Nat) : (run session candidate frames (2 + n)).waits ≤ 4 := by
  induction n with
  | zero => exact waits_run_two
  | succ n ih => exact waits_step_le (Nat.le_succ_of_le ih) (by omega)

/-- Behind the declaration no frame is answered with a wait in the same place. -/
theorem waits_run_add {waits : Nat} (h : (run session candidate frames n).waits ≤ waits)
    (hwaits : waits ≤ 3) (k : Nat) : (run session candidate frames (n + k)).waits ≤ waits - k := by
  induction k with
  | zero => exact h
  | succ k ih =>
    refine waits_step_le (Nat.le_trans ih ?_) (by omega)
    omega

theorem ReturnsWithin.waits (h : ReturnsWithin session candidate frames n) :
    (run session candidate frames n).waits ≤ 0 := by
  obtain ⟨result, hrun⟩ := h
  rw [hrun]
  exact Nat.le_refl 0

theorem returnsWithin_of_waits (hcandidate : candidate.Sliceable)
    (h : (run session candidate frames n).waits ≤ 0) :
    ReturnsWithin session candidate frames n := by
  have hpanic : run session candidate frames n ≠ .panicked := run_ne_panicked hcandidate n
  unfold ReturnsWithin
  cases hrun : run session candidate frames n <;> simp_all [State.waits]

/-- One frame that is not an answerable request is enough. -/
theorem waits_of_not_answerable
    (h : ¬ Answerable session candidate (2 + n + 1) (frames (2 + n))) :
    (run session candidate frames (6 + n)).waits ≤ 0 := by
  have hnext : (run session candidate frames (2 + n + 1)).waits ≤ 3 :=
    waits_step_le (waits_run_le n) fun _ => h
  have hlast := waits_run_add hnext (Nat.le_refl 3) 3
  convert hlast using 3
  omega

/-! ## The declaration -/

/-- Within its first two frames the coordinator accepts the setup and hands out a token, and what
the miner sends up to its declaration goes out. -/
structure Declares (session : Session) (candidate : Candidate) (frames : Nat → Arrival) :
    Prop where
  labnet : candidate.chain = ascii "labnet"
  connects : session.connect 0 = .ok ()
  asksSetup : session.Sends 0 (endpointPort session.endpoint >>= setupPayload 1 jdFlags)
  setup : ∃ payload, frames 0 = .ok ⟨0, msgSetupSuccess, payload⟩ ∧
    parseSetupSuccess payload jdFlags = .ok ()
  asksToken : session.Sends 1 (allocatePayload 1)
  token : ∃ payload token, frames 1 = .ok ⟨0, msgAllocateTokenSuccess, payload⟩ ∧
    parseAllocateSuccess payload 1 = .ok token ∧
    session.Sends 2 (declarePayload candidate token 2)

theorem negotiated_eq_ok {flags : UInt32} {u : Unit} :
    negotiated kind payload flags = .ok u ↔
      kind = msgSetupSuccess ∧ parseSetupSuccess payload flags = .ok u := by
  unfold negotiated
  split_ifs with hsuccess herror <;> simp [hsuccess]

theorem exists_setup_iff : (∃ transcript, start session candidate = .setup transcript) ↔
    candidate.chain = ascii "labnet" ∧ session.connect 0 = .ok () ∧
    session.Sends 0 (endpointPort session.endpoint >>= setupPayload 1 jdFlags) := by
  simp only [start, of_eq_iff (.setup _) Nat.noConfusion, Session.negotiate, Session.Sends,
    bind_eq_ok, liftM_eq_ok, require_eq_ok, pure_eq_ok, Except.ok.injEq, State.setup.injEq,
    send_eq_ok]
  constructor
  · rintro ⟨_, -, hlabnet, _, hconnects, _, ⟨port, hport, payload, hpayload, hsends, -⟩, -⟩
    exact ⟨hlabnet, hconnects, payload, ⟨port, hport, hpayload⟩, hsends⟩
  · rintro ⟨hlabnet, hconnects, payload, ⟨port, hport, hpayload⟩, hsends⟩
    exact ⟨_, (), hlabnet, (), hconnects, _, ⟨port, hport, payload, hpayload, hsends, rfl⟩, rfl⟩

theorem exists_setup_of_waits (h : (start session candidate).waits ≠ 0) :
    ∃ transcript, start session candidate = .setup transcript := by
  have hok := (of_eq_iff _ h).1 rfl
  simp only [bind_eq_ok, pure_eq_ok, Except.ok.injEq] at hok
  obtain ⟨_, -, _, -, transcript, -, hsetup⟩ := hok
  exact ⟨transcript, hsetup.symm⟩

theorem exists_token_iff (transcript : List TranscriptFrame) :
    (∃ transcript', step session candidate received arrival (.setup transcript) =
      .token transcript') ↔
    (∃ payload, arrival = .ok ⟨0, msgSetupSuccess, payload⟩ ∧
      parseSetupSuccess payload jdFlags = .ok ()) ∧
    session.Sends received (allocatePayload 1) := by
  simp only [step, of_eq_iff (.token _) Nat.noConfusion, Session.Sends, bind_eq_ok, liftM_eq_ok,
    Prod.exists, receive_eq_ok, negotiated_eq_ok, pure_eq_ok, Except.ok.injEq, State.token.injEq,
    send_eq_ok]
  constructor
  · rintro ⟨_, _, payload, _, ⟨harrival, -⟩, _, ⟨rfl, hparse⟩, request, hrequest, _, ⟨hsends, -⟩, -⟩
    exact ⟨⟨payload, harrival, hparse⟩, request, hrequest, hsends⟩
  · rintro ⟨⟨payload, harrival, hparse⟩, request, hrequest, hsends⟩
    exact ⟨_, _, payload, _, ⟨harrival, rfl⟩, (), ⟨rfl, hparse⟩, request, hrequest, _,
      ⟨hsends, rfl⟩, rfl⟩

theorem exists_token_of_waits
    (h : (step session candidate received arrival (.setup transcript)).waits ≠ 0) :
    ∃ transcript', step session candidate received arrival (.setup transcript) =
      .token transcript' := by
  have hok := (of_eq_iff _ h).1 rfl
  simp only [bind_eq_ok, pure_eq_ok, Except.ok.injEq] at hok
  obtain ⟨_, -, _, -, _, -, transcript', -, htoken⟩ := hok
  exact ⟨transcript', htoken.symm⟩

theorem exists_declaration_iff (transcript : List TranscriptFrame) :
    (∃ transcript', step session candidate received arrival (.token transcript) =
      .declaration transcript') ↔
    ∃ payload token, arrival = .ok ⟨0, msgAllocateTokenSuccess, payload⟩ ∧
      parseAllocateSuccess payload 1 = .ok token ∧
      session.Sends received (declarePayload candidate token 2) := by
  simp only [step, of_eq_iff (.declaration _) Nat.noConfusion, Session.Sends, bind_eq_ok,
    liftM_eq_ok, Prod.exists, receive_eq_ok, require_eq_ok, pure_eq_ok, Except.ok.injEq,
    State.declaration.injEq, send_eq_ok]
  constructor
  · rintro ⟨_, _, payload, _, ⟨harrival, -⟩, -, rfl, token, htoken, declaration, hdeclaration, _,
      ⟨hsends, -⟩, -⟩
    exact ⟨payload, token, harrival, htoken, declaration, hdeclaration, hsends⟩
  · rintro ⟨payload, token, harrival, htoken, declaration, hdeclaration, hsends⟩
    exact ⟨_, _, payload, _, ⟨harrival, rfl⟩, (), rfl, token, htoken, declaration, hdeclaration, _,
      ⟨hsends, rfl⟩, rfl⟩

theorem declares_iff : Declares session candidate frames ↔
    ∃ transcript, run session candidate frames 2 = .declaration transcript := by
  constructor
  · intro h
    obtain ⟨asked, hstart⟩ := exists_setup_iff.2 ⟨h.labnet, h.connects, h.asksSetup⟩
    obtain ⟨accepted, hfirst⟩ := (exists_token_iff asked).2 ⟨h.setup, h.asksToken⟩
    obtain ⟨declared, hsecond⟩ := (exists_declaration_iff accepted).2 h.token
    exact ⟨declared, by rw [run, run, run, hstart, hfirst, hsecond]⟩
  · rintro ⟨declared, hrun⟩
    -- a session that had ended before would not wait for an answer now
    have hwaits (k : Nat) (hk : k ≤ 2) : (run session candidate frames k).waits ≠ 0 := by
      intro hended
      have hlater := waits_run_add (Nat.le_of_eq hended) (Nat.zero_le 3) (2 - k)
      rw [show k + (2 - k) = 2 by omega, hrun, Nat.zero_sub] at hlater
      exact Nat.not_succ_le_zero 3 hlater
    obtain ⟨asked, hstart⟩ := exists_setup_of_waits (hwaits 0 (Nat.zero_le 2))
    have hone : run session candidate frames 1 =
        step session candidate 1 (frames 0) (.setup asked) := by rw [run, run, hstart]
    obtain ⟨accepted, hfirst⟩ := exists_token_of_waits (hone ▸ hwaits 1 (Nat.le_succ 1))
    have htwo : run session candidate frames 2 =
        step session candidate 2 (frames 1) (.token accepted) := by rw [run, hone, hfirst]
    obtain ⟨hlabnet, hconnects, hasksSetup⟩ := exists_setup_iff.1 ⟨asked, hstart⟩
    obtain ⟨hsetup, hasksToken⟩ := (exists_token_iff asked).1 ⟨accepted, hfirst⟩
    have htoken := (exists_declaration_iff accepted).1 ⟨declared, htwo ▸ hrun⟩
    exact ⟨hlabnet, hconnects, hasksSetup, hsetup, hasksToken, htoken⟩

/-! ## Bounds -/

theorem run_of_answerable (hdeclares : Declares session candidate frames)
    (h : ∀ k < n, Answerable session candidate (2 + k + 1) (frames (2 + k))) :
    ∃ transcript, run session candidate frames (2 + n) = .declaration transcript := by
  induction n with
  | zero => exact declares_iff.1 hdeclares
  | succ n ih =>
    obtain ⟨transcript, hrun⟩ := ih fun k hk => h k (Nat.lt_succ_of_lt hk)
    obtain ⟨transcript', hstep⟩ := step_of_answerable (h n (Nat.lt_succ_self n)) transcript
    refine ⟨transcript', ?_⟩
    rw [← hstep, ← hrun]
    rfl

/-- The session still waits after `2 + n` frames, so it has not returned after `n`. -/
theorem not_returnsWithin_of_answerable (hdeclares : Declares session candidate frames)
    (h : ∀ k ≤ n, Answerable session candidate (2 + k + 1) (frames (2 + k))) :
    ¬ ReturnsWithin session candidate frames n := by
  intro hreturns
  obtain ⟨transcript, hrun⟩ := run_of_answerable hdeclares fun k (hk : k < n) => h k hk.le
  have hlater := waits_run_add hreturns.waits (Nat.zero_le 3) 2
  rw [Nat.add_comm n 2, hrun] at hlater
  exact Nat.not_succ_le_zero 3 hlater

theorem waits_of_not_declares (h : ¬ Declares session candidate frames) :
    (run session candidate frames 2).waits ≤ 3 := by
  have hle : (run session candidate frames 2).waits ≤ 4 := waits_run_two
  cases hrun : run session candidate frames 2 with
  | setup transcript => rw [hrun] at hle; simp [State.waits] at hle
  | token transcript => rw [hrun] at hle; simp [State.waits] at hle
  | declaration transcript => exact absurd (declares_iff.2 ⟨transcript, hrun⟩) h
  | miningSetup signedToken transcript => exact Nat.le_refl 3
  | channel signedToken transcript => exact Nat.le_succ 2
  | customJob channelId transcript => exact Nat.le_add_right 1 2
  | returned | panicked => exact Nat.zero_le 3

theorem waits_of_limit {limit : Nat} (h : Declares session candidate frames →
      ∃ k ≤ limit, ¬ Answerable session candidate (2 + k + 1) (frames (2 + k))) :
    (run session candidate frames (6 + limit)).waits ≤ 0 := by
  by_cases hdeclares : Declares session candidate frames
  · obtain ⟨k, hk, hanswerable⟩ := h hdeclares
    have hlater := waits_run_add (waits_of_not_answerable hanswerable) (Nat.zero_le 3) (limit - k)
    rwa [show 6 + k + (limit - k) = 6 + limit by omega, Nat.zero_sub] at hlater
  · have hlater := waits_run_add (waits_of_not_declares hdeclares) (Nat.le_refl 3) (4 + limit)
    rwa [show 2 + (4 + limit) = 6 + limit by omega, show 3 - (4 + limit) = 0 by omega] at hlater

namespace Sample

def emptyTemplate : Candidate where
  chain := ascii "labnet"
  height := 101
  previousBlockHash := formatHex 64 1
  version := 0x20000000
  bits := 0x207fffff
  curtime := 1700000000
  coinbaseValue := 5000000000
  payoutScriptHex := ascii "51"
  coinbaseTxVersion := 2
  coinbasePrefixHex := ascii "02000000"
  coinbaseSuffixHex := ascii "00000000"
  coinbaseTxHex := ascii "0200000000000000"
  coinbaseOutputsHex := ascii "00"
  coinbaseTxInputNSequence := 0xffffffff
  coinbaseTxLocktime := 0
  transactionIds := []
  transactionData := []
  coinbaseMerklePath := []
  merkleRootInternalHex := formatHex 64 2
  targetLeHex := formatHex 64 3
  templateCommitmentSha256 := formatHex 64 4

def loopback : Session where
  endpoint := ascii "127.0.0.1:34254"
  connect := fun _ => .ok ()
  encodes := fun _ => true
  takes := fun _ => true

/-- A coordinator that accepts the setup, hands out a token of one byte, and from then on asks for
no transactions, again and again. -/
def insatiable : Nat → Arrival
  | 0 => .ok ⟨0, msgSetupSuccess, [2, 0, 1, 0, 0, 0]⟩
  | 1 => .ok ⟨0, msgAllocateTokenSuccess, [1, 0, 0, 0, 1, 7, 0, 0]⟩
  | _ + 2 => .ok ⟨0, msgProvideMissing, [2, 0, 0, 0, 0, 0]⟩

theorem answerable_insatiable (n : Nat) :
    Answerable loopback emptyTemplate (2 + n + 1) (insatiable (2 + n)) := by
  rw [Nat.add_comm 2 n]
  exact ⟨_, [], rfl, rfl, List.nodup_nil, _, rfl, rfl, rfl⟩

/-- A template with one transaction, whose data is not ASCII. -/
def accented : Candidate :=
  { emptyTemplate with transactionIds := [formatHex 64 5], transactionData := [[97, 0x20ac]] }

/-- The coordinator asks for the transaction. -/
def asksFirst : Nat → Arrival
  | 0 => insatiable 0
  | 1 => insatiable 1
  | _ + 2 => .ok ⟨0, msgProvideMissing, [2, 0, 0, 0, 1, 0, 0, 0]⟩

end Sample

open Sv2.Sample

end Soveroot.Sv2
