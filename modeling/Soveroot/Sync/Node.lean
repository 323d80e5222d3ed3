import Soveroot.Lib.Journal
import Soveroot.Sync.Announcement
import Soveroot.Sync.Import

/-!
# The node

The methods of `ShareSyncNode` that save, receive or send: programs on a `NodeState` that leave a
log behind, with an event for every envelope that passes authentication and one for every envelope
signed.

A method that holds the lock throughout is one program. `_peer_round_trip` releases it while it
waits for the reply, so it is made of two, `tripSend` and `tripReceive`; between them other methods
may run, except when the round trip is part of handling a control message.

`RoutedShareSyncNode` inherits these methods and overrides the two that write and compare
announcements. A `Dialect` is such a choice.
-/

namespace Soveroot.Sync

open Py Check Journal

/-- What others can see of a node. -/
inductive Event where
  /-- An envelope has passed authentication. -/
  | processed (e : Envelope)
  /-- An envelope has been signed. -/
  | signed (e : Envelope)

/-- What comes of a request: the value in the reply, or the exception of `send_message`. -/
abbrev Reply := Except Exn Json

abbrev Method := Prog NodeState Event Reply Exn

/-- Nothing but announcements and evidence differs. -/
structure ObserveFrame (st st' : NodeState) : Prop where
  tick : st'.tick = st.tick
  acceptedShares : st'.acceptedShares = st.acceptedShares
  orphans : st'.orphans = st.orphans
  inboundSequences : st'.inboundSequences = st.inboundSequences
  outboundSequences : st'.outboundSequences = st.outboundSequences
  rejectionCounts : st'.rejectionCounts = st.rejectionCounts

/-- What the kinds of nodes do in different ways. -/
structure Dialect where
  /-- The end of `_announcement`: how an announcement is written. -/
  write : Announcement → Except Exn Json
  /-- `_observe_announcement`. -/
  observe : NodeState → Envelope → Except Exn NodeState
  /-- What `_peer_round_trip` raises for a peer that is not configured. -/
  unknownPeer : Exn
  /-- What `_state_view` reports besides. -/
  status : Fields
  /-- The sum of two numbers of which one is a float. -/
  addFloat : Json → Json → Except Exn Json
  observe_frame : ∀ st e st', observe st e = .ok st' → ObserveFrame st st'

/-- `d.get(key)`, of a dictionary. -/
def getField (fields : Fields) (key : String) : Json :=
  (Json.member fields (ascii key)).getD .null

/-- `{**fields, key: value}`. -/
def putField (fields : Fields) (key : String) (value : Json) : Fields :=
  (fields.filter fun f => f.1 ≠ ascii key) ++ [(ascii key, value)]

/-- `set(values) == set(texts)`. -/
def sameSet (values : List Json) (texts : List Text) : Bool :=
  (values.all fun v => texts.any fun t => v.isText t) &&
    texts.all fun t => values.any fun v => v.isText t

/-- The slices `l[offset : offset + size]` for `offset in range(0, len(l), size)`. -/
def slices {α : Type} (size : Nat) (l : List α) : List (List α) :=
  (List.range ((l.length + size - 1) / size)).map fun i => (l.drop (size * i)).take size

section Methods

variable (sha256 : HashFn) (cfg : Config) (D : Dialect)

/-! ## Envelopes -/

def save : Method Unit := Prog.save .osError

def commit (change : NodeState → NodeState) : Method Unit := Prog.commit change .osError []

def nextOutbound (recipient : Text) : Method Nat := do
  let st ← Prog.mem
  let current := (st.outboundSequences.get? recipient).getD 0 + 1
  commit fun st => { st with outboundSequences := st.outboundSequences.set recipient current }
  pure current

def keyForSender (sender : Text) : Except Exn Text :=
  if sender = controlId then pure cfg.controlKeyHex
  else orRaise (cfg.peers.get? sender)
    (.syncError .unknownPeer "sender is absent from the pinned peer table")

/-- `_authenticate_inbound`, up to the point where the sequence is set. -/
def checkInbound (st : NodeState) (envelope : Json) : Except Exn Envelope := do
  let fields ← orRaise envelope.asObj (.syncError .messageFields "message must be an object")
  let sender ← orRaise (getField fields "sender_id").asText
    (.syncError .messageRoute "message sender is invalid")
  let key ← keyForSender cfg sender
  let checked ← verifyEnvelope sha256 envelope sender cfg.nodeId key
  require ((st.inboundSequences.get? sender).getD 0 < checked.sequence)
    (Exn.syncError .messageReplay "message sequence is not newer than the pinned peer state")
  pure checked

def authenticateInbound (envelope : Json) : Method Envelope := do
  let st ← Prog.mem
  let checked ← Prog.lift (checkInbound sha256 cfg st envelope)
  Prog.commit (fun st =>
    { st with inboundSequences := st.inboundSequences.set checked.sender checked.sequence })
    .osError [.processed checked]
  pure checked

/-- The end of `_sign_response` and of the first half of `_peer_round_trip`. -/
def signWith (recipient : Text) (payload : Fields) (key : Except Exn Text) : Method Envelope := do
  let sequence ← nextOutbound recipient
  let key ← Prog.lift key
  let envelope ← Prog.lift
    (signEnvelope sha256 cfg.nodeId recipient (.int sequence) payload key)
  Prog.emit (.signed envelope)
  pure envelope

def signResponse (recipient : Text) (payload : Fields) : Method Envelope :=
  signWith sha256 cfg recipient payload (keyForSender cfg recipient)

/-! ## Announcements -/

/-- `_announcement`. -/
def announce (st : NodeState) : Except Exn Json := do
  let a ← announcement sha256 cfg st
  D.write a

/-- `_observe_announcement`. -/
def observe (envelope : Envelope) : Method Unit := do
  let st ← Prog.mem
  let st' ← Prog.lift (D.observe st envelope)
  Prog.update fun _ => st'

/-! ## Round trips -/

/-- `_peer_round_trip`, up to the message. -/
def tripSend (peerId : Text) (payload : Fields) : Method Envelope := do
  let key ← Prog.lift (orRaise (cfg.peers.get? peerId) D.unknownPeer)
  let st ← Prog.mem
  let a ← Prog.lift (announce sha256 cfg D st)
  signWith sha256 cfg peerId (putField payload "announcement" a) (.ok key)

def sendMessage (envelope : Envelope) : Method Json := do
  Prog.lift (require (envelope.toJson.canonicalBytes.length + 1 ≤ maxMessageBytes)
    (Exn.syncError .messageTooLarge "outgoing message exceeds the frozen byte limit"))
  let reply ← Prog.receive .osError
  Prog.lift reply

/-- `_peer_round_trip`, from the reply on. -/
def tripReceive (response : Json) : Method Fields := do
  let checked ← authenticateInbound sha256 cfg response
  observe D checked
  save
  pure checked.payload

def peerRoundTrip (peerId : Text) (payload : Fields) : Method Fields := do
  let envelope ← tripSend sha256 cfg D peerId payload
  let response ← sendMessage envelope
  tripReceive sha256 cfg D response

/-! ## Imports -/

def Summary.toJson (summary : Summary) : Json :=
  .obj [(ascii "accepted", .int summary.accepted), (ascii "orphaned", .int summary.orphaned),
    (ascii "duplicates", .int summary.duplicates), (ascii "rejected", .int summary.rejected),
    (ascii "expired", .int summary.expired),
    (ascii "reasons", dictJson (fun n : Nat => .int n) summary.reasons)]

/-- `import_shares`. -/
def importAndSave (shares : Json) : Method Summary := do
  let st ← Prog.mem
  let (summary, st') ← Prog.lift (importShares sha256 cfg st shares)
  commit fun _ => st'
  pure summary

end Methods

end Soveroot.Sync
