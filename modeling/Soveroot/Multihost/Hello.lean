import Soveroot.Multihost.Admission

/-!
# Signed hellos

`verify_hello` of `contrib/mining_autonomy/sharechain_multihost_v1.py`, and the part of
`handle_peer_session` of `sharechain_routed_v1.py` that opens a session: the handshake is admitted
and the state saved before the hello is looked at. A node that restarts comes back with the state it
saved last and without its sessions.

The signature scheme is a parameter.
-/

namespace Soveroot.Multihost

open Py Check Stateful

def networkId : Text := ascii "soveroot-labnet-v1"

def identityAlgorithm : Text := ascii "ed25519-rfc8032-sha512-lab-reference"

def ephemeralAlgorithm : Text := ascii "x25519-rfc7748-lab-reference"

/-- `b"soveroot/share-sync/multihost/hello/v1\x00"`. -/
def helloDomain : Bytes := encodeAscii (ascii "soveroot/share-sync/multihost/hello/v1") ++ [0]

def maxHelloBytes : Nat := 32768

inductive HelloField where
  | format
  | messageType
  | networkId
  | role
  | peerId
  | identityAlgorithm
  | identityPublicKeyHex
  | operatorGroup
  | transport
  | endpoint
  | ephemeralAlgorithm
  | ephemeralPublicKeyHex
  | nonceHex
  | issuedTick
  | expiresTick
  | signatureHex
  deriving DecidableEq

/-- `_HELLO_FIELDS`: the keys that are signed. -/
def helloFields : List HelloField :=
  [.format, .messageType, .networkId, .role, .peerId, .identityAlgorithm, .identityPublicKeyHex,
    .operatorGroup, .transport, .endpoint, .ephemeralAlgorithm, .ephemeralPublicKeyHex, .nonceHex,
    .issuedTick, .expiresTick]

instance : Json.Keys HelloField where
  all := helloFields ++ [.signatureHex]
  name
    | .format => ascii "format"
    | .messageType => ascii "message_type"
    | .networkId => ascii "network_id"
    | .role => ascii "role"
    | .peerId => ascii "peer_id"
    | .identityAlgorithm => ascii "identity_algorithm"
    | .identityPublicKeyHex => ascii "identity_public_key_hex"
    | .operatorGroup => ascii "operator_group"
    | .transport => ascii "transport"
    | .endpoint => ascii "endpoint"
    | .ephemeralAlgorithm => ascii "ephemeral_algorithm"
    | .ephemeralPublicKeyHex => ascii "ephemeral_public_key_hex"
    | .nonceHex => ascii "nonce_hex"
    | .issuedTick => ascii "issued_tick"
    | .expiresTick => ascii "expires_tick"
    | .signatureHex => ascii "signature_hex"
  mem_all f := by cases f <;> decide
  nodup := by decide +kernel

/-- The document that is signed. -/
def helloBody (r : HelloField → Json) : Json :=
  .obj (helloFields.map fun f => (Json.Keys.name f, r f))

/-- What `verify_hello` is told to expect. -/
structure Expected where
  peerId : Text
  publicKeyHex : Text
  role : Text
  operatorGroup : Text
  transport : Text
  endpoint : Text
  networkId : Text

section

-- `identity_verify`
variable (identityVerify : Text → Bytes → Text → Bool)

def verifyHello (hello : Json) (expected : Expected) (currentTick : Int) :
    Except SafetyError Json := do
  let r ← orRaise (Json.record? HelloField hello)
    ⟨"hello_fields", "hello fields are not canonical"⟩
  require (hello.canonicalBytes.length ≤ maxHelloBytes)
    ⟨"hello_size", "hello exceeds its frozen byte limit"⟩
  require ((r .format).isText protocol ∧ (r .messageType).isText (ascii "session_hello"))
    ⟨"hello_profile", "hello uses the wrong profile"⟩
  require ((r .networkId).isText expected.networkId)
    ⟨"wrong_network", "hello is bound to a different network"⟩
  require ((r .role).isText expected.role) ⟨"hello_role", "hello uses the wrong session role"⟩
  require ((r .peerId).isText expected.peerId) ⟨"wrong_identity", "hello peer id is not pinned"⟩
  require ((r .identityAlgorithm).isText identityAlgorithm ∧
      (r .ephemeralAlgorithm).isText ephemeralAlgorithm)
    ⟨"algorithm_downgrade", "hello changes a frozen algorithm identifier"⟩
  let _ ← requireHex (.str expected.publicKeyHex) 32 "identity_key" "pinned identity public key"
  require ((r .identityPublicKeyHex).isText expected.publicKeyHex)
    ⟨"wrong_identity", "hello identity key is not pinned"⟩
  let _ ← requireText (r .operatorGroup) "hello_operator" "operator group" 64
  let _ ← requireText (r .transport) "hello_transport" "transport" 32
  let _ ← requireText (r .endpoint) "hello_endpoint" "endpoint" 128
  let _ ← requireHex (r .ephemeralPublicKeyHex) 32 "ephemeral_key" "ephemeral public key"
  let _ ← requireHex (r .nonceHex) 32 "hello_nonce" "hello nonce"
  let issued ← orRaise (r .issuedTick).asInt
    ⟨"expired_hello", "hello is outside its frozen lifetime"⟩
  let expires ← orRaise (r .expiresTick).asInt
    ⟨"expired_hello", "hello is outside its frozen lifetime"⟩
  require (expires = issued + helloLifetimeTicks ∧ issued ≤ currentTick ∧ currentTick ≤ expires)
    ⟨"expired_hello", "hello is outside its frozen lifetime"⟩
  let signature ← requireHex (r .signatureHex) 64 "identity_signature" "identity signature"
  require (identityVerify expected.publicKeyHex (helloDomain ++ (helloBody r).canonicalBytes)
    signature)
    ⟨"identity_signature", "hello identity signature is invalid"⟩
  require ((r .operatorGroup).isText expected.operatorGroup ∧
      (r .transport).isText expected.transport ∧ (r .endpoint).isText expected.endpoint)
    ⟨"peer_metadata", "signed peer metadata does not match the pinned configuration"⟩
  pure hello

theorem verifyHello_eq_ok {hello hello' : Json} {expected : Expected} {currentTick : Int}
    (h : verifyHello identityVerify hello expected currentTick = .ok hello') :
    ∃ r nonce issued, Json.record? HelloField hello = some r ∧ r .nonceHex = .str nonce ∧
      r .issuedTick = .int issued ∧ issued ≤ currentTick ∧
      currentTick ≤ issued + helloLifetimeTicks := by
  simp only [verifyHello, bind_eq_ok, orRaise_eq_ok, require_eq_ok, Json.asInt_eq_some] at h
  obtain ⟨r, hr, _, -, _, -, _, -, _, -, _, -, _, -, _, -, _, -, _, -, _, -, _, -, _, -,
    nonce, hnonce,
    issued, hissued, expires, -, _, ⟨rfl, hle, hge⟩, -⟩ := h
  exact ⟨r, nonce, issued, hr, requireHex_eq_ok hnonce, hissued, hle, hge⟩

end

/-! ## The node -/

inductive SessionError where
  | routedError (reason detail : String)
  | safetyError (error : SafetyError)

/-- What the peer table pins for a peer. -/
structure Peer where
  host : Text
  identityPublicKeyHex : Text
  operatorGroup : Text
  transport : Text
  endpoint : Text

/-- The admission state of a node, and the snapshot in its transport state file. -/
structure Node where
  live : Controller
  saved : Option Json

/-- `_save_transport_state`, the admission part. -/
def Node.save (node : Node) : Node := { node with saved := some node.live.snapshot }

/-- `_load_transport_state`, the admission part: sessions do not survive a restart. -/
def load : Option Json → Except SafetyError Controller
  | none => .ok .fresh
  | some snapshot => do
      let c ← restore snapshot
      pure { c with activeIdentity := Dict.empty, activePrefix := Dict.empty }

def onLive {α : Type} (method : Method α) : Stateful Node SessionError α := fun node =>
  ((method node.live).1.mapError .safetyError, { node with live := (method node.live).2 })

section

variable (identityVerify : Text → Bytes → Text → Bool)

/-- `handle_peer_session` until the hello is verified. -/
def handlePeerSession (peers : Text → Option Peer) (hello : List (Text × Json)) (sourceIp : Text)
    (now : Int) : Stateful Node SessionError Json := do
  let peerId ← check (orRaise ((Json.member hello (ascii "peer_id")).bind Json.asText)
    (.routedError "hello_peer" "hello peer id is missing"))
  let peer ← check (orRaise (peers peerId)
    (.routedError "unknown_peer" "peer is absent from the pinned table"))
  check (require (sourceIp = peer.host)
    (.routedError "source_identity_mismatch" "source IP does not match the pinned peer route"))
  let _ ← onLive (admitHandshake peerId sourceIp
    ((Json.member hello (ascii "nonce_hex")).getD .null) now)
  update Node.save
  check ((verifyHello identityVerify (.obj hello)
    { peerId := peerId
      publicKeyHex := peer.identityPublicKeyHex
      role := ascii "initiator"
      operatorGroup := peer.operatorGroup
      transport := peer.transport
      endpoint := peer.endpoint
      networkId := networkId } now).mapError .safetyError)

/-- What can happen at a node. Calls of the admission controller and saves come from any thread, in
any order; a restart may come after any of them, also with another peer table. -/
inductive Event where
  | hello (peers : Text → Option Peer) (hello : List (Text × Json)) (sourceIp : Text) (now : Int)
  | call (op : Op)
  | save
  | restart

/-- The hello an event has accepted. -/
abbrev Accepted := Option (List (Text × Json))

/-- One event. A node whose saved state is refused does not come up again. -/
def Node.step (node : Node) : Event → Option (Accepted × Node)
  | .hello peers hello sourceIp now =>
    match handlePeerSession identityVerify peers hello sourceIp now node with
    | (.ok _, node') => some (some hello, node')
    | (.error _, node') => some (none, node')
  | .call op => some (none, { node with live := (perform op node.live).2 })
  | .save => some (none, node.save)
  | .restart => (load node.saved).toOption.map fun c => (none, { node with live := c })

def Node.run (node : Node) : List Event → List Accepted
  | [] => []
  | event :: events =>
    match node.step identityVerify event with
    | some (accepted, node') => accepted :: node'.run events
    | none => []

end

def Op.tick? : Op → Option Int
  | .handshake _ _ _ tick => some tick
  | .close _ _ => none
  | .message _ _ tick => some tick
  | .quarantine _ tick => some tick

/-- The admission tick of an event. -/
def Event.tick? : Event → Option Int
  | .hello _ _ _ now => some now
  | .call op => op.tick?
  | .save => none
  | .restart => none

end Soveroot.Multihost
