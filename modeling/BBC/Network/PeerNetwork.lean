/-
# `BBC.Network.PeerNetwork` — sessions, targets and their handlers

`PeerNetwork::Impl` of `src/network/peer_network.cpp`.  All of it runs on one thread:
the state changes when a completion handler runs, and a handler runs to its end.
A run is therefore a list of handlers (`NetworkEvent`), in any order.

A session object outlives its entry in `sessions_`, since every handler that still
waits holds a reference to it; `objects` keeps them all.  Two things the operating
system decides are left open:

* a timer may fire at any moment, and cancelling it may come too late;
* a read that was started on an open socket may still report success after the
  socket was closed, if it had completed before.  A read started on a closed socket
  fails.
-/
import BBC.Lib.Runs
import BBC.Network.Hello
import Mathlib.Logic.Function.Basic

namespace BBC

def maximumOutboundQueueSize : Nat := 4 * 1024 * 1024
def maximumPeerCount : Nat := 64
def maximumConnectionsPerIp : Nat := 16
def reconnectInitialDelay : Nat := 250
def reconnectMaximumDelay : Nat := 5000

/-- `network::PeerDirection`. -/
inductive PeerDirection where
  | inbound
  | outbound
  deriving DecidableEq, Repr

/-- `network::PeerAddressScope`. -/
inductive PeerAddressScope where
  | loopback
  | privateNetwork
  | publicNetwork
  deriving DecidableEq, Repr

/-- An IPv4 endpoint; its text is the key of `targets_`. -/
structure Endpoint where
  address : FixedBytes 4
  port : UInt16
  deriving DecidableEq

/-- `is_rfc1918`. -/
def isRfc1918 (address : FixedBytes 4) : Bool :=
  address.get 0 = 10
    || (address.get 0 = 172 && 16 ≤ address.get 1 && address.get 1 ≤ 31)
    || (address.get 0 = 192 && address.get 1 = 168)

/-- `address_allowed`, of an IPv4 address. -/
def addressAllowed (address : FixedBytes 4) (scope : PeerAddressScope) : Bool :=
  if address.toList.all (· = 0) ∨ (224 ≤ address.get 0 ∧ address.get 0 ≤ 239)
      ∨ address.toList.all (· = 0xFF) then false
  else if address.get 0 = 127 then true
  else if scope = .privateNetwork then isRfc1918 address
  else scope = .publicNetwork

/-- `network::PeerNetworkConfig`.  `start_network` takes the chain id from a network
profile. -/
structure PeerNetworkConfig where
  listen : Bool
  chainId : UInt32
  services : UInt64
  tipHeight : UInt64
  tipBlockId : Hash256
  genesisBlockId : Hash256
  addressScope : PeerAddressScope
  supported : SupportedChain chainId

/-- The reasons with which a session is stopped. -/
inductive StopReason where
  | handshakeTimeout
  | outboundQueueLimitExceeded
  | socketWriteFailed
  | socketReadFailed
  | protocol (error : ProtocolError)
  | helloMustBeFirst
  | duplicateHello
  | messageBeforeHandshake
  | networkIdentityMismatch
  | selfConnection
  | unsupportedService
  | noCommonProtocolVersion
  | duplicatePeerConnection
  | disconnectedByControl
  | pongTimeout
  | nodeShutdown
  deriving DecidableEq, Repr

/-- `network::PeerEvent`, by its type. -/
inductive PeerEvent where
  | connected (id : Nat)
  | disconnected (id : Nat) (reason : StopReason)
  | handshakeComplete (id : Nat)
  | pong (id : Nat) (nonce : UInt64)
  | unmatchedPong (id : Nat) (nonce : UInt64)
  | rejected (remote : Endpoint)
  | acceptFailed
  | connectFailed (endpoint : Endpoint)
  | disconnectFailed (endpoint : Endpoint)
  | targetRemoved (endpoint : Endpoint)
  deriving DecidableEq

/-- The read a session waits for. -/
inductive Reading where
  | nothing
  | header
  | payload (header : FrameHeader)
  deriving DecidableEq

/-- `PeerNetwork::Impl::Session`. -/
structure Session where
  direction : PeerDirection
  /-- `none` when the remote endpoint could not be read. -/
  endpoint : Option Endpoint
  target : Option Nat
  reading : Reading := .nothing
  /-- The socket was open when the read was started. -/
  readOpen : Bool := false
  writing : Bool := false
  outbound : List Bytes := []
  queuedBytes : Nat := 0
  remoteHello : Option HelloPayload := none
  selectedProtocolVersion : UInt16 := 0
  lastPingNonce : Option UInt64 := none
  lastPongNonce : Option UInt64 := none
  livenessNonce : Option UInt64 := none
  handshakeComplete : Bool := false
  stopped : Bool := false

/-- `PeerNetwork::Impl::Target`. -/
structure Target where
  endpoint : Endpoint
  reconnectDelay : Nat := reconnectInitialDelay
  sessionId : Option Nat := none
  enabled : Bool := true
  connecting : Bool := false
  timerArmed : Bool := false

/-- `PeerNetwork::Impl`.  `emitted` are the calls of the event handler and
`delivered` those of the message handler. -/
structure PeerNetwork where
  config : PeerNetworkConfig
  sessionNonce : FixedBytes 16
  stopping : Bool := false
  accepting : Bool := false
  acceptRetryArmed : Bool := false
  nextSessionId : Nat := 1
  objects : Nat → Option Session := fun _ => none
  sessions : List Nat := []
  nextTarget : Nat := 0
  targetObjects : Nat → Option Target := fun _ => none
  targets : List (Endpoint × Nat) := []
  peerStatus : List (Nat × PeerStatus) := []
  nextPingNonce : UInt64 := 1
  emitted : List PeerEvent := []
  delivered : List (Nat × Message) := []
  /-- A loop over `sessions_` has gone on from an erased element: undefined behaviour, and the
  other fields say nothing any more. -/
  undefined : Bool := false

/-- A target is given up; its timer is cancelled. -/
def Target.disable (target : Target) : Target :=
  { target with enabled := false, timerArmed := false }

namespace Session

/-- `Session::status`. -/
def status (s : Session) (id : Nat) : PeerStatus where
  id := UInt64.ofNat id
  handshakeComplete := s.handshakeComplete
  services := (s.remoteHello.map HelloPayload.services).getD 0
  remoteHeight := (s.remoteHello.map HelloPayload.tipHeight).getD 0
  remoteTip := (s.remoteHello.map HelloPayload.tipBlockId).getD .zero

/-- `Session::write_next`. -/
def writeNext (s : Session) : Session := { s with writing := s.outbound ≠ [] ∧ ¬ s.stopped }

/-- The part of `Session::send` that queues a frame. -/
def queue (frame : Bytes) (s : Session) : Session :=
  let queued := { s with
    queuedBytes := s.queuedBytes + frame.length
    outbound := s.outbound ++ [frame] }
  if s.outbound = [] then queued.writeNext else queued

/-- A read is started. -/
def startRead (reading : Reading) (s : Session) : Session :=
  { s with reading := reading, readOpen := ¬ s.stopped }

/-- The handler of the read runs. -/
def endRead (s : Session) : Session := { s with reading := .nothing }

/-- `last_ping_nonce_` is set. -/
def pinged (nonce : UInt64) (s : Session) : Session := { s with lastPingNonce := some nonce }

/-- `last_pong_nonce_` is set. -/
def ponged (nonce : UInt64) (s : Session) : Session := { s with lastPongNonce := some nonce }

/-- `liveness_nonce_` is set or reset. -/
def watch (nonce : Option UInt64) (s : Session) : Session := { s with livenessNonce := nonce }

/-- The write under way ends. -/
def endWrite (s : Session) : Session := { s with writing := false }

/-- The first frame has been written. -/
def dequeue (s : Session) : Session :=
  Session.writeNext { s with
    queuedBytes := s.queuedBytes - (s.outbound.headD []).length
    outbound := s.outbound.tail }

/-- `adopt_target`. -/
def adopt (t : Nat) (s : Session) : Session := { s with target := some t }

/-- `stopped_` is set. -/
def halt (s : Session) : Session := { s with stopped := true }

/-- `remote_hello_` and `selected_protocol_version_` are set. -/
def greet (hello : HelloPayload) (s : Session) : Session :=
  { s with
    remoteHello := some hello
    selectedProtocolVersion := min hello.maximumProtocolVersion protocolVersion }

/-- `handshake_complete_` is set. -/
def welcome (s : Session) : Session := { s with handshakeComplete := true }

/-- The remote end has presented itself with this nonce. -/
def hasNonce (s : Session) (nonce : FixedBytes 16) : Bool :=
  s.remoteHello.any fun hello => hello.sessionNonce = nonce

end Session

namespace PeerNetwork

/-! ## Fields -/

def modifySession (n : PeerNetwork) (id : Nat) (f : Session → Session) : PeerNetwork :=
  { n with objects := Function.update n.objects id ((n.objects id).map f) }

def modifyTarget (n : PeerNetwork) (t : Nat) (f : Target → Target) : PeerNetwork :=
  { n with targetObjects := Function.update n.targetObjects t ((n.targetObjects t).map f) }

def emit (n : PeerNetwork) (event : PeerEvent) : PeerNetwork :=
  { n with emitted := n.emitted ++ [event] }

/-- The session is not stopped. -/
def isOpen (n : PeerNetwork) (id : Nat) : Bool := (n.objects id).any fun s => ¬ s.stopped

/-- `record_status`. -/
def recordStatus (n : PeerNetwork) (id : Nat) : PeerNetwork :=
  match n.objects id with
  | none => n
  | some s =>
      { n with peerStatus := n.peerStatus.filter (fun entry => entry.1 ≠ id)
          ++ [(id, s.status id)] }

/-- `local_hello`. -/
def localHello (n : PeerNetwork) : HelloPayload where
  minimumProtocolVersion := protocolVersion
  maximumProtocolVersion := protocolVersion
  chainId := n.config.chainId
  services := n.config.services
  sessionNonce := n.sessionNonce
  tipHeight := n.config.tipHeight
  tipBlockId := n.config.tipBlockId
  genesisBlockId := n.config.genesisBlockId

/-! ## Stopping a session -/

/-- `schedule_reconnect`. -/
def scheduleReconnect (n : PeerNetwork) (t : Nat) : PeerNetwork :=
  match n.targetObjects t with
  | none => n
  | some target =>
      if n.stopping ∨ ¬ target.enabled ∨ target.connecting ∨ target.sessionId.isSome then n
      else
        n.modifyTarget t fun target =>
          { target with
            timerArmed := true
            reconnectDelay := min (target.reconnectDelay * 2) reconnectMaximumDelay }

/-- The end of `session_stopped`: the target loses its session. -/
def releaseTarget (n : PeerNetwork) (id : Nat) (reconnect : Bool) : PeerNetwork :=
  match (n.objects id).bind Session.target with
  | none => n
  | some t =>
      if (n.targetObjects t).bind Target.sessionId = some id then
        let n := n.modifyTarget t fun target => { target with sessionId := none }
        if reconnect then n.scheduleReconnect t else n
      else n

/-- The session leaves both tables. -/
def unlist (n : PeerNetwork) (id : Nat) : PeerNetwork :=
  { n with
    peerStatus := n.peerStatus.filter fun entry => entry.1 ≠ id
    sessions := n.sessions.filter fun other => other ≠ id }

/-- `session_stopped`. -/
def sessionStopped (n : PeerNetwork) (id : Nat) (reason : StopReason) (reconnect : Bool) :
    PeerNetwork :=
  ((n.emit (.disconnected id reason)).unlist id).releaseTarget id reconnect

/-- `Session::stop`. -/
def stop (n : PeerNetwork) (id : Nat) (reason : StopReason) (notifyOwner reconnect : Bool) :
    PeerNetwork :=
  if n.isOpen id then
    let n := n.modifySession id Session.halt
    if notifyOwner then n.sessionStopped id reason reconnect else n
  else n

/-! ## Sending -/

/-- The frame cannot be sent, or does not fit into the outbound queue of the session. -/
def overflows (κ : Crypto) (n : PeerNetwork) (id : Nat) (type : MessageType) (payload : Bytes) :
    Prop :=
  let frame := serializeFrame κ n.config.chainId type payload
  frame = [] ∨ ((n.objects id).map Session.queuedBytes).getD 0 + frame.length
    > maximumOutboundQueueSize

instance (κ : Crypto) (n : PeerNetwork) (id : Nat) (type : MessageType) (payload : Bytes) :
    Decidable (n.overflows κ id type payload) :=
  inferInstanceAs (Decidable (_ ∨ _))

/-- `Session::send`. -/
def send (κ : Crypto) (n : PeerNetwork) (id : Nat) (type : MessageType) (payload : Bytes) :
    PeerNetwork :=
  if n.overflows κ id type payload then n.stop id .outboundQueueLimitExceeded true true
  else n.modifySession id (Session.queue (serializeFrame κ n.config.chainId type payload))

/-- The session has completed its handshake and is not stopped. -/
def isReady (n : PeerNetwork) (id : Nat) : Bool :=
  (n.objects id).any fun s => s.handshakeComplete ∧ ¬ s.stopped

/-- `Session::send_ping`. -/
def sendPing (κ : Crypto) (n : PeerNetwork) (id : Nat) (nonce : UInt64) : PeerNetwork :=
  if n.isReady id then
    ((n.modifySession id (Session.pinged nonce)).recordStatus id).send κ id .ping
      (serializePingNonce nonce)
  else n

/-- `Session::send_message`. -/
def sendMessage (κ : Crypto) (n : PeerNetwork) (id : Nat) (type : MessageType) (payload : Bytes) :
    PeerNetwork :=
  if n.isReady id then n.send κ id type payload else n

/-- The loops over `sessions_`.  A session that is erased in its own turn leaves the loop
without a next element. -/
def eachSession (f : PeerNetwork → Nat → PeerNetwork) : List Nat → PeerNetwork → PeerNetwork
  | [], n => n
  | id :: ids, n =>
      if id ∈ (f n id).sessions then eachSession f ids (f n id)
      else { f n id with undefined := true }

/-- The handler that `ping_all` posts. -/
def pingAll (κ : Crypto) (n : PeerNetwork) (nonce : UInt64) : PeerNetwork :=
  n.eachSession (fun n id => n.sendPing κ id nonce) n.sessions

/-- The handler that `broadcast` posts. -/
def broadcast (κ : Crypto) (n : PeerNetwork) (type : MessageType) (payload : Bytes)
    (excludedPeer : Option Nat) : PeerNetwork :=
  n.eachSession
    (fun n id => if some id = excludedPeer then n else n.sendMessage κ id type payload) n.sessions

/-! ## The handshake -/

/-- `Session::adopt_target`, and the target's own record of it. -/
def adoptTarget (n : PeerNetwork) (id : Nat) (target : Option Nat) : PeerNetwork :=
  match target with
  | none => n
  | some t =>
      (n.modifySession id (Session.adopt t)).modifyTarget t fun target =>
        { target with sessionId := some id }

/-- The session that the loop of `complete_handshake` stops at. -/
def duplicateOf (n : PeerNetwork) (id : Nat) (nonce : FixedBytes 16) : Option Nat :=
  n.sessions.find? fun other => other ≠ id ∧ (n.objects other).any fun s => s.hasNonce nonce

/-- The direction that `complete_handshake` prefers. -/
def preferred (n : PeerNetwork) (nonce : FixedBytes 16) : PeerDirection :=
  if n.sessionNonce.lessThan nonce then .outbound else .inbound

/-- The session has the given direction. -/
def directed (n : PeerNetwork) (id : Nat) (direction : PeerDirection) : Bool :=
  (n.objects id).any fun s => s.direction = direction

/-- The target of a session. -/
def targetOf (n : PeerNetwork) (id : Nat) : Option Nat := (n.objects id).bind Session.target

/-- The candidate gives way to the session `other`. -/
def yieldTo (n : PeerNetwork) (id other : Nat) : PeerNetwork :=
  let n := if (n.targetOf other).isNone then n.adoptTarget other (n.targetOf id) else n
  n.stop id .duplicatePeerConnection true false

/-- The candidate takes the place of the session `other`. -/
def replace (n : PeerNetwork) (id other : Nat) : PeerNetwork :=
  let n := if (n.targetOf id).isNone then n.adoptTarget id (n.targetOf other) else n
  n.stop other .duplicatePeerConnection true false

/-- The last lines of `complete_handshake`. -/
def resetDelay (n : PeerNetwork) (id : Nat) : PeerNetwork :=
  match n.targetOf id with
  | none => n
  | some t => n.modifyTarget t fun target => { target with reconnectDelay := reconnectInitialDelay }

/-- `complete_handshake`.  The first session with the same nonce decides: it is
replaced, or the candidate is stopped and the handshake refused. -/
def completeHandshake (n : PeerNetwork) (id : Nat) (nonce : FixedBytes 16) : PeerNetwork × Bool :=
  match n.duplicateOf id nonce with
  | none => (n.resetDelay id, true)
  | some other =>
      if n.directed id (n.preferred nonce) ∧ ¬ n.directed other (n.preferred nonce) then
        ((n.replace id other).resetDelay id, true)
      else (n.yieldTo id other, false)

/-- The checks of `Session::handle_hello`. -/
def checkHello (n : PeerNetwork) (payload : Bytes) : Except StopReason HelloPayload :=
  match deserializeHello payload with
  | .error e => .error (.protocol e)
  | .ok hello =>
      if hello.chainId ≠ n.config.chainId ∨ hello.genesisBlockId ≠ n.config.genesisBlockId then
        .error .networkIdentityMismatch
      else if hello.sessionNonce = n.sessionNonce then .error .selfConnection
      else if hello.services &&& (fullNodeService ||| miningService) = 0 then
        .error .unsupportedService
      else if max hello.minimumProtocolVersion protocolVersion
          > min hello.maximumProtocolVersion protocolVersion then
        .error .noCommonProtocolVersion
      else .ok hello

/-- The session has been greeted. -/
def greet (n : PeerNetwork) (id : Nat) (hello : HelloPayload) : PeerNetwork :=
  n.modifySession id (Session.greet hello)

/-- The handshake is complete. -/
def welcome (n : PeerNetwork) (id : Nat) : PeerNetwork :=
  ((n.modifySession id Session.welcome).recordStatus id).emit (.handshakeComplete id)

/-- `Session::handle_hello`. -/
def handleHello (n : PeerNetwork) (id : Nat) (payload : Bytes) : PeerNetwork × Bool :=
  match n.checkHello payload with
  | .error reason => (n.stop id reason true true, false)
  | .ok hello =>
      let r := (n.greet id hello).completeHandshake id hello.sessionNonce
      if r.2 then (r.1.welcome id, true) else (r.1, false)

/-! ## Messages -/

/-- A `PONG` answers the last ping, or is only reported. -/
def matchPong (n : PeerNetwork) (id : Nat) (s : Session) (nonce : UInt64) : PeerNetwork :=
  if s.lastPingNonce = some nonce then
    ((n.modifySession id (Session.ponged nonce)).recordStatus id).emit (.pong id nonce)
  else n.emit (.unmatchedPong id nonce)

/-- A `PONG` that arrives. -/
def handlePong (n : PeerNetwork) (id : Nat) (s : Session) (nonce : UInt64) : PeerNetwork :=
  let n := n.matchPong id s nonce
  if s.livenessNonce = some nonce then n.modifySession id (Session.watch none) else n

/-- `handle_application_message`. -/
def deliver (n : PeerNetwork) (id : Nat) (type : MessageType) (payload : Bytes) : PeerNetwork :=
  { n with delivered := n.delivered ++ [(id, type, payload)] }

/-- `Session::handle_message`, of the session `s` at `id`. -/
def handleMessage (κ : Crypto) (n : PeerNetwork) (id : Nat) (s : Session) (type : MessageType)
    (payload : Bytes) : PeerNetwork × Bool :=
  if s.remoteHello.isNone then
    if type ≠ .hello then (n.stop id .helloMustBeFirst true true, false)
    else n.handleHello id payload
  else if type = .hello then (n.stop id .duplicateHello true true, false)
  else if ¬ s.handshakeComplete then (n.stop id .messageBeforeHandshake true true, false)
  else if type = .ping then
    (n.send κ id .pong (serializePingNonce (deserializePingNonce payload)), true)
  else if type = .pong then (n.handlePong id s (deserializePingNonce payload), true)
  else (n.deliver id type payload, true)

/-- The handler of `read_header`; `none` is a failed read. -/
def headerRead (n : PeerNetwork) (id : Nat) (result : Option Bytes) : PeerNetwork :=
  let waiting := n.modifySession id Session.endRead
  match result with
  | none => waiting.stop id .socketReadFailed true true
  | some bytes =>
      match deserializeFrameHeader n.config.chainId bytes with
      | .error e => waiting.stop id (.protocol e) true true
      | .ok header => waiting.modifySession id (Session.startRead (.payload header))

/-- The handler of `read_payload`. -/
def payloadRead (κ : Crypto) (n : PeerNetwork) (id : Nat) (s : Session) (header : FrameHeader)
    (result : Option Bytes) : PeerNetwork :=
  let waiting := n.modifySession id Session.endRead
  match result with
  | none => waiting.stop id .socketReadFailed true true
  | some payload =>
      if validateFramePayload κ header payload ≠ .none then
        waiting.stop id (.protocol (validateFramePayload κ header payload)) true true
      else
        let r := waiting.handleMessage κ id s header.type payload
        if r.2 then r.1.modifySession id (Session.startRead .header) else r.1

/-- The handler of `write_next`. -/
def written (n : PeerNetwork) (id : Nat) (ok : Bool) : PeerNetwork :=
  let n := n.modifySession id Session.endWrite
  if ok then n.modifySession id Session.dequeue
  else n.stop id .socketWriteFailed true true

/-! ## Timers of a session -/

/-- The handler of `handshake_timer_`. -/
def handshakeTimer (n : PeerNetwork) (id : Nat) : PeerNetwork :=
  if (n.objects id).any Session.handshakeComplete then n
  else n.stop id .handshakeTimeout true true

/-- `reserve_ping_nonce`. -/
def reservePingNonce (n : PeerNetwork) : PeerNetwork :=
  { n with nextPingNonce := n.nextPingNonce + 1 }

/-- The handler of `idle_timer_`. -/
def idleTimer (κ : Crypto) (n : PeerNetwork) (id : Nat) : PeerNetwork :=
  if n.isReady id then
    (n.reservePingNonce.modifySession id (Session.watch (some n.nextPingNonce))).sendPing κ id
      n.nextPingNonce
  else n

/-- The handler of `pong_timer_`, armed with the given nonce. -/
def pongTimer (n : PeerNetwork) (id : Nat) (nonce : UInt64) : PeerNetwork :=
  if (n.objects id).any fun s => s.livenessNonce = some nonce then n.stop id .pongTimeout true true
  else n

/-! ## Connections -/

/-- A session object is made and put into `sessions_`. -/
def addSession (n : PeerNetwork) (session : Session) : PeerNetwork :=
  { n with
    nextSessionId := n.nextSessionId + 1
    objects := Function.update n.objects n.nextSessionId (some session)
    sessions := n.sessions ++ [n.nextSessionId] }

/-- `Session::start`. -/
def startSession (κ : Crypto) (n : PeerNetwork) (id : Nat) : PeerNetwork :=
  (((n.recordStatus id).emit (.connected id)).send κ id .hello
    (serializeHello n.localHello)).modifySession id (Session.startRead .header)

/-- `create_session`; the session is the last one created. -/
def createSession (κ : Crypto) (n : PeerNetwork) (direction : PeerDirection)
    (endpoint : Option Endpoint) (target : Option Nat) : PeerNetwork :=
  (n.addSession { direction, endpoint, target }).startSession κ n.nextSessionId

/-- `accept_next`. -/
def acceptNext (n : PeerNetwork) : PeerNetwork :=
  if n.stopping then n
  else if n.sessions.length ≥ maximumPeerCount then { n with acceptRetryArmed := true }
  else { n with accepting := true }

/-- The inbound sessions from an address. -/
def addressCount (n : PeerNetwork) (address : FixedBytes 4) : Nat :=
  n.sessions.countP fun id => (n.objects id).any fun s =>
    s.direction = .inbound ∧ s.endpoint.any fun endpoint => endpoint.address = address

/-- What `async_accept` brings: an error, or a socket and its remote endpoint. -/
def openAccepted (κ : Crypto) (n : PeerNetwork) (result : Option (Option Endpoint)) : PeerNetwork :=
  match result with
  | none => if n.stopping then n else n.emit .acceptFailed
  | some none => n.createSession κ .inbound none none
  | some (some remote) =>
      if n.addressCount remote.address ≥ maximumConnectionsPerIp then n.emit (.rejected remote)
      else n.createSession κ .inbound (some remote) none

/-- The handler of `async_accept`. -/
def accepted (κ : Crypto) (n : PeerNetwork) (result : Option (Option Endpoint)) : PeerNetwork :=
  ({ n with accepting := false }.openAccepted κ result).acceptNext

/-- `begin_connect`. -/
def beginConnect (n : PeerNetwork) (t : Nat) : PeerNetwork :=
  match n.targetObjects t with
  | none => n
  | some target =>
      if n.stopping ∨ ¬ target.enabled ∨ target.connecting ∨ target.sessionId.isSome
          ∨ n.sessions.length ≥ maximumPeerCount then n
      else n.modifyTarget t fun target => { target with connecting := true }

/-- A target is put into `targets_`. -/
def newTarget (n : PeerNetwork) (endpoint : Endpoint) : PeerNetwork :=
  { n with
    nextTarget := n.nextTarget + 1
    targetObjects := Function.update n.targetObjects n.nextTarget (some { endpoint })
    targets := n.targets ++ [(endpoint, n.nextTarget)] }

/-- `add_target`. -/
def addTarget (n : PeerNetwork) (endpoint : Endpoint) : PeerNetwork :=
  match n.targets.find? fun entry => entry.1 = endpoint with
  | some (_, t) =>
      if (n.targetObjects t).any fun target => ¬ target.connecting ∧ target.sessionId.isNone then
        n.beginConnect t
      else n
  | none => (n.newTarget endpoint).beginConnect n.nextTarget

/-- The handler of `async_connect` for the target `t`. -/
def connected (κ : Crypto) (n : PeerNetwork) (t : Nat) (target : Target)
    (result : Option (Option Endpoint)) : PeerNetwork :=
  let idle := n.modifyTarget t fun target => { target with connecting := false }
  match result with
  | none =>
      if ¬ n.stopping ∧ target.enabled then
        (idle.emit (.connectFailed target.endpoint)).scheduleReconnect t
      else idle
  | some endpoint =>
      if n.stopping ∨ ¬ target.enabled then idle
      else
        (idle.createSession κ .outbound endpoint (some t)).modifyTarget t fun target =>
          { target with sessionId := some n.nextSessionId }

/-- The session of a target is stopped by `disconnect`. -/
def stopTargetSession (n : PeerNetwork) (t : Nat) : PeerNetwork :=
  match (n.targetObjects t).bind Target.sessionId with
  | none => n
  | some id => if id ∈ n.sessions then n.stop id .disconnectedByControl true false else n

/-- A target is taken out of `targets_`. -/
def eraseTarget (n : PeerNetwork) (endpoint : Endpoint) : PeerNetwork :=
  { n with targets := n.targets.filter fun entry => entry.1 ≠ endpoint }

/-- The handler that `disconnect` posts. -/
def removeTarget (n : PeerNetwork) (endpoint : Endpoint) : PeerNetwork :=
  match n.targets.find? fun entry => entry.1 = endpoint with
  | none => n.emit (.disconnectFailed endpoint)
  | some (_, t) =>
      (((n.modifyTarget t Target.disable).stopTargetSession t).eraseTarget endpoint).emit
        (.targetRemoved endpoint)

/-- The sessions are stopped without a notice to the network. -/
def stopAll (n : PeerNetwork) (ids : List Nat) : PeerNetwork :=
  ids.foldl (fun n id => n.stop id .nodeShutdown false true) n

/-- The handler that `stop` posts. -/
def shutdown (n : PeerNetwork) : PeerNetwork :=
  n.targets.foldl (fun n entry => n.modifyTarget entry.2 Target.disable)
    { ({ n with stopping := true, accepting := false }.stopAll n.sessions) with sessions := [] }

/-! ## Runs -/

/-- A handler that runs on the thread of the network. -/
inductive NetworkEvent where
  | accepted (result : Option (Option Endpoint))
  | acceptRetry
  | connected (t : Nat) (result : Option (Option Endpoint))
  | reconnectTimer (t : Nat)
  | headerRead (id : Nat) (result : Option Bytes)
  | payloadRead (id : Nat) (result : Option Bytes)
  | written (id : Nat) (ok : Bool)
  | handshakeTimer (id : Nat)
  | idleTimer (id : Nat)
  | pongTimer (id : Nat) (nonce : UInt64)
  | connect (address : Option (FixedBytes 4)) (port : UInt16)
  | disconnect (address : Option (FixedBytes 4)) (port : UInt16)
  | reservePing
  | pingAll (nonce : UInt64)
  | updateTip (height : UInt64) (tip : Hash256)
  | sendMessage (id : Nat) (type : MessageType) (payload : Bytes)
  | broadcast (type : MessageType) (payload : Bytes) (excludedPeer : Option Nat)
  | shutdown
  deriving DecidableEq

/-- The endpoint that `connect` and `disconnect` accept. -/
def checkEndpoint (n : PeerNetwork) (address : Option (FixedBytes 4)) (port : UInt16) :
    Option Endpoint :=
  address.bind fun address =>
    if ¬ addressAllowed address n.config.addressScope ∨ port = 0 then none
    else some ⟨address, port⟩

/-- A read of `size` bytes ends; success needs a socket that was open at its start. -/
def readable (s : Session) (size : Nat) (result : Option Bytes) : Bool :=
  result.all fun bytes => s.readOpen ∧ bytes.length = size

/-- One handler; one that nothing waits for does not run. -/
def step (κ : Crypto) (n : PeerNetwork) : NetworkEvent → PeerNetwork
  | .accepted result => if n.accepting then n.accepted κ result else n
  | .acceptRetry =>
      if n.acceptRetryArmed then { n with acceptRetryArmed := false }.acceptNext else n
  | .connected t result =>
      match n.targetObjects t with
      | some target => if target.connecting then n.connected κ t target result else n
      | none => n
  | .reconnectTimer t =>
      if (n.targetObjects t).any Target.timerArmed then
        (n.modifyTarget t fun target => { target with timerArmed := false }).beginConnect t
      else n
  | .headerRead id result =>
      match n.objects id with
      | some s =>
          if s.reading = .header ∧ readable s frameHeaderSize result then n.headerRead id result
          else n
      | none => n
  | .payloadRead id result =>
      match n.objects id with
      | some s =>
          match s.reading with
          | .payload header =>
              if readable s header.payloadLength.toNat result then
                n.payloadRead κ id s header result
              else n
          | _ => n
      | none => n
  | .written id ok => if (n.objects id).any Session.writing then n.written id ok else n
  | .handshakeTimer id => n.handshakeTimer id
  | .idleTimer id => n.idleTimer κ id
  | .pongTimer id nonce => n.pongTimer id nonce
  | .connect address port =>
      match n.checkEndpoint address port with
      | some endpoint => n.addTarget endpoint
      | none => n
  | .disconnect address port =>
      match n.checkEndpoint address port with
      | some endpoint => n.removeTarget endpoint
      | none => n
  | .reservePing => n.reservePingNonce
  | .pingAll nonce => n.pingAll κ nonce
  | .updateTip height tip =>
      { n with config := { n.config with tipHeight := height, tipBlockId := tip } }
  | .sendMessage id type payload => if id ∈ n.sessions then n.sendMessage κ id type payload else n
  | .broadcast type payload excludedPeer => n.broadcast κ type payload excludedPeer
  | .shutdown => n.shutdown

/-- One of the loops over `sessions_` would erase the session that it is at. -/
def overruns (κ : Crypto) (n : PeerNetwork) : NetworkEvent → Bool
  | .pingAll nonce =>
      n.sessions.any fun id => n.isReady id && n.overflows κ id .ping (serializePingNonce nonce)
  | .broadcast type payload excludedPeer =>
      n.sessions.any fun id =>
        some id ≠ excludedPeer && n.isReady id && n.overflows κ id type payload
  | _ => false

/-- The network as the constructor and `start` leave it. -/
def start (config : PeerNetworkConfig) (sessionNonce : FixedBytes 16) : PeerNetwork :=
  { config, sessionNonce, accepting := config.listen }

/-- The handlers of a run, in order. -/
def run (κ : Crypto) (n : PeerNetwork) (events : List NetworkEvent) : PeerNetwork :=
  Runs.run (step κ) n events

/-- A listener on the regression-test network. -/
def regtestConfig : PeerNetworkConfig where
  listen := true
  chainId := 2
  services := fullNodeService
  tipHeight := 0
  tipBlockId := .zero
  genesisBlockId := .zero
  addressScope := .loopback
  supported := by decide

end PeerNetwork

end BBC
