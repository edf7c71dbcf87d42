/-
# `BBC.Node.Runtime` — the state of a node process

`NodeRuntime` of `src/node/control_server.cpp`.  Three groups of fields have a lock
of their own: the two stores, the mining fields and the synchronization fields.
A handler is a `Sections.Program` over this state with one section for each scope of
a lock, so handlers of different threads interleave between the sections only.

What a handler hands to the peer network is its output.  The network itself is
seen through what the node reads of it: the snapshot `peers()` and the tip that the
next `HELLO` advertises.
-/
import BBC.Lib.Sections
import BBC.Network.Protocol
import BBC.Storage.ChainStore
import BBC.Storage.MempoolStore
import Mathlib.Data.List.Sort

namespace BBC

/-- `node::ActorRole`. -/
inductive ActorRole where
  | wallet
  | fullNode
  | miner
  deriving DecidableEq, Repr

/-- `RuntimeConfig`, as far as the modelled handlers read it. -/
structure RuntimeConfig where
  networkProfile : NetworkProfile
  roles : List ActorRole
  rewardAddress : Option Address := none

namespace RuntimeConfig

/-- `RuntimeConfig::has_role`. -/
def hasRole (config : RuntimeConfig) (role : ActorRole) : Bool := config.roles.contains role

/-- The chain id of the configured network. -/
def chainId (config : RuntimeConfig) : UInt32 := (networkParameters config.networkProfile).chainId

end RuntimeConfig

/-- The values of `sync_state_`. -/
inductive SyncState where
  | idle
  | upToDate
  | diverged
  | syncing
  | complete
  | failed
  deriving DecidableEq, Repr

/-- The values of `mining_state_`. -/
inductive MiningState where
  | idle
  | preparing
  | ready
  | scheduled
  | running
  | submitted
  | accepted
  | rejected
  | cancelled
  | failed
  | stopped
  | waiting
  deriving DecidableEq, Repr

/-- The values of `transaction_state_`. -/
inductive TransactionState where
  | idle
  | submitted
  | accepted
  | rejected
  deriving DecidableEq, Repr

/-- The fields behind `sync_mutex_`. -/
structure SyncStatus where
  state : SyncState := .idle
  nextRequest : UInt64 := 1
  peer : Option UInt64 := none
  pendingRequest : Option UInt64 := none
  targetHeight : Option UInt64 := none
  targetTip : Option Hash256 := none
  locatorTip : Option Hash256 := none
  receivedBlocks : UInt64 := 0
  deriving DecidableEq

/-- What the mining thread works on; `scheduled` is a thread that still sleeps until
its start. -/
structure MiningWorker where
  peerId : UInt64
  candidate : Block
  scheduled : Bool := false
  deriving DecidableEq

/-- The fields behind `mining_mutex_`, the mining flags and the mining thread. -/
structure MiningStatus where
  active : Bool := false
  cancelled : Bool := false
  continuous : Bool := false
  state : MiningState := .idle
  nextTemplateRequest : UInt64 := 1
  sourcePeer : Option UInt64 := none
  pendingTemplateRequest : Option UInt64 := none
  parent : Option Hash256 := none
  height : Option UInt64 := none
  foundBlockId : Option Hash256 := none
  knownHeight : UInt64 := 0
  knownTip : Hash256 := .zero
  deferStart : Bool := false
  preparedCandidate : Option Block := none
  preparedPeer : Option UInt64 := none
  worker : Option MiningWorker := none
  deriving DecidableEq

/-- The fields behind `transaction_mutex_`. -/
structure TransactionStatus where
  state : TransactionState := .idle
  pendingId : Option Hash256 := none
  pendingPeer : Option UInt64 := none
  deriving DecidableEq

/-- What the node sees of its `PeerNetwork`. -/
structure NetworkView where
  peers : List PeerStatus := []
  tipHeight : UInt64
  tipBlockId : Hash256

/-- `NodeRuntime`. -/
structure NodeRuntime where
  config : RuntimeConfig
  chainStore : Option ChainStore := none
  mempoolStore : Option MempoolStore := none
  network : Option NetworkView := none
  mining : MiningStatus := {}
  sync : SyncStatus := {}
  transaction : TransactionStatus := {}

/-- What a handler hands to the peer network. -/
inductive Output where
  | send (peerId : UInt64) (type : MessageType) (payload : Bytes)
  | broadcast (type : MessageType) (payload : Bytes) (excludedPeer : Option UInt64)
  deriving DecidableEq

/-- What the storage does at one section. -/
structure StorageIo where
  append : AppendIo := {}
  mempoolOk : Bool := true

/-- A handler of the node. -/
abbrev Task := Sections.Program NodeRuntime StorageIo Output

namespace NodeRuntime

/-! ## The peer network as the node uses it -/

/-- `network_->peers()`. -/
def peers (n : NodeRuntime) : List PeerStatus :=
  match n.network with
  | none => []
  | some view => view.peers

/-- The peers to which `PeerNetwork::send` sends. -/
def reaches (n : NodeRuntime) (peerId : UInt64) : Bool :=
  n.peers.any fun peer => peer.id = peerId && peer.handshakeComplete

/-- `network_->send`; its result is `reaches`. -/
def send (n : NodeRuntime) (peerId : UInt64) (type : MessageType) (payload : Bytes) :
    List Output :=
  if n.reaches peerId then [.send peerId type payload] else []

/-- `network_->broadcast`. -/
def broadcast (n : NodeRuntime) (type : MessageType) (payload : Bytes)
    (excludedPeer : Option UInt64) : List Output :=
  if n.network.isSome then [.broadcast type payload excludedPeer] else []

/-- `network_->update_tip`. -/
def updateTip (n : NodeRuntime) (height : UInt64) (tip : Hash256) : NodeRuntime :=
  { n with
    network := n.network.map fun view => { view with tipHeight := height, tipBlockId := tip } }

/-- The miner's view of the tip. -/
def known (n : NodeRuntime) : UInt64 × Hash256 := (n.mining.knownHeight, n.mining.knownTip)

/-- The peer network has opened, completed or closed sessions. -/
def setPeers (n : NodeRuntime) (peers : List PeerStatus) : NodeRuntime :=
  { n with network := n.network.map fun view => { view with peers := peers } }

/-- The snapshot after the handshake of a session has been recorded.  `PeerNetwork::peers`
sorts by the id of the session, not by the time of the handshake. -/
def greeted (n : NodeRuntime) (peer : PeerStatus) : NodeRuntime :=
  n.setPeers ((n.peers.filter fun other => other.id ≠ peer.id).orderedInsert
    (fun a b => a.id ≤ b.id) { peer with handshakeComplete := true })

/-- The snapshot after a session has ended. -/
def parted (n : NodeRuntime) (peerId : UInt64) : NodeRuntime :=
  n.setPeers (n.peers.filter fun other => other.id ≠ peerId)

variable {n : NodeRuntime}

theorem peers_setPeers (h : n.network.isSome = true) (peers : List PeerStatus) :
    (n.setPeers peers).peers = peers := by
  obtain ⟨view, hview⟩ := Option.isSome_iff_exists.mp h
  rw [NodeRuntime.peers, setPeers, hview]
  rfl

theorem mem_peers_greeted (h : n.network.isSome = true) {peer other : PeerStatus} :
    other ∈ (n.greeted peer).peers ↔
      other = { peer with handshakeComplete := true } ∨ other ∈ n.peers ∧ other.id ≠ peer.id := by
  rw [greeted, peers_setPeers h, List.mem_orderedInsert, List.mem_filter]
  simp

theorem mem_peers_parted (h : n.network.isSome = true) {peerId : UInt64} {other : PeerStatus} :
    other ∈ (n.parted peerId).peers ↔ other ∈ n.peers ∧ other.id ≠ peerId := by
  rw [parted, peers_setPeers h, List.mem_filter]
  simp

theorem reaches_eq_true {peerId : UInt64} :
    n.reaches peerId = true ↔
      ∃ peer ∈ n.peers, peer.id = peerId ∧ peer.handshakeComplete = true := by
  rw [reaches, List.any_eq_true]
  simp

theorem reaches_greeted_self (h : n.network.isSome = true) (peer : PeerStatus) :
    (n.greeted peer).reaches peer.id = true :=
  reaches_eq_true.mpr ⟨_, (mem_peers_greeted h).mpr (Or.inl rfl), rfl, rfl⟩

/-- A handshake closes no other session. -/
theorem reaches_greeted (h : n.network.isSome = true) (peer : PeerStatus) {peerId : UInt64}
    (hreach : n.reaches peerId = true) : (n.greeted peer).reaches peerId = true := by
  obtain ⟨other, hother, rfl, hopen⟩ := reaches_eq_true.mp hreach
  by_cases hsame : other.id = peer.id
  · rw [hsame]
    exact reaches_greeted_self h peer
  · exact reaches_eq_true.mpr ⟨other, (mem_peers_greeted h).mpr (Or.inr ⟨hother, hsame⟩),
      rfl, hopen⟩

/-- The end of a session closes no other one. -/
theorem reaches_parted (h : n.network.isSome = true) {peerId other : UInt64}
    (hne : peerId ≠ other) (hreach : n.reaches peerId = true) :
    (n.parted other).reaches peerId = true := by
  obtain ⟨peer, hpeer, rfl, hopen⟩ := reaches_eq_true.mp hreach
  exact reaches_eq_true.mpr ⟨peer, (mem_peers_parted h).mpr ⟨hpeer, hne⟩, rfl, hopen⟩

/-! ## Starting -/

/-- The files of a data directory. -/
structure DataDirectory where
  blocksFile : Option Bytes := none
  mempoolRows : List MempoolRow := []

/-- What the outside world does while a node starts. -/
structure StartIo where
  files : InitializeIo := {}
  chain : OpenIo := {}
  mempool : MempoolOpenIo := {}

/-- `NodeRuntime::initialize`, after the wallet has been made; `none` is a start that
failed. -/
def initializeNode (κ : Crypto) (config : RuntimeConfig) (directory : DataDirectory)
    (io : StartIo) : Option NodeRuntime :=
  if config.hasRole .miner ∧ config.rewardAddress.isNone then none
  else if ¬ config.hasRole .fullNode then some { config }
  else
    let opened :=
      match directory.blocksFile with
      | some file => ChainStore.openStore κ config.chainId io.chain (some file)
      | none => ChainStore.initializeStore κ config.chainId io.files io.chain
    match opened with
    | .error _ => none
    | .ok chainStore =>
        match MempoolStore.openStore κ io.mempool directory.mempoolRows
          chainStore.blockchain.state with
        | .error _ => none
        | .ok mempoolStore =>
            some { config, chainStore := some chainStore, mempoolStore := some mempoolStore }

/-- The tip that `start_network` announces. -/
def startTip (κ : Crypto) (n : NodeRuntime) : Block :=
  match n.chainStore with
  | some store => store.blockchain.tip
  | none => genesisBlock κ n.config.chainId

/-- `NodeRuntime::start_network`, with a listener that starts. -/
def startNetwork (κ : Crypto) (n : NodeRuntime) : NodeRuntime :=
  if ¬ n.config.hasRole .fullNode ∧ ¬ n.config.hasRole .miner then n
  else
    let tip := n.startTip κ
    { n with
      network := some { tipHeight := tip.height, tipBlockId := tip.id κ }
      mining :=
        if n.config.hasRole .miner then
          { n.mining with knownHeight := tip.height, knownTip := tip.id κ }
        else n.mining }

end NodeRuntime

end BBC
