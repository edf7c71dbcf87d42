/-
# `BBC.Node.LostPeer` — when the peer that owes blocks goes away

The callbacks of the peer network run one after the other on its thread:

    peer_handshake_complete   the snapshot shows the peer, `maybe_start_sync` runs
    peer_disconnected         the snapshot loses the peer, nothing else
    BLOCKS                    `handle_blocks` runs

A session that ends does not touch `pending_sync_request_`, and only the answer of
that session would clear it.  Two events leave a request to a session that is not
there:

    a session ends that owes the answer
    a session that has ended completes its handshake, and is asked

The second one is a late handler of the peer network.  The snapshot then shows a peer
without a session, and `send` reports a success; so a `FullNode` keeps, next to the
process, the sessions that have ended.  As long as neither of the two happens, a
pending request is one that an open session will answer, and a peer that is ahead is
asked as soon as nothing is pending.
-/
import BBC.Lib.Runs
import BBC.Node.SyncRuns

namespace BBC

open Sections (Program)
open Runs (Along)

variable {κ : Crypto}

/-- What the peer network reports to the node. -/
inductive SyncEvent where
  | handshake (peer : PeerStatus) (io : Nat → StorageIo)
  | disconnect (peerId : UInt64)
  | blocks (peerId : UInt64) (payload : Bytes) (io : Nat → StorageIo)

namespace NodeRuntime

variable {n : NodeRuntime} {chainId : UInt32}

/-! ## The snapshot -/

theorem Running.setPeers (h : n.Running κ chainId) (peers : List PeerStatus) :
    (n.setPeers peers).Running κ chainId :=
  h.congr (by rw [NodeRuntime.setPeers]; exact Option.isSome_map) rfl

theorem find_greeted (h : n.network.isSome = true) {peer : PeerStatus}
    (hfull : peer.isFullNode = true) :
    (n.greeted peer).peers.find? (fun other => other.id = peer.id && other.handshakeComplete
      && other.isFullNode) = some { peer with handshakeComplete := true } := by
  have hself : ({ peer with handshakeComplete := true } : PeerStatus).isFullNode = true := hfull
  cases hfound : (n.greeted peer).peers.find? (fun other => other.id = peer.id
      && other.handshakeComplete && other.isFullNode) with
  | none =>
      have hmatch := List.find?_eq_none.mp hfound _ ((mem_peers_greeted h).mpr (Or.inl rfl))
      simp [hself] at hmatch
  | some other =>
      have hmatch := List.find?_some hfound
      simp only [Bool.and_eq_true, decide_eq_true_eq] at hmatch
      rcases (mem_peers_greeted h).mp (List.mem_of_find?_eq_some hfound) with heq | ⟨-, hne⟩
      · rw [heq]
      · exact absurd hmatch.1.1 hne

/-! ## A handshake -/

/-- The handshake is with a full node that is ahead of the active chain. -/
def Ahead (n : NodeRuntime) (peer : PeerStatus) : Prop :=
  peer.isFullNode = true ∧
    ∃ store, n.chainStore = some store ∧ store.blockchain.tip.height < peer.remoteHeight

/-- A request is pending or the state is `syncing`: `maybe_start_sync` asks nobody. -/
def Busy (n : NodeRuntime) : Prop :=
  n.sync.pendingRequest.isSome = true ∨ n.sync.state = .syncing

/-- What is adopted as target is asked for. -/
theorem outcome_maybeStartSync (hrunning : n.Running κ chainId) (peerId : UInt64)
    (io : Nat → StorageIo) :
    (((maybeStartSync κ peerId).run io n).1).Running κ chainId ∧
      (((maybeStartSync κ peerId).run io n).1 = n ∨
        ¬ (((maybeStartSync κ peerId).run io n).1).Busy ∨
        (¬ n.Busy ∧ (∃ peer ∈ n.peers, peer.id = peerId ∧ n.Ahead peer) ∧
          (((maybeStartSync κ peerId).run io n).1).SyncOutcome peerId)) := by
  obtain ⟨hnetwork, store, bs, hstore, hbs⟩ := hrunning
  have hrunning : n.Running κ chainId := ⟨hnetwork, store, bs, hstore, hbs⟩
  rcases maybeStartSync_cases (κ := κ) hstore peerId io with
    hsame | ⟨hnone, peer, localTip, state, hstate, hnext⟩ |
      ⟨hnone, hstate, peer, hmem, hid, hfull, hlt, localTip, io', hnext⟩
  · rw [hsame]
    exact ⟨hrunning, Or.inl rfl⟩
  · rw [hnext]
    refine ⟨hrunning.congr rfl rfl, Or.inr (Or.inl ?_)⟩
    rintro (hpending | hsyncing)
    · rw [show (n.adoptTarget peer localTip state).sync.pendingRequest = none from hnone]
      at hpending
      cases hpending
    · exact hstate hsyncing
  · rw [hnext]
    have hasking : (n.adoptTarget peer localTip .syncing).Asking peerId localTip :=
      ⟨congrArg some hid, hnone, rfl, rfl⟩
    have hadopted : (n.adoptTarget peer localTip .syncing).Running κ chainId :=
      hrunning.congr rfl rfl
    obtain ⟨houtcome, -, hkept⟩ := outcome_sendSyncRequest hadopted hasking io'
    have hidle : ¬ n.Busy := by
      rintro (hpending | hsyncing)
      · rw [hnone] at hpending
        cases hpending
      · exact hstate hsyncing
    exact ⟨hkept, Or.inr (Or.inr ⟨hidle, ⟨peer, hmem, hid, hfull, store, hstore, hlt⟩, houtcome⟩)⟩

end NodeRuntime

/-! ## A full node and its sessions -/

/-- A full node and the sessions that have ended. -/
structure FullNode where
  node : NodeRuntime
  ended : List UInt64 := []

namespace FullNode

variable {m : FullNode} {chainId : UInt32}

/-- What the node does at an event, and what it sends. -/
def react (κ : Crypto) (m : FullNode) : SyncEvent → NodeRuntime × List Output
  | .handshake peer io => (NodeRuntime.maybeStartSync κ peer.id).run io (m.node.greeted peer)
  | .disconnect peerId => (m.node.parted peerId, [])
  | .blocks peerId payload io => (NodeRuntime.handleBlocks κ peerId payload).run io m.node

/-- The sessions that have ended after the event. -/
def endedAt (m : FullNode) : SyncEvent → List UInt64
  | .disconnect peerId => peerId :: m.ended
  | _ => m.ended

/-- One event. -/
def step (κ : Crypto) (m : FullNode) (e : SyncEvent) : FullNode where
  node := (m.react κ e).1
  ended := m.endedAt e

/-- The session is open: its handshake is complete and it has not ended. -/
def isOpen (m : FullNode) (peerId : UInt64) : Bool :=
  m.node.reaches peerId && !m.ended.contains peerId

/-- A request is outstanding to a peer whose session is open. -/
def Outstanding (m : FullNode) : Prop :=
  m.node.sync.pendingRequest.isSome = true ∧
    ∃ peerId, m.node.sync.peer = some peerId ∧ m.isOpen peerId = true

/-- No session ends that owes the answer to a request, and no session that has ended
completes its handshake and is asked. -/
def KeepsDebtor (m : FullNode) : SyncEvent → Prop
  | .handshake peer _ => peer.id ∈ m.ended → m.node.Ahead peer → m.node.Busy
  | .disconnect peerId =>
      ¬ (m.node.sync.pendingRequest.isSome = true ∧ m.node.sync.peer = some peerId)
  | .blocks _ _ _ => True

/-! ## The invariant -/

/-- A pending request is owed by an open session, and nothing else is `syncing`. -/
def Attended (m : FullNode) : Prop := m.node.Busy → m.Outstanding

/-- The invariant of a run. -/
structure Attentive (κ : Crypto) (chainId : UInt32) (m : FullNode) : Prop where
  running : m.node.Running κ chainId
  attended : m.Attended

theorem isOpen_eq_true {peerId : UInt64} :
    m.isOpen peerId = true ↔ m.node.reaches peerId = true ∧ peerId ∉ m.ended := by
  simp [isOpen]

theorem Attended.of_eq {n : NodeRuntime} {ended : List UInt64} (h : m.Attended)
    (hsync : n.sync = m.node.sync)
    (hkept : ∀ peerId, m.node.sync.peer = some peerId →
      m.node.sync.pendingRequest.isSome = true → m.isOpen peerId = true →
      (FullNode.mk n ended).isOpen peerId = true) : (FullNode.mk n ended).Attended := by
  intro hbusy
  rw [NodeRuntime.Busy, hsync] at hbusy
  obtain ⟨hpending, peerId, hpeer, hopen⟩ := h hbusy
  refine ⟨?_, peerId, ?_, hkept peerId hpeer hpending hopen⟩
  · rw [hsync]
    exact hpending
  · rw [hsync]
    exact hpeer

/-- A request that has just been sent to a session that has not ended. -/
theorem attended_of_outcome {peerId : UInt64} (h : m.node.SyncOutcome peerId)
    (hnew : peerId ∉ m.ended) : m.Attended := by
  intro hbusy
  cases h with
  | asked hpeer hpending hstate hreach =>
      exact ⟨hpending, peerId, hpeer, isOpen_eq_true.mpr ⟨hreach, hnew⟩⟩
  | closed hpending hstate =>
      refine absurd hbusy ?_
      rintro (hsome | hsyncing)
      · rw [hpending] at hsome
        cases hsome
      · exact hstate hsyncing

theorem attentive_handshake (h : m.Attentive κ chainId) {peer : PeerStatus}
    {io : Nat → StorageIo} (hkeeps : m.KeepsDebtor (.handshake peer io)) :
    (m.step κ (.handshake peer io)).Attentive κ chainId := by
  obtain ⟨hrunning, hattended⟩ := h
  have hgreeted : (FullNode.mk (m.node.greeted peer) m.ended).Attended := by
    refine hattended.of_eq rfl fun peerId _ _ hopen => ?_
    obtain ⟨hreach, hnew⟩ := isOpen_eq_true.mp hopen
    exact isOpen_eq_true.mpr ⟨NodeRuntime.reaches_greeted hrunning.network peer hreach, hnew⟩
  have hview : (m.node.greeted peer).Running κ chainId := hrunning.setPeers _
  obtain ⟨hrun, hsame | hidle | ⟨hfree, ⟨other, hother, hid, hahead⟩, houtcome⟩⟩ :=
    NodeRuntime.outcome_maybeStartSync hview peer.id io
  · refine ⟨hrun, ?_⟩
    show (FullNode.mk ((NodeRuntime.maybeStartSync κ peer.id).run io (m.node.greeted peer)).1
      m.ended).Attended
    rw [hsame]
    exact hgreeted
  · exact ⟨hrun, fun hbusy => absurd hbusy hidle⟩
  · refine ⟨hrun, attended_of_outcome houtcome fun hended => ?_⟩
    -- the peer that is asked is the one of the handshake
    have hpeer : other = { peer with handshakeComplete := true } :=
      ((NodeRuntime.mem_peers_greeted hrunning.network).mp hother).resolve_right fun h => h.2 hid
    rw [hpeer] at hahead
    exact hfree (hkeeps hended hahead)

theorem attentive_disconnect (h : m.Attentive κ chainId) {peerId : UInt64}
    (hkeeps : m.KeepsDebtor (.disconnect peerId)) :
    (m.step κ (.disconnect peerId)).Attentive κ chainId := by
  obtain ⟨hrunning, hattended⟩ := h
  refine ⟨hrunning.setPeers _, hattended.of_eq rfl ?_⟩
  intro debtor hpeer hpending hopen
  have hne : debtor ≠ peerId := by
    rintro rfl
    exact hkeeps ⟨hpending, hpeer⟩
  obtain ⟨hreach, hnew⟩ := isOpen_eq_true.mp hopen
  refine isOpen_eq_true.mpr ⟨NodeRuntime.reaches_parted hrunning.network hne hreach, ?_⟩
  simpa [endedAt, hne] using hnew

theorem attentive_blocks (h : m.Attentive κ chainId) (peerId : UInt64) (payload : Bytes)
    (io : Nat → StorageIo) : (m.step κ (.blocks peerId payload io)).Attentive κ chainId := by
  obtain ⟨hrunning, hattended⟩ := h
  obtain ⟨hcase, hpeers, hrun⟩ := NodeRuntime.outcome_handleBlocks hrunning peerId payload io
  refine ⟨hrun, ?_⟩
  rcases hcase with hsame | ⟨hpeer, hbusy, houtcome⟩
  · refine hattended.of_eq (congrArg NodeRuntime.sync hsame) fun _ _ _ hopen => ?_
    rw [react, hsame]
    exact hopen
  · -- the peer of the answer is the one that owed it
    obtain ⟨-, debtor, hdebtor, hopen⟩ := hattended (Or.inl hbusy)
    cases hpeer.symm.trans hdebtor
    exact attended_of_outcome houtcome (isOpen_eq_true.mp hopen).2

theorem attentive_step (m : FullNode) (e : SyncEvent) (hkeeps : m.KeepsDebtor e)
    (h : m.Attentive κ chainId) : (m.step κ e).Attentive κ chainId := by
  cases e with
  | handshake peer io => exact attentive_handshake h hkeeps
  | disconnect peerId => exact attentive_disconnect h hkeeps
  | blocks peerId payload io => exact attentive_blocks h peerId payload io

/-! ## A peer that is ahead -/

/-- `GET_BLOCKS` is sent to the peer. -/
def Asks (peerId : UInt64) (outputs : List Output) : Prop :=
  ∃ payload, Output.send peerId .getBlocks payload ∈ outputs

/-- What a synchronization needs of a state and the next event: neither the pending
request nor the state refers to a session that has ended, and a peer that is ahead is
asked when nothing is outstanding. -/
structure Unblocked (κ : Crypto) (m : FullNode) (e : SyncEvent) : Prop where
  owed : m.node.Busy → m.Outstanding
  asks : ∀ peer io, e = .handshake peer io → m.node.Ahead peer → ¬ m.Outstanding →
    Asks peer.id (m.react κ e).2

end FullNode

namespace NodeRuntime

variable {n : NodeRuntime}

theorem blockLocator_tip_ne_nil (κ : Crypto) (chainId : UInt32) (bs : List Block) :
    (Blockchain.replay κ chainId bs).blockLocator κ ((Blockchain.replay κ chainId bs).tip.id κ)
      maximumBlockLocatorEntries ≠ [] := by
  have hinv := Blockchain.inv_replay κ chainId bs
  obtain ⟨rest, hrest⟩ := hinv.toTree.blockLocator_head hinv.tipIndex_lt 31
  rw [hinv.tip_eq]
  intro hnil
  rw [show maximumBlockLocatorEntries = 31 + 1 from rfl, hrest] at hnil
  cases hnil

theorem asks_sendSyncRequest {store : ChainStore} {locatorTip : Hash256} {peerId : UInt64}
    (hasking : n.Asking peerId locatorTip) (hnetwork : n.network.isSome = true)
    (hstore : n.chainStore = some store)
    (hlocator : store.blockchain.blockLocator κ locatorTip maximumBlockLocatorEntries ≠ [])
    (hreach : n.reaches peerId = true) (io : Nat → StorageIo) :
    FullNode.Asks peerId ((sendSyncRequest κ peerId).run io n).2 := by
  rw [run_sendSyncRequest hnetwork hstore hasking, if_pos ⟨hlocator, hreach⟩]
  exact ⟨_, List.mem_singleton_self _⟩

theorem asks_of_ahead {chainId : UInt32} (hrunning : n.Running κ chainId) {peer : PeerStatus}
    (io : Nat → StorageIo) (hahead : n.Ahead peer) (hidle : ¬ n.Busy) :
    FullNode.Asks peer.id ((maybeStartSync κ peer.id).run io (n.greeted peer)).2 := by
  obtain ⟨hnetwork, store, bs, hstore, hbs⟩ := hrunning
  obtain ⟨hfull, store', hstore', hlt⟩ := hahead
  rw [hstore] at hstore'
  cases hstore'
  have hnone : n.sync.pendingRequest = none := by
    simpa using fun h => hidle (Or.inl h)
  have hview : (n.greeted peer).network.isSome = true := by
    rw [greeted, setPeers]
    exact Option.isSome_map.trans hnetwork
  have hrun := run_maybeStartSync (κ := κ) hview hstore (find_greeted hnetwork hfull) hlt hnone
    (fun h => hidle (Or.inr h)) io
  have hasking : ((n.greeted peer).adoptTarget { peer with handshakeComplete := true }
      (store.blockchain.tip.id κ) .syncing).Asking peer.id (store.blockchain.tip.id κ) :=
    ⟨rfl, hnone, rfl, rfl⟩
  have hlocator : store.blockchain.blockLocator κ (store.blockchain.tip.id κ)
      maximumBlockLocatorEntries ≠ [] := by
    rw [hbs]
    exact blockLocator_tip_ne_nil κ chainId bs
  rw [hrun]
  exact asks_sendSyncRequest hasking hview hstore hlocator (reaches_greeted_self hnetwork peer) _

end NodeRuntime

namespace FullNode

variable {m : FullNode} {chainId : UInt32}

theorem Attentive.unblocked (h : m.Attentive κ chainId) (e : SyncEvent) : m.Unblocked κ e := by
  refine ⟨h.attended, ?_⟩
  rintro peer io rfl hahead hfree
  exact NodeRuntime.asks_of_ahead h.running io hahead fun hbusy => hfree (h.attended hbusy)

theorem attentive_startNetwork {config : RuntimeConfig} {directory : NodeRuntime.DataDirectory}
    {io : NodeRuntime.StartIo} {start : NodeRuntime} (hrole : config.hasRole .fullNode = true)
    (hstart : NodeRuntime.initializeNode κ config directory io = some start) :
    (FullNode.mk (start.startNetwork κ) []).Attentive κ config.chainId := by
  obtain ⟨chain, pool, hchain, -, ⟨bs, hbs⟩, -⟩ := NodeRuntime.inStep_initializeNode hrole hstart
  obtain ⟨hconfig, -, -, hidle⟩ := NodeRuntime.fresh_initializeNode hstart
  have hnode : ¬ (¬ start.config.hasRole .fullNode = true ∧
      ¬ start.config.hasRole .miner = true) := by
    rw [hconfig]
    exact fun h => h.1 hrole
  have hview : (start.startNetwork κ).network.isSome = true := by
    rw [NodeRuntime.startNetwork, if_neg hnode]
    rfl
  have hchain' : (start.startNetwork κ).chainStore = some chain := by
    rw [NodeRuntime.startNetwork, if_neg hnode]
    exact hchain
  have hsync : (start.startNetwork κ).sync = {} := by
    rw [NodeRuntime.startNetwork, if_neg hnode]
    exact hidle
  refine ⟨⟨hview, chain, bs, hchain', hbs⟩, ?_⟩
  rintro (hpending | hsyncing)
  · rw [hsync] at hpending
    cases hpending
  · rw [hsync] at hsyncing
    cases hsyncing

/-- In every run of a full node in which no session ends that owes the answer to a
request, and none that has ended is asked: whatever is pending or `syncing` is owed by
an open session, and a peer that is ahead is asked when nothing is outstanding. -/
theorem lost_peer_never_blocks (κ : Crypto) (config : RuntimeConfig)
    (hrole : config.hasRole .fullNode = true) (directory : NodeRuntime.DataDirectory)
    (io : NodeRuntime.StartIo) (start : NodeRuntime)
    (hstart : NodeRuntime.initializeNode κ config directory io = some start)
    (events : List SyncEvent) (e : SyncEvent)
    (hkeeps : Along (step κ) KeepsDebtor ⟨start.startNetwork κ, []⟩ events) :
    Along (step κ) (Unblocked κ) ⟨start.startNetwork κ, []⟩ events ∧
      (Runs.run (step κ) ⟨start.startNetwork κ, []⟩ events).Unblocked κ e := by
  have hinit := attentive_startNetwork hrole hstart
  constructor
  · exact (hkeeps.and_invariant attentive_step hinit).imp fun m e h => h.2.unblocked e
  · exact (hkeeps.invariant attentive_step hinit).unblocked e

/-! A full node of the regression-test network hears of peers that are ahead. -/

/-- A peer that is five blocks ahead. -/
def aheadPeer (id : UInt64) : PeerStatus where
  id := id
  handshakeComplete := true
  services := fullNodeService
  remoteHeight := 5
  remoteTip := .zero

/-- A node that has just been started in an empty directory. -/
def regtestStart : NodeRuntime :=
  NodeRuntime.startNetwork reference
    { config := NodeRuntime.regtestFullNode
      chainStore := some ChainStore.genesisStore
      mempoolStore := some ⟨⟨{}, []⟩, []⟩ }

/-- The first peer is asked, and lost while it owes its blocks. -/
def regtestLost : FullNode :=
  Runs.run (step reference) ⟨regtestStart, []⟩ [.handshake (aheadPeer 1) fun _ => {}, .disconnect 1]

/-- The second peer is not asked. -/
theorem lost_peer_blocks :
    ∃ start, NodeRuntime.initializeNode reference NodeRuntime.regtestFullNode {} {} = some start ∧
      start.startNetwork reference = regtestStart ∧ regtestLost.node.Ahead (aheadPeer 2) ∧
      ¬ regtestLost.Outstanding ∧
      ¬ Asks 2 (regtestLost.react reference (.handshake (aheadPeer 2) fun _ => {})).2 := by
  have hended : regtestLost.ended = [1] := rfl
  have hpeer : regtestLost.node.sync.peer = some 1 := by decide +kernel
  have hheight : regtestLost.node.chainStore.map (fun store => store.blockchain.tip.height)
      = some 0 := by
    decide +kernel
  have hsilent : (regtestLost.react reference (.handshake (aheadPeer 2) fun _ => {})).2 = [] := by
    decide +kernel
  refine ⟨_, NodeRuntime.initializeNode_regtestFullNode, rfl, ⟨by decide, ?_⟩, ?_, ?_⟩
  · obtain ⟨store, hstore, htip⟩ := Option.map_eq_some_iff.mp hheight
    exact ⟨store, hstore, by rw [htip]; decide⟩
  · rintro ⟨-, peerId, hother, hopen⟩
    cases hpeer.symm.trans hother
    rw [isOpen_eq_true, hended] at hopen
    exact hopen.2 (List.mem_singleton_self 1)
  · rintro ⟨payload, hsent⟩
    rw [hsilent] at hsent
    cases hsent

/-- While the first peer stays, a second one that comes back after its end is not asked
and does no harm. -/
theorem lost_peer_never_blocks_regtest :
    ∃ start, NodeRuntime.initializeNode reference NodeRuntime.regtestFullNode {} {} = some start ∧
      Along (step reference) (Unblocked reference) ⟨start.startNetwork reference, []⟩
        [.handshake (aheadPeer 1) fun _ => {}, .disconnect 7,
          .handshake (aheadPeer 7) fun _ => {}] ∧
      (Runs.run (step reference) ⟨start.startNetwork reference, []⟩
        [.handshake (aheadPeer 1) fun _ => {}, .disconnect 7,
          .handshake (aheadPeer 7) fun _ => {}]).Unblocked reference
          (.handshake (aheadPeer 2) fun _ => {}) := by
  have hasked : ((FullNode.mk regtestStart []).step reference
      (.handshake (aheadPeer 1) fun _ => {})).node.sync.peer = some 1 := by decide +kernel
  have hpending : (((FullNode.mk regtestStart []).step reference
      (.handshake (aheadPeer 1) fun _ => {})).step reference
      (.disconnect 7)).node.sync.pendingRequest.isSome = true := by decide +kernel
  have hkeeps : Along (step reference) KeepsDebtor ⟨regtestStart, []⟩
      [.handshake (aheadPeer 1) fun _ => {}, .disconnect 7,
        .handshake (aheadPeer 7) fun _ => {}] :=
    ⟨fun hended => absurd hended List.not_mem_nil,
      fun h => absurd (hasked.symm.trans h.2) (by decide), fun _ _ => Or.inl hpending, trivial⟩
  exact ⟨_, NodeRuntime.initializeNode_regtestFullNode,
    lost_peer_never_blocks reference NodeRuntime.regtestFullNode (by decide) {} {} _
      NodeRuntime.initializeNode_regtestFullNode _ _ hkeeps⟩

end FullNode

end BBC
