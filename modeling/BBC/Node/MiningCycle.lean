/-
# `BBC.Node.MiningCycle` — a mining-only process waits for nobody who is gone

A mining-only process takes part in a run with its handlers, its control commands, its
coordinator and its mining thread.  Next to the process a `Miner` records what a run
leaves behind outside of it:

    owed      the replies that its peers owe: a template for a request, a result for
              a submitted block; a session that ends takes its debts with it
    solved    the block that the mining thread has found last
    ended     the sessions that have ended; a late handler of the peer network can
              still record the status of one of them

A cycle is in one of five stages (`Stage`), whatever happens.  Two of them wait for a
reply, and the reply is owed by an open session as long as the run keeps five
conditions (`Kept`): four of them are branches that forget to leave their stage, and
the fifth is a snapshot that shows a peer without a session.
-/
import BBC.Lib.Runs
import BBC.Node.InStep
import BBC.Node.Mining

namespace BBC

open Sections (Program)
open Runs (Along)

/-! ## A mining-only process in its surroundings -/

/-- What happens to a mining-only process. -/
inductive MiningEvent where
  /-- The status of a session has been recorded with its handshake complete; sessions are
  numbered from one. -/
  | handshake (peer : PeerStatus) (numbered : peer.id ≠ 0)
  | disconnect (peerId : UInt64)
  | template (peerId : UInt64) (payload : Bytes)
  | block (peerId : UInt64) (payload : Bytes) (submission : Bool)
  | result (peerId : UInt64) (payload : Bytes)
  /-- The control commands. -/
  | start (deferWork : Bool)
  | release (future : Bool)
  | continuous
  | stop (finishes : Bool)
  /-- The coordinator and the mining thread. -/
  | coordinate
  | wake
  | batch
  | quit

/-- A reply that a peer owes. -/
inductive Debt where
  | template (peerId requestId : UInt64)
  | result (peerId : UInt64) (blockId : Hash256)
  deriving DecidableEq

/-- Who owes it. -/
def Debt.peerId : Debt → UInt64
  | .template peerId _ => peerId
  | .result peerId _ => peerId

/-- The debts that a message to a peer makes. -/
def Output.debts (κ : Crypto) : Output → List Debt
  | .send peerId .templateRequest payload => [.template peerId (readU64Le payload 0)]
  | .send peerId .blockSubmit payload => [.result peerId (κ.sha256 (payload.take blockHeaderSize))]
  | _ => []

/-- The event leaves the debt open. -/
def MiningEvent.spares : MiningEvent → Debt → Bool
  | .disconnect peerId, debt => debt.peerId ≠ peerId
  | .template peerId payload, debt => debt ≠ .template peerId (readU64Le payload 0)
  | .result peerId payload, debt => debt ≠ .result peerId (NodeRuntime.resultBlockId payload)
  | _, _ => true

/-- The event changes the snapshot of the sessions. -/
def MiningEvent.changesPeers : MiningEvent → Bool
  | .handshake _ _ | .disconnect _ => true
  | _ => false

/-- A mining-only process and what the run has left behind. -/
structure Miner where
  node : NodeRuntime
  lastWaitReason : Option StartMiningError := none
  owed : List Debt := []
  solved : Option Block := none
  ended : List UInt64 := []

namespace Miner

/-- A process that has just started its network. -/
def launch (n : NodeRuntime) : Miner := { node := n }

@[simp] theorem launch_node (n : NodeRuntime) : (launch n).node = n := rfl

/-- The session is open: its handshake is complete and it has not ended. -/
def isOpen (m : Miner) (peerId : UInt64) : Bool :=
  m.node.reaches peerId && !m.ended.contains peerId

/-- What the process does at an event, and what it sends. -/
def react (κ : Crypto) (m : Miner) : MiningEvent → NodeRuntime × List Output
  | .handshake peer _ => (m.node.greeted peer, [])
  | .disconnect peerId => (m.node.parted peerId, [])
  | .template peerId payload => (m.node.handleBlockTemplate κ peerId payload, [])
  | .block peerId payload submission =>
      (NodeRuntime.handleBlock κ peerId payload submission).run (fun _ => {}) m.node
  | .result _ payload => (m.node.handleBlockResult payload, [])
  | .start deferWork =>
      ((m.node.startMining κ deferWork false).1, (m.node.startMining κ deferWork false).2.1)
  | .release future => (m.node.beginMining future, [])
  | .continuous => (m.node.startContinuousMining, [])
  | .stop finishes => m.node.stopMining κ finishes fun _ => {}
  | .coordinate =>
      ((m.node.coordinate κ m.lastWaitReason).1, (m.node.coordinate κ m.lastWaitReason).2.1)
  | .wake => (m.node.wakeWorker, [])
  | .batch => m.node.runBatch κ fun _ => {}
  | .quit => (m.node.quitWorker, [])

/-- The block that the next batch of the mining thread finds. -/
def finds (κ : Crypto) (n : NodeRuntime) : Option Block :=
  match n.mining.worker with
  | none => none
  | some worker =>
      if worker.scheduled then none else (mineBlock κ worker.candidate miningBatch).value.toOption

/-- The block that the event finds. -/
def foundAt (κ : Crypto) (m : Miner) : MiningEvent → Option Block
  | .batch => finds κ m.node
  | .stop true => finds κ m.node
  | _ => none

/-- The coordinator's local variable after the event. -/
def waitReasonAt (κ : Crypto) (m : Miner) : MiningEvent → Option StartMiningError
  | .coordinate => (m.node.coordinate κ m.lastWaitReason).2.2
  | _ => m.lastWaitReason

/-- The sessions that have ended after the event. -/
def endedAt (m : Miner) : MiningEvent → List UInt64
  | .disconnect peerId => peerId :: m.ended
  | _ => m.ended

/-- One event. -/
def step (κ : Crypto) (m : Miner) (e : MiningEvent) : Miner where
  node := (m.react κ e).1
  lastWaitReason := m.waitReasonAt κ e
  owed := m.owed.filter e.spares ++ (m.react κ e).2.flatMap (Output.debts κ)
  solved := (m.foundAt κ e).or m.solved
  ended := m.endedAt e

/-! ## The stages of a cycle -/

/-- The stage of a cycle. -/
inductive Stage (n : NodeRuntime) : Prop where
  | idle (pending : n.mining.pendingTemplateRequest = none)
      (prepared : n.mining.preparedCandidate = none) (active : n.mining.active = false)
      (worker : n.mining.worker = none) (state : n.mining.state ≠ .submitted)
  | requested (peerId requestId : UInt64)
      (pending : n.mining.pendingTemplateRequest = some requestId)
      (prepared : n.mining.preparedCandidate = none) (active : n.mining.active = false)
      (worker : n.mining.worker = none) (state : n.mining.state ≠ .submitted)
      (source : n.mining.sourcePeer = some peerId) (numbered : peerId ≠ 0)
  | prepared (peerId : UInt64) (candidate : Block)
      (pending : n.mining.pendingTemplateRequest = none)
      (prepared : n.mining.preparedCandidate = some candidate)
      (active : n.mining.active = false) (worker : n.mining.worker = none)
      (state : n.mining.state ≠ .submitted) (source : n.mining.sourcePeer = some peerId)
      (peer : n.mining.preparedPeer = some peerId) (numbered : peerId ≠ 0)
  | working (thread : MiningWorker) (pending : n.mining.pendingTemplateRequest = none)
      (prepared : n.mining.preparedCandidate = none) (active : n.mining.active = true)
      (worker : n.mining.worker = some thread) (state : n.mining.state ≠ .submitted)
      (source : n.mining.sourcePeer = some thread.peerId) (numbered : thread.peerId ≠ 0)
  | submitted (peerId : UInt64) (blockId : Hash256)
      (pending : n.mining.pendingTemplateRequest = none)
      (prepared : n.mining.preparedCandidate = none) (active : n.mining.active = false)
      (worker : n.mining.worker = none) (state : n.mining.state = .submitted)
      (found : n.mining.foundBlockId = some blockId)
      (source : n.mining.sourcePeer = some peerId)

/-- A mining-only process with its network started. -/
structure Solitary (n : NodeRuntime) : Prop where
  chain : n.chainStore = none
  network : n.network.isSome = true
  miner : n.config.hasRole .miner = true
  reward : n.config.rewardAddress.isSome = true
  numbered : ∀ peer ∈ n.peers, peer.id ≠ 0

/-- What holds in every run. -/
structure Cycle (n : NodeRuntime) : Prop where
  solitary : Solitary n
  stage : Stage n

variable {κ : Crypto} {n n' : NodeRuntime} {m : Miner}

theorem Solitary.congr (h : Solitary n) (hconfig : n'.config = n.config)
    (hchain : n'.chainStore = n.chainStore) (hnetwork : n'.network = n.network) :
    Solitary n' where
  chain := hchain.trans h.chain
  network := by rw [hnetwork]; exact h.network
  miner := by rw [hconfig]; exact h.miner
  reward := by rw [hconfig]; exact h.reward
  numbered := by
    intro peer hpeer
    rw [NodeRuntime.peers, hnetwork] at hpeer
    exact h.numbered peer hpeer

theorem Solitary.setPeers (h : Solitary n) {peers : List PeerStatus}
    (hnumbered : ∀ peer ∈ peers, peer.id ≠ 0) : Solitary (n.setPeers peers) where
  chain := h.chain
  network := by
    rw [NodeRuntime.setPeers]
    exact Option.isSome_map.trans h.network
  miner := h.miner
  reward := h.reward
  numbered := by
    rw [NodeRuntime.peers_setPeers h.network]
    exact hnumbered

/-- The fields of a stage, the state apart. -/
structure SameCycle (n n' : NodeRuntime) : Prop where
  pending : n'.mining.pendingTemplateRequest = n.mining.pendingTemplateRequest
  prepared : n'.mining.preparedCandidate = n.mining.preparedCandidate
  peer : n'.mining.preparedPeer = n.mining.preparedPeer
  active : n'.mining.active = n.mining.active
  worker : n'.mining.worker = n.mining.worker
  found : n'.mining.foundBlockId = n.mining.foundBlockId
  source : n'.mining.sourcePeer = n.mining.sourcePeer

theorem SameCycle.refl (n : NodeRuntime) : SameCycle n n := ⟨rfl, rfl, rfl, rfl, rfl, rfl, rfl⟩

/-- A handler that at most ends the wait for a result keeps the stage. -/
theorem Stage.move (h : Stage n) (hsame : SameCycle n n')
    (hstate : n'.mining.state = n.mining.state ∨ n'.mining.state ≠ .submitted) : Stage n' := by
  have hfree : n.mining.state ≠ .submitted → n'.mining.state ≠ .submitted := by
    intro hne
    rcases hstate with heq | hne'
    · rw [heq]
      exact hne
    · exact hne'
  cases h with
  | idle pending prepared active worker state =>
      exact .idle (hsame.pending.trans pending) (hsame.prepared.trans prepared)
        (hsame.active.trans active) (hsame.worker.trans worker) (hfree state)
  | requested peerId requestId pending prepared active worker state source numbered =>
      exact .requested peerId requestId (hsame.pending.trans pending)
        (hsame.prepared.trans prepared) (hsame.active.trans active) (hsame.worker.trans worker)
        (hfree state) (hsame.source.trans source) numbered
  | prepared peerId candidate pending prepared active worker state source peer numbered =>
      exact .prepared peerId candidate (hsame.pending.trans pending)
        (hsame.prepared.trans prepared) (hsame.active.trans active) (hsame.worker.trans worker)
        (hfree state) (hsame.source.trans source) (hsame.peer.trans peer) numbered
  | working thread pending prepared active worker state source numbered =>
      exact .working thread (hsame.pending.trans pending) (hsame.prepared.trans prepared)
        (hsame.active.trans active) (hsame.worker.trans worker) (hfree state)
        (hsame.source.trans source) numbered
  | submitted peerId blockId pending prepared active worker state found source =>
      by_cases hsubmitted : n'.mining.state = .submitted
      · exact .submitted peerId blockId (hsame.pending.trans pending)
          (hsame.prepared.trans prepared) (hsame.active.trans active)
          (hsame.worker.trans worker) hsubmitted (hsame.found.trans found)
          (hsame.source.trans source)
      · exact .idle (hsame.pending.trans pending) (hsame.prepared.trans prepared)
          (hsame.active.trans active) (hsame.worker.trans worker) hsubmitted

theorem Cycle.move (h : Cycle n) (hsame : SameCycle n n')
    (hstate : n'.mining.state = n.mining.state ∨ n'.mining.state ≠ .submitted)
    (hconfig : n'.config = n.config) (hchain : n'.chainStore = n.chainStore)
    (hnetwork : n'.network = n.network) : Cycle n' :=
  ⟨h.solitary.congr hconfig hchain hnetwork, h.stage.move hsame hstate⟩

/-! ## Every handler keeps to the stages -/

theorem cycle_greeted (h : Cycle n) (peer : PeerStatus) (numbered : peer.id ≠ 0) :
    Cycle (n.greeted peer) := by
  refine ⟨h.solitary.setPeers ?_, h.stage.move ⟨rfl, rfl, rfl, rfl, rfl, rfl, rfl⟩ (Or.inl rfl)⟩
  intro other hother
  rcases (List.mem_orderedInsert _).mp hother with rfl | hother
  · exact numbered
  · exact h.solitary.numbered other (List.mem_filter.mp hother).1

theorem cycle_parted (h : Cycle n) (peerId : UInt64) : Cycle (n.parted peerId) := by
  refine ⟨h.solitary.setPeers ?_, h.stage.move ⟨rfl, rfl, rfl, rfl, rfl, rfl, rfl⟩ (Or.inl rfl)⟩
  intro other hother
  exact h.solitary.numbered other (List.mem_filter.mp hother).1

/-- `handle_block_template` ignores the message, or takes the template. -/
theorem handleBlockTemplate_cases (κ : Crypto) (n : NodeRuntime) (peerId : UInt64)
    (payload : Bytes) :
    (n.handleBlockTemplate κ peerId payload = n ∧ ¬ (n.answersRequest peerId payload ∧
        ∃ candidate, deserializeBlock κ (payload.drop 8) = .ok candidate ∧
          n.expectsTemplate κ peerId candidate)) ∨
      ∃ candidate, n.answersRequest peerId payload ∧ n.expectsTemplate κ peerId candidate ∧
        deserializeBlock κ (payload.drop 8) = .ok candidate ∧
        n.handleBlockTemplate κ peerId payload = n.takeTemplate peerId candidate := by
  rw [NodeRuntime.handleBlockTemplate]
  by_cases hanswers : n.answersRequest peerId payload
  swap
  · rw [if_pos hanswers]
    exact Or.inl ⟨rfl, fun h => hanswers h.1⟩
  rw [if_neg (not_not.mpr hanswers)]
  cases hdecoded : deserializeBlock κ (payload.drop 8) with
  | error e =>
      refine Or.inl ⟨rfl, ?_⟩
      rintro ⟨-, candidate, hother, -⟩
      cases hother
  | ok candidate =>
      dsimp only
      by_cases hexpects : n.expectsTemplate κ peerId candidate
      · rw [if_neg (not_not.mpr hexpects)]
        exact Or.inr ⟨candidate, hanswers, hexpects, rfl, rfl⟩
      · rw [if_pos hexpects]
        refine Or.inl ⟨rfl, ?_⟩
        rintro ⟨-, other, hother, hexpected⟩
        cases hother
        exact hexpects hexpected

/-- A template that is taken leads to a prepared candidate or to a worker. -/
theorem cycle_takeTemplate (h : Cycle n) {peerId requestId : UInt64}
    (hpending : n.mining.pendingTemplateRequest = some requestId)
    (hsource : n.mining.sourcePeer = some peerId) (candidate : Block) :
    Cycle (n.takeTemplate peerId candidate) := by
  obtain ⟨hsolitary, hstage⟩ := h
  have hready : MiningState.ready ≠ .submitted := by decide
  have hrunning : MiningState.running ≠ .submitted := by decide
  cases hstage with
  | requested debtor request pending prepared active worker state source numbered =>
      cases source.symm.trans hsource
      rw [NodeRuntime.takeTemplate]
      cases n.mining.deferStart with
      | true =>
          exact ⟨hsolitary.congr rfl rfl rfl,
            .prepared peerId candidate rfl rfl active worker hready hsource rfl numbered⟩
      | false =>
          exact ⟨hsolitary.congr rfl rfl rfl,
            .working ⟨peerId, candidate, false⟩ rfl prepared rfl rfl hrunning hsource numbered⟩
  | idle pending | prepared _ _ pending | working _ pending | submitted _ _ pending =>
      rw [pending] at hpending
      cases hpending

theorem cycle_handleBlockTemplate (h : Cycle n) (peerId : UInt64) (payload : Bytes) :
    Cycle (n.handleBlockTemplate κ peerId payload) := by
  rcases handleBlockTemplate_cases κ n peerId payload with ⟨hsame, -⟩ |
    ⟨candidate, ⟨-, -, hsource, hpending⟩, -, -, htaken⟩
  · rw [hsame]
    exact h
  · rw [htaken]
    exact cycle_takeTemplate h hpending hsource candidate

/-! Blocks and results -/

/-- `handle_block` without a chain store. -/
theorem run_handleBlock_of_none (hchain : n.chainStore = none) (peerId : UInt64) (payload : Bytes)
    (submission : Bool) (io : Nat → StorageIo) :
    ((NodeRuntime.handleBlock κ peerId payload submission).run io n).1 = n ∨
      ∃ block, deserializeBlock κ payload = .ok block ∧
        ((NodeRuntime.handleBlock κ peerId payload submission).run io n).1
          = n.observeBlock κ block := by
  rw [NodeRuntime.handleBlock]
  cases hdecoded : deserializeBlock κ payload with
  | error e => exact Or.inl rfl
  | ok block =>
      refine Or.inr ⟨block, rfl, ?_⟩
      dsimp only
      rw [Program.run_step, hchain]
      rfl

/-- `observe_block` moves the view or does nothing. -/
theorem observeBlock_cases (κ : Crypto) (n : NodeRuntime) (block : Block) :
    n.observeBlock κ block = n ∨
      (n.mining.knownHeight < block.height ∧ block.chainId = n.config.chainId ∧
        validateProofOfWork κ block = .none ∧
        (n.observeBlock κ block).mining
          = { n.mining with
              cancelled := n.mining.cancelled || n.mining.active
              knownHeight := block.height
              knownTip := block.id κ
              state := if n.mining.foundBlockId = some (block.id κ) then .accepted
                else n.mining.state } ∧
        (n.observeBlock κ block).config = n.config ∧
        (n.observeBlock κ block).chainStore = n.chainStore ∧
        (n.observeBlock κ block).network = n.network) := by
  rw [NodeRuntime.observeBlock]
  dsimp only
  split
  · exact Or.inl rfl
  · rename_i hextends
    simp only [not_or, not_and_or, not_not, ne_eq] at hextends
    obtain ⟨hextends, hchain, hwork⟩ := hextends
    refine Or.inr ⟨?_, hchain, hwork, rfl, rfl, rfl, rfl⟩
    rcases hextends with hknown | hcandidate
    · exact hknown.1
    · exact hcandidate.2.2

theorem sameCycle_observeBlock (κ : Crypto) (n : NodeRuntime) (block : Block) :
    SameCycle n (n.observeBlock κ block) ∧
      ((n.observeBlock κ block).mining.state = n.mining.state ∨
        (n.observeBlock κ block).mining.state ≠ .submitted) ∧
      (n.observeBlock κ block).config = n.config ∧
      (n.observeBlock κ block).chainStore = n.chainStore ∧
      (n.observeBlock κ block).network = n.network := by
  rcases observeBlock_cases κ n block with hsame | ⟨-, -, -, hmining, hconfig, hchain, hnetwork⟩
  · rw [hsame]
    exact ⟨.refl n, Or.inl rfl, rfl, rfl, rfl⟩
  · refine ⟨?_, ?_, hconfig, hchain, hnetwork⟩
    · constructor <;> rw [hmining]
    · rw [hmining]
      by_cases hown : n.mining.foundBlockId = some (block.id κ)
      · exact Or.inr (by simp [hown])
      · exact Or.inl (if_neg hown)

/-- `handle_block` of a mining-only process touches only the view and the state. -/
theorem sameCycle_handleBlock (κ : Crypto) (hchain : n.chainStore = none) (peerId : UInt64)
    (payload : Bytes) (submission : Bool) (io : Nat → StorageIo) :
    let n' := ((NodeRuntime.handleBlock κ peerId payload submission).run io n).1
    SameCycle n n' ∧ (n'.mining.state = n.mining.state ∨ n'.mining.state ≠ .submitted) ∧
      n'.config = n.config ∧ n'.chainStore = n.chainStore ∧ n'.network = n.network := by
  intro n'
  rcases run_handleBlock_of_none (κ := κ) hchain peerId payload submission io with
    hsame | ⟨block, -, hnext⟩
  · have hn' : n' = n := hsame
    rw [hn']
    exact ⟨.refl n, Or.inl rfl, rfl, rfl, rfl⟩
  · have hn' : n' = n.observeBlock κ block := hnext
    rw [hn']
    exact sameCycle_observeBlock κ n block

/-- `handle_block_result` ignores the message, or leaves `submitted`. -/
theorem handleBlockResult_cases (n : NodeRuntime) (payload : Bytes) :
    (n.handleBlockResult payload = n ∧ ¬ (NodeRuntime.WellFormedResult payload ∧
        n.mining.foundBlockId = some (NodeRuntime.resultBlockId payload))) ∨
      ((n.handleBlockResult payload).mining.state ≠ .submitted ∧
        SameCycle n (n.handleBlockResult payload) ∧
        (n.handleBlockResult payload).config = n.config ∧
        (n.handleBlockResult payload).chainStore = n.chainStore ∧
        (n.handleBlockResult payload).network = n.network) := by
  rw [NodeRuntime.handleBlockResult]
  split
  · rename_i hignored
    refine Or.inl ⟨rfl, ?_⟩
    rintro ⟨hformed, hfound⟩
    rcases hignored with hbad | hother
    · exact hbad hformed
    · exact hother hfound
  refine Or.inr ?_
  have haccepted : MiningState.accepted ≠ .submitted := by decide
  split
  · split
    · exact ⟨haccepted, ⟨rfl, rfl, rfl, rfl, rfl, rfl, rfl⟩, rfl, rfl, rfl⟩
    · exact ⟨haccepted, ⟨rfl, rfl, rfl, rfl, rfl, rfl, rfl⟩, rfl, rfl, rfl⟩
  · refine ⟨?_, ⟨rfl, rfl, rfl, rfl, rfl, rfl, rfl⟩, rfl, rfl, rfl⟩
    rw [NodeRuntime.setMiningState]
    split <;> simp

theorem cycle_handleBlockResult (h : Cycle n) (payload : Bytes) :
    Cycle (n.handleBlockResult payload) := by
  rcases handleBlockResult_cases n payload with ⟨hsame, -⟩ |
    ⟨hstate, hfields, hconfig, hchain, hnetwork⟩
  · rw [hsame]
    exact h
  · exact h.move hfields (Or.inr hstate) hconfig hchain hnetwork

/-! Starting -/

/-- A cycle that is not pending is idle. -/
theorem Stage.idle_of_not_pending (h : Stage n) (hfree : n.miningCyclePending = false) :
    n.mining.pendingTemplateRequest = none ∧ n.mining.preparedCandidate = none ∧
      n.mining.active = false ∧ n.mining.worker = none ∧ n.mining.state ≠ .submitted := by
  rw [NodeRuntime.miningCyclePending] at hfree
  cases h with
  | idle pending prepared active worker state => exact ⟨pending, prepared, active, worker, state⟩
  | requested _ _ pending => simp [pending] at hfree
  | prepared _ _ _ prepared => simp [prepared] at hfree
  | working _ _ _ active => simp [active] at hfree
  | submitted _ _ _ _ _ _ state => simp [state] at hfree

/-- A full node that `peers()` shows after its handshake. -/
structure Offers (n : NodeRuntime) (source : PeerStatus) : Prop where
  listed : source ∈ n.peers
  complete : source.handshakeComplete = true
  full : source.isFullNode = true

theorem Offers.reaches {source : PeerStatus} (h : Offers n source) : n.reaches source.id = true :=
  NodeRuntime.reaches_eq_true.mpr ⟨source, h.listed, rfl, h.complete⟩

/-- The request goes to a full node, if one is connected. -/
theorem requestTemplate_cases (n : NodeRuntime) (reward : Address) (deferWork : Bool) :
    (n.requestTemplate reward deferWork = (n, [], some .noFullNode) ∧
        n.peers.find? (fun peer => peer.handshakeComplete && peer.isFullNode) = none) ∨
      ∃ source, Offers n source ∧
        n.requestTemplate reward deferWork
          = (n.noteTemplateRequest source.id deferWork,
              [.send source.id .templateRequest
                (NodeRuntime.encodeTemplateRequest n.mining.nextTemplateRequest
                  reward)], none) := by
  rw [NodeRuntime.requestTemplate]
  cases hfound : n.peers.find? (fun peer => peer.handshakeComplete && peer.isFullNode) with
  | none => exact Or.inl ⟨rfl, rfl⟩
  | some source =>
      have hmatch := List.find?_some hfound
      rw [Bool.and_eq_true] at hmatch
      have hoffers : Offers n source := ⟨List.mem_of_find?_eq_some hfound, hmatch.1, hmatch.2⟩
      have hnoted : (n.noteTemplateRequest source.id deferWork).reaches source.id = true :=
        hoffers.reaches
      refine Or.inr ⟨source, hoffers, ?_⟩
      dsimp only
      rw [if_pos hnoted, NodeRuntime.send, if_pos hnoted]

/-- `start_mining` of a mining-only process: a request goes out, or nothing happens. -/
theorem startMining_cases (κ : Crypto) (h : Solitary n) (deferWork continuousCycle : Bool) :
    (∃ error, n.startMining κ deferWork continuousCycle = (n, [], some error)) ∨
      (n.miningCyclePending = false ∧ ∃ reward, n.config.rewardAddress = some reward ∧
        ∃ source, Offers n source ∧
        n.startMining κ deferWork continuousCycle
          = (n.noteTemplateRequest source.id deferWork,
              [.send source.id .templateRequest
                (NodeRuntime.encodeTemplateRequest n.mining.nextTemplateRequest
                  reward)], none)) := by
  rw [NodeRuntime.startMining]
  cases hreward : n.config.rewardAddress with
  | none => exact Or.inl ⟨_, rfl⟩
  | some reward =>
      dsimp only
      by_cases hrole : ¬ n.config.hasRole .miner = true ∨ n.network.isNone = true
      · rw [if_pos hrole]
        exact Or.inl ⟨_, rfl⟩
      rw [if_neg hrole]
      by_cases hoff : continuousCycle = true ∧ ¬ n.mining.continuous = true
      · rw [if_pos hoff]
        exact Or.inl ⟨_, rfl⟩
      rw [if_neg hoff]
      by_cases hon : ¬ continuousCycle = true ∧ n.mining.continuous = true
      · rw [if_pos hon]
        exact Or.inl ⟨_, rfl⟩
      rw [if_neg hon]
      by_cases hactive : n.mining.active = true
      · rw [if_pos hactive]
        exact Or.inl ⟨_, rfl⟩
      rw [if_neg hactive]
      by_cases hwork : n.mining.pendingTemplateRequest.isSome = true ∨
          n.mining.preparedCandidate.isSome = true ∨ n.mining.state = .submitted
      · rw [if_pos hwork]
        exact Or.inl ⟨_, rfl⟩
      rw [if_neg hwork, h.chain]
      dsimp only
      rcases requestTemplate_cases n reward deferWork with ⟨hnone, -⟩ | ⟨source, hoffers, hsent⟩
      · rw [hnone]
        exact Or.inl ⟨_, rfl⟩
      · refine Or.inr ⟨?_, reward, rfl, source, hoffers, hsent⟩
        simp only [not_or] at hwork
        simp [NodeRuntime.miningCyclePending, hactive, hwork]

theorem cycle_noteTemplateRequest (h : Cycle n) (hfree : n.miningCyclePending = false)
    {source : PeerStatus} (hsource : Offers n source) (deferWork : Bool) :
    Cycle (n.noteTemplateRequest source.id deferWork) := by
  obtain ⟨-, hprepared, hactive, hworker, -⟩ := h.stage.idle_of_not_pending hfree
  have hstate : MiningState.preparing ≠ .submitted := by decide
  exact ⟨h.solitary.congr rfl rfl rfl,
    .requested source.id n.mining.nextTemplateRequest rfl hprepared hactive hworker hstate rfl
      (h.solitary.numbered source hsource.listed)⟩

theorem cycle_startMining (h : Cycle n) (deferWork continuousCycle : Bool) :
    Cycle (n.startMining κ deferWork continuousCycle).1 := by
  rcases startMining_cases κ h.solitary deferWork continuousCycle with ⟨error, hrefused⟩ |
    ⟨hfree, reward, -, source, hoffers, hsent⟩
  · rw [hrefused]
    exact h
  · rw [hsent]
    exact cycle_noteTemplateRequest h hfree hoffers deferWork

/-- A turn of the coordinator: nothing, the note that it waits, or a request. -/
theorem coordinate_cases (κ : Crypto) (h : Solitary n) (reason : Option StartMiningError) :
    (((n.coordinate κ reason).1 = n ∨ (n.coordinate κ reason).1 = n.setMiningState .waiting) ∧
        (n.coordinate κ reason).2.1 = []) ∨
      (n.miningCyclePending = false ∧ ∃ reward, n.config.rewardAddress = some reward ∧
        ∃ source, Offers n source ∧
        (n.coordinate κ reason).1 = n.noteTemplateRequest source.id false ∧
        (n.coordinate κ reason).2.1
          = [.send source.id .templateRequest
              (NodeRuntime.encodeTemplateRequest n.mining.nextTemplateRequest reward)]) := by
  rw [NodeRuntime.coordinate]
  by_cases hidle : ¬ n.mining.continuous = true ∨ n.miningCyclePending = true
  · rw [if_pos hidle]
    exact Or.inl ⟨Or.inl rfl, rfl⟩
  rw [if_neg hidle]
  rcases startMining_cases κ h false true with ⟨error, hrefused⟩ |
    ⟨hfree, reward, hreward, source, hoffers, hsent⟩
  · rw [hrefused]
    dsimp only
    split
    · exact Or.inl ⟨Or.inr rfl, rfl⟩
    · exact Or.inl ⟨Or.inl rfl, rfl⟩
  · rw [hsent]
    exact Or.inr ⟨hfree, reward, hreward, source, hoffers, rfl, rfl⟩

theorem cycle_coordinate (h : Cycle n) (reason : Option StartMiningError) :
    Cycle (n.coordinate κ reason).1 := by
  have hwaiting : MiningState.waiting ≠ .submitted := by decide
  rcases coordinate_cases κ h.solitary reason with ⟨hsame | hnext, -⟩ |
    ⟨hfree, reward, -, source, hoffers, hnext, -⟩
  · rw [hsame]
    exact h
  · rw [hnext]
    exact h.move ⟨rfl, rfl, rfl, rfl, rfl, rfl, rfl⟩ (Or.inr hwaiting) rfl rfl rfl
  · rw [hnext]
    exact cycle_noteTemplateRequest h hfree hoffers false

theorem cycle_startContinuousMining (h : Cycle n) : Cycle n.startContinuousMining := by
  rw [NodeRuntime.startContinuousMining]
  split
  · exact h
  · exact h.move ⟨rfl, rfl, rfl, rfl, rfl, rfl, rfl⟩ (Or.inl rfl) rfl rfl rfl

theorem cycle_beginMining (h : Cycle n) (future : Bool) : Cycle (n.beginMining future) := by
  obtain ⟨hsolitary, hstage⟩ := h
  rw [NodeRuntime.beginMining]
  cases hstage with
  | prepared peerId candidate pending prepared active worker state source peer numbered =>
      have hrunning : (if future then MiningState.scheduled else .running) ≠ .submitted := by
        cases future <;> decide
      rw [prepared, peer]
      exact ⟨hsolitary.congr rfl rfl rfl,
        .working ⟨peerId, candidate, future⟩ pending rfl rfl rfl hrunning source numbered⟩
  | idle pending prepared active worker state =>
      rw [prepared]
      exact ⟨hsolitary, .idle pending prepared active worker state⟩
  | requested peerId requestId pending prepared active worker state source numbered =>
      rw [prepared]
      exact ⟨hsolitary,
        .requested peerId requestId pending prepared active worker state source numbered⟩
  | working thread pending prepared active worker state source numbered =>
      rw [prepared]
      exact ⟨hsolitary, .working thread pending prepared active worker state source numbered⟩
  | submitted peerId blockId pending prepared active worker state found source =>
      rw [prepared]
      exact ⟨hsolitary,
        .submitted peerId blockId pending prepared active worker state found source⟩

/-! The mining thread -/

/-- A batch of a worker for a full node. -/
theorem runBatch_cases (κ : Crypto) {worker : MiningWorker}
    (hworker : n.mining.worker = some worker) (hnumbered : worker.peerId ≠ 0)
    (io : Nat → StorageIo) :
    (∃ mined, finds κ n = some mined ∧
        n.runBatch κ io = ((n.noteFound κ mined).endWorker .submitted,
          n.send worker.peerId .blockSubmit mined.serialize)) ∨
      (finds κ n = none ∧ (n.runBatch κ io = (n.endWorker .failed, []) ∨
        ∃ next : MiningWorker, next.peerId = worker.peerId ∧
          n.runBatch κ io = (n.setWorker next, []))) := by
  have hkeep : n.setWorker worker = n := by
    cases n
    rename_i mining _ _
    cases mining
    cases hworker
    rfl
  rw [NodeRuntime.runBatch, finds, hworker]
  dsimp only
  by_cases hscheduled : worker.scheduled = true
  · rw [if_pos hscheduled, if_pos hscheduled]
    exact Or.inr ⟨rfl, Or.inr ⟨worker, rfl, by rw [hkeep]⟩⟩
  rw [if_neg hscheduled, if_neg hscheduled]
  cases (mineBlock κ worker.candidate miningBatch).value with
  | ok mined =>
      refine Or.inl ⟨mined, rfl, ?_⟩
      dsimp only
      rw [if_neg hnumbered]
      rfl
  | error e =>
      refine Or.inr ⟨rfl, ?_⟩
      cases (mineBlock κ worker.candidate miningBatch).nextNonce with
      | none => exact Or.inl rfl
      | some nonce =>
          exact Or.inr ⟨{ worker with candidate := worker.candidate.withMiningNonce nonce },
            rfl, rfl⟩

theorem idle_endWorker (hsolitary : Solitary n) (hpending : n.mining.pendingTemplateRequest = none)
    (hprepared : n.mining.preparedCandidate = none) {state : MiningState}
    (hstate : state ≠ .submitted) : Cycle (n.endWorker state) :=
  ⟨hsolitary.congr rfl rfl rfl, .idle hpending hprepared rfl rfl hstate⟩

theorem Stage.numbered (h : Stage n) (thread : MiningWorker)
    (hworker : n.mining.worker = some thread) : thread.peerId ≠ 0 := by
  cases h with
  | working _ _ _ _ worker _ _ numbered =>
      cases worker.symm.trans hworker
      exact numbered
  | idle _ _ _ worker | requested _ _ _ _ _ worker | prepared _ _ _ _ _ worker
    | submitted _ _ _ _ _ worker =>
      rw [worker] at hworker
      cases hworker

/-- A thread is there in one stage only. -/
theorem Stage.of_worker (h : Stage n) {thread : MiningWorker}
    (hworker : n.mining.worker = some thread) :
    n.mining.pendingTemplateRequest = none ∧ n.mining.preparedCandidate = none ∧
      n.mining.active = true ∧ n.mining.state ≠ .submitted ∧
      n.mining.sourcePeer = some thread.peerId := by
  cases h with
  | working _ pending prepared active worker state source =>
      cases worker.symm.trans hworker
      exact ⟨pending, prepared, active, state, source⟩
  | idle _ _ _ worker | requested _ _ _ _ _ worker | prepared _ _ _ _ _ worker
    | submitted _ _ _ _ _ worker =>
      rw [worker] at hworker
      cases hworker

theorem cycle_setWorker (h : Cycle n) {thread next : MiningWorker}
    (hworker : n.mining.worker = some thread) (hpeer : next.peerId = thread.peerId) :
    Cycle (n.setWorker next) := by
  obtain ⟨hpending, hprepared, hactive, hstate, hsource⟩ := h.stage.of_worker hworker
  exact ⟨h.solitary.congr rfl rfl rfl,
    .working next hpending hprepared hactive rfl hstate (by rw [hpeer]; exact hsource)
      (by rw [hpeer]; exact h.stage.numbered thread hworker)⟩

theorem cycle_runBatch (h : Cycle n) (io : Nat → StorageIo) : Cycle (n.runBatch κ io).1 := by
  cases hworker : n.mining.worker with
  | none =>
      rw [NodeRuntime.runBatch, hworker]
      exact h
  | some thread =>
      obtain ⟨hpending, hprepared, -, -, hsource⟩ := h.stage.of_worker hworker
      have hfailed : MiningState.failed ≠ .submitted := by decide
      rcases runBatch_cases κ hworker (h.stage.numbered thread hworker) io with
        ⟨mined, -, hrun⟩ | ⟨-, hrun | ⟨next, hpeer, hrun⟩⟩
      · rw [hrun]
        exact ⟨h.solitary.congr rfl rfl rfl,
          .submitted thread.peerId (mined.id κ) hpending hprepared rfl rfl rfl rfl hsource⟩
      · rw [hrun]
        exact idle_endWorker h.solitary hpending hprepared hfailed
      · rw [hrun]
        exact cycle_setWorker h hworker hpeer

theorem cycle_wakeWorker (h : Cycle n) : Cycle n.wakeWorker := by
  have hcancelled : MiningState.cancelled ≠ .submitted := by decide
  have hrunning : MiningState.running ≠ .submitted := by decide
  rw [NodeRuntime.wakeWorker]
  cases hworker : n.mining.worker with
  | none => exact h
  | some thread =>
      obtain ⟨hpending, hprepared, -, -, -⟩ := h.stage.of_worker hworker
      dsimp only
      split
      · exact h
      split
      · exact idle_endWorker h.solitary hpending hprepared hcancelled
      · have hset : Cycle (n.setWorker { thread with scheduled := false }) :=
          cycle_setWorker h hworker rfl
        exact hset.move ⟨rfl, rfl, rfl, rfl, rfl, rfl, rfl⟩ (Or.inr hrunning) rfl rfl rfl

theorem cycle_quitWorker (h : Cycle n) : Cycle n.quitWorker := by
  have hcancelled : MiningState.cancelled ≠ .submitted := by decide
  rw [NodeRuntime.quitWorker]
  cases hworker : n.mining.worker with
  | none => exact h
  | some thread =>
      obtain ⟨hpending, hprepared, -, -, -⟩ := h.stage.of_worker hworker
      dsimp only
      split
      · exact h
      · exact idle_endWorker h.solitary hpending hprepared hcancelled

/-- The batch that `stop_mining` waits for leaves no request and no candidate. -/
theorem runBatch_resetMining (κ : Crypto) (h : Cycle n) (io : Nat → StorageIo) :
    Solitary (n.resetMining.runBatch κ io).1 ∧
      (n.resetMining.runBatch κ io).1.mining.pendingTemplateRequest = none ∧
      (n.resetMining.runBatch κ io).1.mining.preparedCandidate = none := by
  have hreset : Solitary n.resetMining := h.solitary.congr rfl rfl rfl
  cases hworker : n.resetMining.mining.worker with
  | none =>
      rw [NodeRuntime.runBatch, hworker]
      exact ⟨hreset, rfl, rfl⟩
  | some thread =>
      rcases runBatch_cases κ hworker (h.stage.numbered thread hworker) io with
        ⟨mined, -, hrun⟩ | ⟨-, hrun | ⟨next, -, hrun⟩⟩
      · rw [hrun]
        exact ⟨hreset.congr rfl rfl rfl, rfl, rfl⟩
      · rw [hrun]
        exact ⟨hreset.congr rfl rfl rfl, rfl, rfl⟩
      · rw [hrun]
        exact ⟨hreset.congr rfl rfl rfl, rfl, rfl⟩

theorem cycle_stopMining (h : Cycle n) (finishes : Bool) (io : Nat → StorageIo) :
    Cycle (n.stopMining κ finishes io).1 := by
  have hstopped : MiningState.stopped ≠ .submitted := by decide
  rw [NodeRuntime.stopMining, if_neg (not_not.mpr h.solitary.miner)]
  cases finishes with
  | false =>
      have hreset : Solitary n.resetMining := h.solitary.congr rfl rfl rfl
      exact idle_endWorker hreset rfl rfl hstopped
  | true =>
      obtain ⟨hsolitary, hpending, hprepared⟩ := runBatch_resetMining κ h io
      exact idle_endWorker hsolitary hpending hprepared hstopped

/-- Only a session that starts or ends changes the snapshot. -/
theorem network_react (κ : Crypto) {e : MiningEvent} (h : Cycle m.node)
    (hstays : e.changesPeers = false) : (m.react κ e).1.network = m.node.network := by
  have hbatch : ∀ n : NodeRuntime, (∀ thread, n.mining.worker = some thread → thread.peerId ≠ 0) →
      (n.runBatch κ fun _ => {}).1.network = n.network := by
    intro n hnumbered
    cases hworker : n.mining.worker with
    | none =>
        rw [NodeRuntime.runBatch, hworker]
    | some thread =>
        rcases runBatch_cases κ hworker (hnumbered thread hworker) fun _ => {} with
          ⟨mined, -, hrun⟩ | ⟨-, hrun | ⟨next, -, hrun⟩⟩ <;> rw [hrun] <;> rfl
  cases e with
  | handshake | disconnect => cases hstays
  | template peerId payload =>
      rcases handleBlockTemplate_cases κ m.node peerId payload with ⟨hsame, -⟩ |
        ⟨candidate, -, -, -, htaken⟩
      · rw [react, hsame]
      · rw [react, htaken, NodeRuntime.takeTemplate]
        split <;> rfl
  | block peerId payload submission =>
      obtain ⟨-, -, -, -, hnetwork⟩ :=
        sameCycle_handleBlock κ h.solitary.chain peerId payload submission fun _ => {}
      exact hnetwork
  | result peerId payload =>
      rcases handleBlockResult_cases m.node payload with ⟨hsame, -⟩ | ⟨-, -, -, -, hnetwork⟩
      · rw [react, hsame]
      · exact hnetwork
  | start deferWork =>
      rcases startMining_cases κ h.solitary deferWork false with ⟨error, hrefused⟩ |
        ⟨-, reward, -, source, -, hsent⟩
      · rw [react, hrefused]
      · rw [react, hsent]
        rfl
  | release future =>
      rw [react, NodeRuntime.beginMining]
      split <;> rfl
  | continuous =>
      rw [react, NodeRuntime.startContinuousMining]
      split <;> rfl
  | stop finishes =>
      rw [react, NodeRuntime.stopMining, if_neg (not_not.mpr h.solitary.miner)]
      cases finishes with
      | false => rfl
      | true => exact hbatch m.node.resetMining h.stage.numbered
  | coordinate =>
      rcases coordinate_cases κ h.solitary m.lastWaitReason with ⟨hsame | hnext, -⟩ |
        ⟨-, reward, -, source, -, hnext, -⟩
      · rw [react, hsame]
      · rw [react, hnext]
        rfl
      · rw [react, hnext]
        rfl
  | wake =>
      rw [react, NodeRuntime.wakeWorker]
      split
      · rfl
      split
      · rfl
      split <;> rfl
  | batch => exact hbatch m.node h.stage.numbered
  | quit =>
      rw [react, NodeRuntime.quitWorker]
      split
      · rfl
      split <;> rfl

/-- The step lemma: no event leaves the stages. -/
theorem cycle_step (m : Miner) (e : MiningEvent) (h : Cycle m.node) :
    Cycle (m.step κ e).node := by
  cases e with
  | handshake peer numbered => exact cycle_greeted h peer numbered
  | disconnect peerId => exact cycle_parted h peerId
  | template peerId payload => exact cycle_handleBlockTemplate h peerId payload
  | block peerId payload submission =>
      obtain ⟨hsame, hstate, hconfig, hchain, hnetwork⟩ :=
        sameCycle_handleBlock κ h.solitary.chain peerId payload submission fun _ => {}
      exact h.move hsame hstate hconfig hchain hnetwork
  | result peerId payload => exact cycle_handleBlockResult h payload
  | start deferWork => exact cycle_startMining h deferWork false
  | release future => exact cycle_beginMining h future
  | continuous => exact cycle_startContinuousMining h
  | stop finishes => exact cycle_stopMining h finishes _
  | coordinate => exact cycle_coordinate h m.lastWaitReason
  | wake => exact cycle_wakeWorker h
  | batch => exact cycle_runBatch h _
  | quit => exact cycle_quitWorker h

/-- A mining-only process that has started its network. -/
theorem cycle_startNetwork {config : RuntimeConfig} {directory : NodeRuntime.DataDirectory}
    {io : NodeRuntime.StartIo} {start : NodeRuntime} (hminer : config.hasRole .miner = true)
    (honly : config.hasRole .fullNode = false)
    (hstart : NodeRuntime.initializeNode κ config directory io = some start) :
    Cycle (start.startNetwork κ) ∧
      (start.startNetwork κ).config = config ∧
      (start.startNetwork κ).mining
        = { knownHeight := (genesisBlock κ config.chainId).height
            knownTip := (genesisBlock κ config.chainId).id κ } := by
  have hreward : ¬ (config.hasRole .miner = true ∧ config.rewardAddress.isNone = true) := by
    intro hnone
    rw [NodeRuntime.initializeNode, if_pos hnone] at hstart
    cases hstart
  have hfull : ¬ config.hasRole .fullNode = true := by simp [honly]
  have hnode : start = { config } := by
    rw [NodeRuntime.initializeNode, if_neg hreward, if_pos hfull] at hstart
    exact (Option.some.inj hstart).symm
  have hnetwork : ¬ (¬ start.config.hasRole .fullNode = true ∧
      ¬ start.config.hasRole .miner = true) := by
    rw [hnode]
    exact fun h => h.2 hminer
  have hidle : MiningState.idle ≠ .submitted := by decide
  rw [NodeRuntime.startNetwork, if_neg hnetwork, hnode]
  dsimp only
  rw [if_pos hminer]
  refine ⟨⟨⟨rfl, rfl, hminer, ?_, ?_⟩, .idle rfl rfl rfl rfl hidle⟩, rfl, rfl⟩
  · rw [Option.isSome_iff_ne_none]
    exact fun hnone => hreward ⟨hminer, by rw [hnone]; rfl⟩
  · intro peer hpeer
    cases hpeer

/-! A mining-only process of the regression-test network. -/

/-- Its configuration. -/
def regtestMiner : RuntimeConfig where
  networkProfile := .regtest
  roles := [.miner]
  rewardAddress := some (Address.fromPublicKey reference minerKey)

theorem initializeNode_regtestMiner :
    NodeRuntime.initializeNode reference regtestMiner {} {} = some { config := regtestMiner } := rfl

/-- A full node. -/
def fullNodePeer (id : UInt64) : PeerStatus where
  id := id
  handshakeComplete := true
  services := fullNodeService
  remoteHeight := 0
  remoteTip := .zero

theorem numbered_fullNodePeer : (fullNodePeer 1).id ≠ 0 := by decide

theorem numbered_secondPeer : (fullNodePeer 2).id ≠ 0 := by decide

end Miner

end BBC
