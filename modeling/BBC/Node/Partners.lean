/-
# `BBC.Node.Partners` — a full node and its mining worker

A mining-only process checks a template against its view of the tip, and builds the view
from what the full node tells it: relayed blocks and the results of its own submissions.
The system here is one full node, one worker and the session between them.

    up      TEMPLATE_REQUEST, BLOCK_SUBMIT        what the worker has sent
    down    BLOCK_TEMPLATE, BLOCK, BLOCK_RESULT   what the node has sent, in order

The node handles messages of other peers, blocks of its own mining thread and batches
of a synchronization; the worker obeys its control commands and its mining thread.

The view is advanced by a relayed child of it and by the accepted result of the worker's
own submission, as `docs/adr/0012-network-transaction-confirmation.md` decides, and a worker
that joins late cannot discover the blocks it has missed (`template_refused`).  The view is
right as long as the messages under way lead from it to the node's tip (`Tracks`).  `Kept`
leaves out what the two ways do not carry:

* a batch moves the tip, which is not relayed;
* the tip moves to a block that is not a child of the old tip;
* the result of a submission arrives when the worker has forgotten the block.

For a worker that joins with the tip as its view each template that answers its request is
taken in every run without them (`templates_agree`).
-/
import BBC.Node.MiningView
import BBC.Node.Wire

namespace BBC

open Sections (Program)
open Runs (Along)

/-- The ids of the session: the worker's at the node, and the node's at the worker. -/
structure Ends where
  workerId : UInt64
  nodeId : UInt64

/-- The two processes and the messages between them. -/
structure Partners where
  node : NodeRuntime
  worker : Miner
  up : List Message := []
  down : List Message := []

/-- What happens next. -/
inductive PartnerEvent where
  /-- The node runs a handler that is not for a message of the worker. -/
  | handle (call : NodeRuntime.Call) (io : Nat → StorageIo)
  /-- The node handles the next message of the worker. -/
  | receive (io : Nat → StorageIo)
  /-- The worker handles the next message of the node. -/
  | deliver
  /-- Anything else happens to the worker. -/
  | act (e : MiningEvent)

/-- The peer whose message a handler of the node is for. -/
def NodeRuntime.Call.sender : NodeRuntime.Call → Option UInt64
  | .block peerId _ | .blockSubmit peerId _ | .blocks peerId _ | .getBlocks peerId _
  | .transaction peerId _ | .transactionSubmit peerId _ | .handshake peerId => some peerId
  | _ => none

/-- The handler relays the tip that it changes. -/
def NodeRuntime.Call.relaysTip : NodeRuntime.Call → Bool
  | .block _ _ | .blockSubmit _ _ | .mined _ => true
  | _ => false

/-- The peer that an event of the worker belongs to. -/
def MiningEvent.peer : MiningEvent → Option UInt64
  | .handshake peer _ => some peer.id
  | .disconnect peerId | .template peerId _ | .block peerId _ _ | .result peerId _ => some peerId
  | _ => none

/-- The event is a message, and not the start or the end of a session. -/
def MiningEvent.isMessage : MiningEvent → Bool
  | .template _ _ | .block _ _ _ | .result _ _ => true
  | _ => false

namespace Partners

variable (κ : Crypto) (ends : Ends)

/-- The node handles a message of the worker; a mining-only process sends no other types. -/
def serve (s : Partners) (io : Nat → StorageIo) : Message → NodeRuntime × List Output
  | (.templateRequest, payload) =>
      (s.node, s.node.handleTemplateRequest κ ends.workerId payload)
  | (.blockSubmit, payload) => (NodeRuntime.handleBlock κ ends.workerId payload true).run io s.node
  | _ => (s.node, [])

/-- The worker's handler for a message of the node; the other types need a store. -/
def heard (nodeId : UInt64) : Message → Option MiningEvent
  | (.blockTemplate, payload) => some (.template nodeId payload)
  | (.block, payload) => some (.block nodeId payload false)
  | (.blockSubmit, payload) => some (.block nodeId payload true)
  | (.blockResult, payload) => some (.result nodeId payload)
  | _ => none

/-- The worker moves. -/
def act (s : Partners) (e : MiningEvent) : Partners :=
  { s with
    worker := s.worker.step κ e
    up := s.up ++ (s.worker.react κ e).2.flatMap (Output.to ends.nodeId) }

/-- The node has moved, and its messages to the worker are under way. -/
def moveNode (s : Partners) (r : NodeRuntime × List Output) : Partners :=
  { s with node := r.1, down := s.down ++ r.2.flatMap (Output.to ends.workerId) }

/-- One event. -/
def step (s : Partners) : PartnerEvent → Partners
  | .handle call io => s.moveNode ends ((call.task κ).run io s.node)
  | .receive io =>
      match s.up with
      | [] => s
      | m :: up => { s with up := up }.moveNode ends (s.serve κ ends io m)
  | .deliver =>
      match s.down with
      | [] => s
      | m :: down =>
          match heard ends.nodeId m with
          | none => { s with down := down }
          | some e => { s with down := down }.act κ ends e
  | .act e => s.act κ ends e

/-- The session is opened. -/
def join (node : NodeRuntime) (worker : Miner) (workerPeer nodePeer : PeerStatus)
    (numbered : nodePeer.id ≠ 0) : Partners where
  node := node.greeted workerPeer
  worker := worker.step κ (.handshake nodePeer numbered)

/-! ## The conditions -/

/-- The tip stays or moves to a child. -/
def Follows (n n' : NodeRuntime) : Prop :=
  n'.startTip κ = n.startTip κ ∨ (n'.startTip κ).previousBlockHash = (n.startTip κ).id κ

/-- The conditions on an event: the session stays open; the node's tip moves only to a
child, and only by a handler that relays it; a transaction of the node's own wallet is
signed; an accepted result finds the worker where it has submitted the block; and what
other peers tell the worker leaves its view alone. -/
def Kept (s : Partners) : PartnerEvent → Prop
  | .handle call io =>
      call.sender ≠ some ends.workerId ∧
      (∀ t, call = .submit t → t.Verified κ) ∧
      (∀ peers, call = .peers peers →
        (peers.any fun peer => peer.id = ends.workerId && peer.handshakeComplete) = true) ∧
      Follows κ s.node ((call.task κ).run io s.node).1 ∧
      (call.relaysTip = false →
        ((call.task κ).run io s.node).1.startTip κ = s.node.startTip κ)
  | .receive io => ∀ m ∈ s.up.head?, Follows κ s.node (s.serve κ ends io m).1
  | .deliver => ∀ payload, s.down.head? = some (.blockResult, payload) →
      NodeRuntime.resultAccepted payload = true →
        s.worker.node.mining.foundBlockId = some (NodeRuntime.resultBlockId payload) ∧
        s.worker.node.mining.height = some (s.worker.node.mining.knownHeight + 1)
  | .act e => e.peer ≠ some ends.nodeId ∧
      (e.peer.isSome = true → (s.worker.step κ e).node.known = s.worker.node.known)

end Partners

/-! ## What the worker does -/

namespace Miner

variable {κ : Crypto} {n : NodeRuntime} {m : Miner} {e : MiningEvent}

/-- The process keeps its configuration and its view. -/
structure Settled (n n' : NodeRuntime) : Prop where
  config : n'.config = n.config
  known : n'.known = n.known

theorem Settled.refl (n : NodeRuntime) : Settled n n := ⟨rfl, rfl⟩

theorem settled_runBatch (κ : Crypto)
    (hnumbered : ∀ thread, n.mining.worker = some thread → thread.peerId ≠ 0)
    (io : Nat → StorageIo) :
    Settled n (n.runBatch κ io).1 ∧
      ∀ o ∈ (n.runBatch κ io).2, ∃ peerId payload, o = .send peerId .blockSubmit payload := by
  cases hworker : n.mining.worker with
  | none =>
      rw [NodeRuntime.runBatch, hworker]
      exact ⟨.refl n, fun o ho => absurd ho List.not_mem_nil⟩
  | some thread =>
      rcases runBatch_cases κ hworker (hnumbered thread hworker) io with
        ⟨mined, -, hrun⟩ | ⟨-, hrun | ⟨next, -, hrun⟩⟩
      · rw [hrun]
        refine ⟨⟨rfl, rfl⟩, fun o ho => ?_⟩
        have ho : o ∈ n.send thread.peerId .blockSubmit mined.serialize := ho
        rw [NodeRuntime.send] at ho
        split at ho
        · exact ⟨_, _, List.mem_singleton.mp ho⟩
        · exact absurd ho List.not_mem_nil
      · rw [hrun]
        exact ⟨⟨rfl, rfl⟩, fun o ho => absurd ho List.not_mem_nil⟩
      · rw [hrun]
        exact ⟨⟨rfl, rfl⟩, fun o ho => absurd ho List.not_mem_nil⟩

/-- What a worker sends to a full node: requests with its reward address, and blocks. -/
def Upward (reward : Address) (message : Message) : Prop :=
  (∃ requestId, message
    = (.templateRequest, NodeRuntime.encodeTemplateRequest requestId reward)) ∨
  ∃ payload, message = (.blockSubmit, payload)

/-- The outputs of the worker for the session. -/
def Sends (reward : Address) (nodeId : UInt64) (os : List Output) : Prop :=
  ∀ message ∈ os.flatMap (Output.to nodeId), Upward reward message

theorem sends_nil (reward : Address) (nodeId : UInt64) : Sends reward nodeId [] :=
  fun _ hm => absurd hm List.not_mem_nil

theorem sends_send {reward : Address} {nodeId target : UInt64} {type : MessageType}
    {payload : Bytes} (h : target = nodeId → Upward reward (type, payload)) :
    Sends reward nodeId [.send target type payload] := by
  intro message hm
  rw [List.flatMap_singleton, Output.to] at hm
  split at hm
  · rename_i htarget
    rw [List.mem_singleton.mp hm]
    exact h htarget
  · exact absurd hm List.not_mem_nil

theorem sends_submissions {reward : Address} {nodeId : UInt64} {os : List Output}
    (h : ∀ o ∈ os, ∃ peerId payload, o = .send peerId .blockSubmit payload) :
    Sends reward nodeId os := by
  intro message hm
  obtain ⟨o, ho, hmo⟩ := List.mem_flatMap.mp hm
  obtain ⟨peerId, payload, rfl⟩ := h o ho
  rw [Output.to] at hmo
  split at hmo
  · exact Or.inr ⟨payload, List.mem_singleton.mp hmo⟩
  · exact absurd hmo List.not_mem_nil

/-- The control commands, the coordinator and the mining thread. -/
theorem settled_react (κ : Crypto) (h : Cycle m.node) {reward : Address}
    (hreward : m.node.config.rewardAddress = some reward) (hlocal : e.peer = none)
    (nodeId : UInt64) :
    Settled m.node (m.react κ e).1 ∧ Sends reward nodeId (m.react κ e).2 := by
  cases e with
  | handshake | disconnect | template | block | result => cases hlocal
  | start deferWork =>
      rcases startMining_cases κ h.solitary deferWork false with ⟨error, hrefused⟩ |
        ⟨-, other, hother, source, -, hsent⟩
      · rw [react, hrefused]
        exact ⟨.refl _, sends_nil reward nodeId⟩
      · rw [react, hsent]
        cases hother.symm.trans hreward
        exact ⟨⟨rfl, rfl⟩, sends_send fun _ => Or.inl ⟨_, rfl⟩⟩
  | release future =>
      refine ⟨?_, sends_nil reward nodeId⟩
      show Settled m.node (m.node.beginMining future)
      rw [NodeRuntime.beginMining]
      split
      · exact ⟨rfl, rfl⟩
      · exact .refl _
  | continuous =>
      refine ⟨?_, sends_nil reward nodeId⟩
      show Settled m.node m.node.startContinuousMining
      rw [NodeRuntime.startContinuousMining]
      split
      · exact .refl _
      · exact ⟨rfl, rfl⟩
  | stop finishes =>
      show Settled m.node (m.node.stopMining κ finishes fun _ => {}).1 ∧
        Sends reward nodeId (m.node.stopMining κ finishes fun _ => {}).2
      rw [NodeRuntime.stopMining]
      split
      · exact ⟨.refl _, sends_nil reward nodeId⟩
      cases finishes with
      | false => exact ⟨⟨rfl, rfl⟩, sends_nil reward nodeId⟩
      | true =>
          obtain ⟨hsettled, hsends⟩ := settled_runBatch κ (n := m.node.resetMining)
            h.stage.numbered fun _ => {}
          exact ⟨⟨hsettled.config, hsettled.known⟩, sends_submissions hsends⟩
  | coordinate =>
      rcases coordinate_cases κ h.solitary m.lastWaitReason with ⟨hsame | hnext, hnothing⟩ |
        ⟨-, other, hother, source, -, hnext, hsent⟩
      · rw [react, hsame, hnothing]
        exact ⟨.refl _, sends_nil reward nodeId⟩
      · rw [react, hnext, hnothing]
        exact ⟨⟨rfl, rfl⟩, sends_nil reward nodeId⟩
      · rw [react, hnext, hsent]
        cases hother.symm.trans hreward
        exact ⟨⟨rfl, rfl⟩, sends_send fun _ => Or.inl ⟨_, rfl⟩⟩
  | wake =>
      refine ⟨?_, sends_nil reward nodeId⟩
      show Settled m.node m.node.wakeWorker
      rw [NodeRuntime.wakeWorker]
      split
      · exact .refl _
      split
      · exact .refl _
      split
      · exact ⟨rfl, rfl⟩
      · exact ⟨rfl, rfl⟩
  | batch =>
      obtain ⟨hsettled, hsends⟩ := settled_runBatch κ h.stage.numbered fun _ => {}
      exact ⟨hsettled, sends_submissions hsends⟩
  | quit =>
      refine ⟨?_, sends_nil reward nodeId⟩
      show Settled m.node m.node.quitWorker
      rw [NodeRuntime.quitWorker]
      split
      · exact .refl _
      split
      · exact .refl _
      · exact ⟨rfl, rfl⟩

theorem sends_handleBlock (κ : Crypto) (hchain : n.chainStore = none) {reward : Address}
    {nodeId peerId : UInt64} (hne : peerId ≠ nodeId) (payload : Bytes) (submission : Bool) :
    Sends reward nodeId
      ((NodeRuntime.handleBlock κ peerId payload submission).run (fun _ => {}) n).2 := by
  rw [NodeRuntime.handleBlock]
  cases deserializeBlock κ payload with
  | error e =>
      cases submission with
      | false => exact sends_nil reward nodeId
      | true =>
          show Sends reward nodeId (n.sendBlockResult peerId .zero false 2 ++ [])
          rw [List.append_nil, NodeRuntime.sendBlockResult, NodeRuntime.send]
          split
          · exact sends_send fun heq => absurd heq hne
          · exact sends_nil reward nodeId
  | ok block =>
      dsimp only
      rw [Program.run_step, hchain]
      exact sends_nil reward nodeId

theorem config_message (κ : Crypto) (h : Cycle m.node) (hmessage : e.isMessage = true) :
    (m.react κ e).1.config = m.node.config := by
  cases e with
  | template peerId payload => exact (sameView_handleBlockTemplate κ m.node peerId payload).config
  | block peerId payload submission =>
      obtain ⟨-, -, hconfig, -⟩ :=
        sameCycle_handleBlock κ h.solitary.chain peerId payload submission fun _ => {}
      exact hconfig
  | result peerId payload =>
      rcases handleBlockResult_cases m.node payload with ⟨hsame, -⟩ | ⟨-, -, hconfig, -⟩
      · rw [react, hsame]
      · exact hconfig
  | handshake | disconnect | start | release | continuous | stop | coordinate | wake | batch
  | quit => cases hmessage

theorem stays_of_isMessage (h : e.isMessage = true) : e.changesPeers = false := by
  cases e with
  | template | block | result => rfl
  | _ => cases h

theorem stays_of_local (h : e.peer = none) : e.changesPeers = false := by
  cases e with
  | handshake | disconnect => cases h
  | _ => rfl

theorem reaches_of_network {n' : NodeRuntime} {nodeId : UInt64} (h : n.reaches nodeId = true)
    (hnetwork : n'.network = n.network) : n'.reaches nodeId = true := by
  rw [NodeRuntime.reaches, NodeRuntime.peers, hnetwork]
  exact h

theorem foreign_react (κ : Crypto) (h : Cycle m.node) (reward : Address) {nodeId : UInt64}
    (hforeign : e.peer.isSome = true) (hother : e.peer ≠ some nodeId)
    (hreach : m.node.reaches nodeId = true) :
    (m.react κ e).1.config = m.node.config ∧ (m.react κ e).1.reaches nodeId = true ∧
      Sends reward nodeId (m.react κ e).2 := by
  have hmessage : e.isMessage = true → (m.react κ e).1.config = m.node.config ∧
      (m.react κ e).1.reaches nodeId = true := fun he =>
    ⟨config_message κ h he,
      reaches_of_network hreach (network_react κ h (stays_of_isMessage he))⟩
  cases e with
  | handshake peer numbered =>
      exact ⟨rfl, NodeRuntime.reaches_greeted h.solitary.network peer hreach,
        sends_nil reward nodeId⟩
  | disconnect peerId =>
      exact ⟨rfl, NodeRuntime.reaches_parted h.solitary.network
        (fun heq => hother (congrArg some heq.symm)) hreach, sends_nil reward nodeId⟩
  | template peerId payload =>
      obtain ⟨hconfig, hstill⟩ := hmessage rfl
      exact ⟨hconfig, hstill, sends_nil reward nodeId⟩
  | block peerId payload submission =>
      obtain ⟨hconfig, hstill⟩ := hmessage rfl
      exact ⟨hconfig, hstill, sends_handleBlock κ h.solitary.chain
        (fun heq => hother (congrArg some heq)) payload submission⟩
  | result peerId payload =>
      obtain ⟨hconfig, hstill⟩ := hmessage rfl
      exact ⟨hconfig, hstill, sends_nil reward nodeId⟩
  | start | release | continuous | stop | coordinate | wake | batch | quit => cases hforeign

theorem config_step (κ : Crypto) (m : Miner) (e : MiningEvent) (h : Cycle m.node) :
    (m.step κ e).node.config = m.node.config := by
  obtain ⟨reward, hreward⟩ := Option.isSome_iff_exists.mp h.solitary.reward
  cases hpeer : e.peer with
  | none => exact (settled_react κ h hreward hpeer 0).1.config
  | some peerId =>
      cases e with
      | handshake | disconnect => rfl
      | template | block | result => exact config_message κ h rfl
      | start | release | continuous | stop | coordinate | wake | batch | quit => cases hpeer

theorem cycle_history {config : RuntimeConfig} {directory : NodeRuntime.DataDirectory}
    {io : NodeRuntime.StartIo} {start : NodeRuntime} (hminer : config.hasRole .miner = true)
    (honly : config.hasRole .fullNode = false)
    (hstart : NodeRuntime.initializeNode κ config directory io = some start)
    (past : List MiningEvent) :
    Cycle (Runs.run (step κ) (launch (start.startNetwork κ)) past).node ∧
      (Runs.run (step κ) (launch (start.startNetwork κ)) past).node.config = config := by
  obtain ⟨hcycle, hconfig, -⟩ := cycle_startNetwork hminer honly hstart
  have hinit : Cycle (Miner.launch (start.startNetwork κ)).node ∧
      (Miner.launch (start.startNetwork κ)).node.config = config := ⟨hcycle, hconfig⟩
  have hstep : ∀ (m : Miner) (e : MiningEvent), True →
      Cycle m.node ∧ m.node.config = config →
        Cycle (m.step κ e).node ∧ (m.step κ e).node.config = config := by
    intro m e _ hm
    exact ⟨cycle_step m e hm.1, (config_step κ m e hm.1).trans hm.2⟩
  exact Runs.along_true.invariant hstep hinit

/-! ## A message of the node -/

section
variable {tip next : Block} {reward : Address} {nodeId : UInt64}

theorem fields_of_createTemplate {candidate : Block} {transactions : List SignedTransaction}
    (h : createTemplate κ tip reward transactions = .ok candidate) :
    candidate.height = tip.height + 1 ∧ candidate.previousBlockHash = tip.id κ ∧
      candidate.chainId = tip.chainId ∧
      candidate.difficultyTarget = fixedDifficultyTarget tip.chainId ∧
      candidate.rewardRecipient = some reward := by
  obtain ⟨-, -, -, -, -, rfl⟩ := Block.createBlock_ok h
  exact ⟨rfl, rfl, rfl, rfl, rfl⟩

theorem fixedDifficultyTarget_chainId (config : RuntimeConfig) :
    fixedDifficultyTarget config.chainId =
      (networkParameters config.networkProfile).difficultyTarget := by
  rw [RuntimeConfig.chainId]
  cases config.networkProfile with
  | development => decide
  | regtest => decide

/-- A template on the block that the worker knows passes every check and is taken. -/
theorem takes_template (h : Cycle n) (hknown : n.known = (tip.height, tip.id κ))
    (hchain : tip.chainId = n.config.chainId) (hreward : n.config.rewardAddress = some reward)
    (hreach : n.reaches nodeId = true) {transactions : List SignedTransaction}
    (hverified : ∀ t ∈ transactions, t.Verified κ) {candidate : Block}
    (hcreated : createTemplate κ tip reward transactions = .ok candidate) {requestId : UInt64}
    (hanswers : n.answersRequest nodeId (encodeU64Le requestId ++ candidate.serialize)) :
    deserializeBlock κ ((encodeU64Le requestId ++ candidate.serialize).drop 8) = .ok candidate ∧
      n.expectsTemplate κ nodeId candidate ∧
      n.handleBlockTemplate κ nodeId (encodeU64Le requestId ++ candidate.serialize)
        = n.takeTemplate nodeId candidate := by
  have hdecoded : deserializeBlock κ ((encodeU64Le requestId ++ candidate.serialize).drop 8)
      = .ok candidate := by
    rw [List.drop_left' (length_encodeU64Le requestId)]
    exact Block.deserialize_serialize (Block.wellFormed_of_createBlock hverified hcreated)
  obtain ⟨hheight, hparent, hcandidate, hdifficulty, hrecipient⟩ :=
    fields_of_createTemplate hcreated
  obtain ⟨hknownHeight, hknownTip⟩ := Prod.mk.inj hknown
  have hexpects : n.expectsTemplate κ nodeId candidate := by
    rw [NodeRuntime.expectsTemplate, NodeRuntime.expectedTip, h.solitary.chain]
    refine ⟨hreach, hcandidate.trans hchain, ?_, ?_, ?_, ?_, ?_⟩
    · show candidate.height = n.mining.knownHeight + 1
      rw [hknownHeight]
      exact hheight
    · show candidate.previousBlockHash = n.mining.knownTip
      rw [hknownTip]
      exact hparent
    · rw [hdifficulty, hchain]
      exact fixedDifficultyTarget_chainId n.config
    · rw [hrecipient]
      rfl
    · rw [hrecipient, hreward]
  refine ⟨hdecoded, hexpects, ?_⟩
  rw [NodeRuntime.handleBlockTemplate, if_neg (not_not.mpr hanswers), hdecoded]
  exact if_neg (not_not.mpr hexpects)

theorem known_observeBlock_child (hknown : n.known = (tip.height, tip.id κ))
    (hchain : tip.chainId = n.config.chainId) {block : Block} (hchild : tip.Extends κ block) :
    (n.observeBlock κ block).known = (block.height, block.id κ) := by
  obtain ⟨hknownHeight, hknownTip⟩ := Prod.mk.inj hknown
  have hextends : n.mining.knownHeight < block.height ∧
      block.height - 1 = n.mining.knownHeight ∧ block.previousBlockHash = n.mining.knownTip := by
    rw [hknownHeight, hknownTip]
    refine ⟨hchild.higher, ?_, hchild.parent⟩
    rw [hchild.height, UInt64.add_sub_cancel]
  rw [NodeRuntime.observeBlock, if_neg]
  · rfl
  rintro (hneither | hchain' | hwork)
  · exact hneither.1 hextends
  · exact hchain' (hchild.chain.trans hchain)
  · exact hwork hchild.work

theorem known_observeBlock_low {block : Block} (hlow : block.height ≤ n.mining.knownHeight) :
    (n.observeBlock κ block).known = n.known := by
  rcases observeBlock_cases κ n block with hsame | ⟨hhigher, -⟩
  · rw [hsame]
  · exact absurd hhigher (UInt64.not_lt.mpr hlow)

/-- `handle_block` of the worker, for a block that it can decode. -/
theorem run_handleBlock_worker (hchain : n.chainStore = none) {block : Block}
    (hwell : block.WellFormed κ) (peerId : UInt64) (io : Nat → StorageIo) :
    ((NodeRuntime.handleBlock κ peerId block.serialize false).run io n).1
      = n.observeBlock κ block := by
  rw [NodeRuntime.handleBlock, Block.deserialize_serialize hwell]
  dsimp only
  rw [Program.run_step, hchain]
  rfl

theorem outputs_handleBlock_worker (hchain : n.chainStore = none) {block : Block}
    (hwell : block.WellFormed κ) (peerId : UInt64) (io : Nat → StorageIo) :
    ((NodeRuntime.handleBlock κ peerId block.serialize false).run io n).2 = [] := by
  rw [NodeRuntime.handleBlock, Block.deserialize_serialize hwell]
  dsimp only
  rw [Program.run_step, hchain]
  rfl

theorem result_encodeBlockResult (blockId : Hash256) (accepted : Bool) (reason : UInt16) :
    NodeRuntime.resultBlockId (encodeBlockResult blockId accepted reason) = blockId ∧
      NodeRuntime.resultAccepted (encodeBlockResult blockId accepted reason) = accepted := by
  have hdrop : (encodeBlockResult blockId accepted reason).drop 0
      = blockId.toList ++ ((if accepted then 1 else 0) :: encodeU16Le reason) := rfl
  refine ⟨ByteCodec.readArray_of_drop hdrop, ?_⟩
  rw [NodeRuntime.resultAccepted, encodeBlockResult, List.getD_eq_getElem?_getD,
    List.getElem?_append_right (by simp)]
  cases accepted with
  | true => simp
  | false => simp

theorem known_refusal {payload : Bytes} (h : NodeRuntime.resultAccepted payload = false) :
    (n.handleBlockResult payload).known = n.known := by
  rw [NodeRuntime.handleBlockResult]
  split
  · rfl
  · rw [if_neg (by rw [h]; exact Bool.false_ne_true)]
    rfl

/-- The acceptance of the child that the worker has submitted. -/
theorem known_acceptance (hknown : n.known = (tip.height, tip.id κ)) {block : Block}
    (hchild : tip.Extends κ block) (hfound : n.mining.foundBlockId = some (block.id κ))
    (hheight : n.mining.height = some (n.mining.knownHeight + 1)) :
    (n.handleBlockResult (encodeBlockResult (block.id κ) true 0)).known
      = (block.height, block.id κ) := by
  obtain ⟨hid, haccepted⟩ := result_encodeBlockResult (block.id κ) true 0
  have hformed : NodeRuntime.WellFormedResult (encodeBlockResult (block.id κ) true 0) := by
    refine ⟨by simp [encodeBlockResult], ?_, ?_⟩
    · rw [encodeBlockResult, List.getD_eq_getElem?_getD, List.getElem?_append_right (by simp)]
      simp
    · rw [haccepted]
      refine ⟨fun _ => ?_, fun _ => rfl⟩
      have hdrop : (encodeBlockResult (block.id κ) true 0).drop 33 = encodeU16Le 0 ++ [] := by
        show ((block.id κ).toList ++ ([1] ++ encodeU16Le 0)).drop 33 = _
        rw [← List.append_assoc, List.drop_left' (by simp), List.append_nil]
      exact readU16Le_of_drop hdrop
  rw [NodeRuntime.handleBlockResult, if_neg, if_pos haccepted, hheight, hid]
  · have hknownHeight := (Prod.mk.inj hknown).1
    show (n.mining.knownHeight + 1, block.id κ) = (block.height, block.id κ)
    rw [hknownHeight, hchild.height]
  · rw [hid]
    rintro (hbad | hother)
    · exact hbad hformed
    · exact hother hfound

end

end Miner

/-! ## What the node does -/

namespace NodeRuntime

variable {κ : Crypto} {chainId : UInt32} {n : NodeRuntime} {reward : Address}

/-- The node has its stores, its network and, once it is open, the session of the worker. -/
structure Serves (κ : Crypto) (chainId : UInt32) (held : Option UInt64) (n : NodeRuntime) :
    Prop where
  genuine : n.Genuine κ chainId
  network : n.network.isSome = true
  reaches : ∀ workerId, held = some workerId → n.reaches workerId = true

theorem stable_serves (hsupported : SupportedChain chainId) (held : Option UInt64) :
    Stable κ (fun _ => True) (SignedTransaction.Verified κ) (Serves κ chainId held) where
  congr h hn := ⟨hn.genuine.congr h.chain h.pool, h.network.trans hn.network,
    fun workerId hheld => (reaches_congr h.peers workerId).trans (hn.reaches workerId hheld)⟩
  append {n io block} hblock _ hn := by
    obtain ⟨store, pool, hstore, -⟩ := hn.genuine
    obtain ⟨-, hsame, -⟩ := chainStore_appendSection (κ := κ) hstore block io
    refine ⟨hn.genuine.appendSection hsupported hblock _, ?_, fun workerId hheld => ?_⟩
    · rw [hsame]
      exact hn.network
    · rw [NodeRuntime.reaches, peers, hsame]
      exact hn.reaches workerId hheld
  verified h := h
  add {n io t} ht _ hn := by
    have hsame : (n.addSection κ t io).1.network = n.network := by
      rw [addSection]
      split <;> rfl
    refine ⟨hn.genuine.addSection ht _, ?_, fun workerId hheld => ?_⟩
    · rw [hsame]
      exact hn.network
    · rw [NodeRuntime.reaches, peers, hsame]
      exact hn.reaches workerId hheld

/-- Every handler keeps the session, unless the peer network closes it. -/
theorem Serves.call (hsupported : SupportedChain chainId) {held : Option UInt64}
    (h : n.Serves κ chainId held) (call : Call) (hsubmit : ∀ t, call = .submit t → t.Verified κ)
    (hpeers : ∀ peers workerId, call = .peers peers → held = some workerId →
      (peers.any fun peer => peer.id = workerId && peer.handshakeComplete) = true)
    (io : Nat → StorageIo) : ((call.task κ).run io n).1.Serves κ chainId held := by
  have hkeeps := (stable_serves (κ := κ) hsupported held).keeps_call call hsubmit
    fun peers hcall n hn => ?_
  · exact hkeeps.run (fun _ => trivial) h
  · refine ⟨hn.genuine.congr rfl rfl, ?_, fun workerId hheld => ?_⟩
    · rw [setPeers]
      exact Option.isSome_map.trans hn.network
    · rw [NodeRuntime.reaches, peers_setPeers hn.network]
      exact hpeers peers workerId hcall hheld

theorem supportedChain_chainId (config : RuntimeConfig) : SupportedChain config.chainId := by
  rw [RuntimeConfig.chainId]
  cases config.networkProfile with
  | development => decide
  | regtest => decide

/-- A handler and its outcomes of storage, run to the end. -/
def callStep (κ : Crypto) (n : NodeRuntime) (c : Call × (Nat → StorageIo)) : NodeRuntime :=
  ((c.1.task κ).run c.2 n).1

/-- A full node after any history, before the worker comes. -/
theorem serves_history {config : RuntimeConfig} {directory : DataDirectory} {io : StartIo}
    {start : NodeRuntime} (hrole : config.hasRole .fullNode = true)
    (hstart : initializeNode κ config directory io = some start)
    {calls : List (Call × (Nat → StorageIo))}
    (hsigned : Along (callStep κ) (fun _ c => ∀ t, c.1 = .submit t → t.Verified κ)
      (start.startNetwork κ) calls) :
    (Runs.run (callStep κ) (start.startNetwork κ) calls).Serves κ config.chainId none := by
  have hsupported : SupportedChain config.chainId := supportedChain_chainId config
  have hnetwork : ¬ (¬ start.config.hasRole .fullNode = true ∧
      ¬ start.config.hasRole .miner = true) := by
    rw [(fresh_initializeNode hstart).1]
    exact fun h => h.1 hrole
  have hunheld : ∀ (n : NodeRuntime) (workerId : UInt64), none = some workerId →
      n.reaches workerId = true := by
    intro n workerId hheld
    cases hheld
  refine hsigned.invariant (fun n c hsubmit hn => ?_) ?_
  · refine hn.call hsupported c.1 hsubmit ?_ c.2
    intro peers workerId _ hheld
    cases hheld
  rw [startNetwork, if_neg hnetwork]
  exact ⟨(genuine_initializeNode hrole hstart).congr rfl rfl, rfl, hunheld _⟩

theorem chainId_startTip (h : n.Genuine κ chainId) : (n.startTip κ).chainId = chainId := by
  obtain ⟨store, pool, hstore, -, ⟨bs, -, hbs⟩, -⟩ := h
  rw [startTip_of_some hstore, hbs]
  exact (Blockchain.inv_replay κ chainId bs).chainId_tip

/-- What a handler for others tells the worker leads from the old tip to the new one. -/
theorem tracks_call {workerId : UInt64} (h : n.Serves κ chainId (some workerId))
    (hnumbered : workerId ≠ 0)
    {call : Call} (hsender : call.sender ≠ some workerId) (io : Nat → StorageIo)
    (hfollows : Partners.Follows κ n ((call.task κ).run io n).1)
    (hsame : call.relaysTip = false → ((call.task κ).run io n).1.startTip κ = n.startTip κ) :
    Tracks κ reward (n.startTip κ) (((call.task κ).run io n).2.flatMap (Output.to workerId))
      (((call.task κ).run io n).1.startTip κ) := by
  have hother : ∀ {sender : UInt64}, call.sender = some sender → sender ≠ workerId := by
    rintro sender hcall rfl
    exact hsender hcall
  have hquiet : call.relaysTip = false → (call.task κ).Emits Output.Quiet →
      Tracks κ reward (n.startTip κ) (((call.task κ).run io n).2.flatMap (Output.to workerId))
        (((call.task κ).run io n).1.startTip κ) := by
    intro hrelays hemits
    rw [hsame hrelays]
    exact .of_quiet (hemits.run io n) workerId
  cases call with
  | block peerId payload =>
      exact tracks_handleBlock h.genuine h.network (h.reaches _ rfl)
        (fun heq => absurd heq (hother rfl)) io hfollows
  | blockSubmit peerId payload =>
      exact tracks_handleBlock h.genuine h.network (h.reaches _ rfl)
        (fun heq => absurd heq (hother rfl)) io hfollows
  | mined block =>
      exact tracks_foundLocally h.genuine h.network (h.reaches _ rfl) hnumbered block io hfollows
  | blocks peerId payload => exact hquiet rfl (emits_handleBlocks peerId payload)
  | getBlocks peerId payload => exact hquiet rfl (emits_handleGetBlocks peerId payload)
  | transaction peerId payload => exact hquiet rfl (emits_handleTransaction peerId payload false)
  | transactionSubmit peerId payload =>
      exact hquiet rfl (emits_handleTransaction peerId payload true)
  | handshake peerId => exact hquiet rfl (emits_maybeStartSync peerId)
  | submit t => exact hquiet rfl (emits_submitSignedTransaction t)
  | peers snapshot => exact hquiet rfl (Program.emits_last fun _ _ => quiet_nil)

theorem verified_selectedTransactions (h : n.Genuine κ chainId) :
    ∀ t ∈ n.selectedTransactions κ, t.Verified κ := by
  obtain ⟨store, pool, -, hpool, -, hpending⟩ := h
  intro t ht
  rw [selectedTransactions, hpool] at ht
  exact hpending t (Mempool.mem_of_mem_select ht)

/-- The answer to a request is a template on the tip. -/
theorem tracks_templateRequest {workerId : UInt64} (h : n.Serves κ chainId (some workerId))
    (requestId : UInt64) :
    Tracks κ reward (n.startTip κ)
      ((n.handleTemplateRequest κ workerId
        (encodeTemplateRequest requestId reward)).flatMap (Output.to workerId)) (n.startTip κ) := by
  obtain ⟨store, pool, hstore, -⟩ := h.genuine
  have hverified := verified_selectedTransactions h.genuine
  have hlength : (encodeTemplateRequest requestId reward).length = 40 := by
    simp [encodeTemplateRequest]
  have hid : readU64Le (encodeTemplateRequest requestId reward) 0 = requestId := by
    have hdrop : (encodeTemplateRequest requestId reward).drop 0
        = encodeU64Le requestId ++ reward.hash.toList := rfl
    exact readU64Le_of_drop hdrop
  have hreward : (⟨ByteCodec.readArray 32 (encodeTemplateRequest requestId reward) 8⟩ : Address)
      = reward := by
    have hdrop : (encodeTemplateRequest requestId reward).drop 8 = reward.hash.toList ++ [] := by
      rw [encodeTemplateRequest, List.drop_left' (length_encodeU64Le requestId), List.append_nil]
    rw [ByteCodec.readArray_of_drop hdrop]
  rw [handleTemplateRequest, hstore]
  dsimp only
  rw [if_neg (not_not.mpr hlength), hreward, hid, startTip_of_some hstore]
  cases hcreated : createTemplate κ store.blockchain.tip reward (n.selectedTransactions κ) with
  | error e => exact .nil _
  | ok candidate =>
      dsimp only
      rw [to_send_self (h.reaches _ rfl)]
      exact .single (.template hverified hcreated requestId)

end NodeRuntime

namespace Partners

variable {κ : Crypto} {ends : Ends} {config : RuntimeConfig} {chainId : UInt32} {reward : Address}
  {s : Partners}

/-! ## The invariant -/

/-- The messages under way lead from the worker's view to the node's tip. -/
structure Agree (κ : Crypto) (ends : Ends) (chainId : UInt32) (reward : Address) (s : Partners) :
    Prop where
  node : s.node.Serves κ chainId (some ends.workerId)
  cycle : Miner.Cycle s.worker.node
  chain : s.worker.node.config.chainId = chainId
  paid : s.worker.node.config.rewardAddress = some reward
  reaches : s.worker.node.reaches ends.nodeId = true
  up : ∀ message ∈ s.up, Miner.Upward reward message
  view : ∃ tip, s.worker.node.known = (tip.height, tip.id κ) ∧ tip.chainId = chainId ∧
    Tracks κ reward tip s.down (s.node.startTip κ)

theorem chainId_of_carries {tip next : Block} {message : Message}
    (h : Carries κ reward tip message next) (htip : tip.chainId = chainId) :
    next.chainId = chainId := by
  cases h with
  | ignored | side | refused | template => exact htip
  | block _ child => exact child.chain.trans htip
  | accepted child => exact child.chain.trans htip

theorem Agree.act (h : Agree κ ends chainId reward s) {e : MiningEvent}
    (hpeer : e.peer ≠ some ends.nodeId)
    (hview : e.peer.isSome = true → (s.worker.step κ e).node.known = s.worker.node.known) :
    Agree κ ends chainId reward (s.act κ ends e) := by
  have hmoved : (s.worker.react κ e).1.config = s.worker.node.config ∧
      (s.worker.react κ e).1.reaches ends.nodeId = true ∧
      Miner.Sends reward ends.nodeId (s.worker.react κ e).2 ∧
      (s.worker.react κ e).1.known = s.worker.node.known := by
    cases hlocal : e.peer with
    | none =>
        obtain ⟨hsettled, hsends⟩ := Miner.settled_react κ h.cycle h.paid hlocal ends.nodeId
        exact ⟨hsettled.config, Miner.reaches_of_network h.reaches
          (Miner.network_react κ h.cycle (Miner.stays_of_local hlocal)), hsends,
          hsettled.known⟩
    | some peerId =>
        have hforeign : e.peer.isSome = true := by rw [hlocal]; rfl
        obtain ⟨hconfig, hreaches, hsends⟩ :=
          Miner.foreign_react κ h.cycle reward hforeign hpeer h.reaches
        exact ⟨hconfig, hreaches, hsends, hview hforeign⟩
  obtain ⟨hconfig, hreaches, hsends, hknown⟩ := hmoved
  refine ⟨h.node, Miner.cycle_step s.worker e h.cycle, ?_, ?_, hreaches, ?_, ?_⟩
  · show (s.worker.react κ e).1.config.chainId = chainId
    rw [hconfig]
    exact h.chain
  · show (s.worker.react κ e).1.config.rewardAddress = some reward
    rw [hconfig]
    exact h.paid
  · intro message hmessage
    rcases List.mem_append.mp hmessage with hold | hnew
    · exact h.up message hold
    · exact hsends message hnew
  · obtain ⟨tip, htip, hchain, htracks⟩ := h.view
    exact ⟨tip, hknown.trans htip, hchain, htracks⟩

theorem Agree.moveNode (h : Agree κ ends chainId reward s) {r : NodeRuntime × List Output}
    (hnode : r.1.Serves κ chainId (some ends.workerId))
    (htracks : Tracks κ reward (s.node.startTip κ) (r.2.flatMap (Output.to ends.workerId))
      (r.1.startTip κ)) : Agree κ ends chainId reward (s.moveNode ends r) := by
  refine ⟨hnode, h.cycle, h.chain, h.paid, h.reaches, h.up, ?_⟩
  obtain ⟨tip, htip, hchain, hold⟩ := h.view
  exact ⟨tip, htip, hchain, hold.append htracks⟩

/-- The event that the worker makes of a message, and its view afterwards. -/
theorem heard_of_carries (h : Agree κ ends chainId reward s) {tip next : Block} {message : Message}
    (hknown : s.worker.node.known = (tip.height, tip.id κ)) (hchain : tip.chainId = chainId)
    (hcarries : Carries κ reward tip message next)
    (hresult : ∀ payload, message = (.blockResult, payload) →
      NodeRuntime.resultAccepted payload = true →
        s.worker.node.mining.foundBlockId = some (NodeRuntime.resultBlockId payload) ∧
        s.worker.node.mining.height = some (s.worker.node.mining.knownHeight + 1)) :
    (heard ends.nodeId message = none ∧ next = tip) ∨
      ∃ e, heard ends.nodeId message = some e ∧ e.isMessage = true ∧
        (s.worker.react κ e).2 = [] ∧
        (s.worker.react κ e).1.known = (next.height, next.id κ) := by
  have hstore := h.cycle.solitary.chain
  have hconfig : tip.chainId = s.worker.node.config.chainId := hchain.trans h.chain.symm
  cases hcarries with
  | ignored hignored =>
      refine Or.inl ⟨?_, rfl⟩
      obtain ⟨type, payload⟩ := message
      cases type <;> first | rfl | cases hignored
  | block well child =>
      refine Or.inr ⟨_, rfl, rfl,
        Miner.outputs_handleBlock_worker hstore well _ _, ?_⟩
      show ((NodeRuntime.handleBlock κ ends.nodeId next.serialize false).run (fun _ => {})
        s.worker.node).1.known = _
      rw [Miner.run_handleBlock_worker hstore well]
      exact Miner.known_observeBlock_child hknown hconfig child
  | side well low =>
      rename_i b
      refine Or.inr ⟨_, rfl, rfl,
        Miner.outputs_handleBlock_worker hstore well _ _, ?_⟩
      show ((NodeRuntime.handleBlock κ ends.nodeId b.serialize false).run (fun _ => {})
        s.worker.node).1.known = _
      rw [Miner.run_handleBlock_worker hstore well, Miner.known_observeBlock_low, hknown]
      rw [(Prod.mk.inj hknown).1]
      exact low
  | accepted child =>
      obtain ⟨hid, haccepted⟩ := Miner.result_encodeBlockResult (next.id κ) true 0
      obtain ⟨hfound, hheight⟩ := hresult _ rfl haccepted
      rw [hid] at hfound
      exact Or.inr ⟨_, rfl, rfl, rfl,
        Miner.known_acceptance hknown child hfound hheight⟩
  | refused blockId reason =>
      have hrefused := (Miner.result_encodeBlockResult blockId false reason).2
      exact Or.inr ⟨_, rfl, rfl, rfl,
        (Miner.known_refusal hrefused).trans hknown⟩
  | template verified created requestId =>
      rename_i candidate _
      refine Or.inr ⟨_, rfl, rfl, rfl, ?_⟩
      have hsame := Miner.sameView_handleBlockTemplate κ s.worker.node ends.nodeId
        (encodeU64Le requestId ++ candidate.serialize)
      exact (Prod.ext hsame.height hsame.tip).trans hknown

theorem Agree.deliver (h : Agree κ ends chainId reward s) (hkept : s.Kept κ ends .deliver) :
    Agree κ ends chainId reward (s.step κ ends .deliver) := by
  rw [step]
  obtain ⟨tip, hknown, hchain, htracks⟩ := h.view
  cases hdown : s.down with
  | nil => exact h
  | cons message down =>
      rw [hdown] at htracks
      cases htracks with
      | cons hcarries hrest =>
          rename_i next
          have hnext := chainId_of_carries hcarries hchain
          rcases heard_of_carries h hknown hchain hcarries fun payload heq => hkept payload (by
            rw [hdown, heq]; rfl) with ⟨hnone, rfl⟩ | ⟨e, hsome, hmessage, hout, hview⟩
          · dsimp only
            rw [hnone]
            exact ⟨h.node, h.cycle, h.chain, h.paid, h.reaches, h.up, _, hknown, hchain, hrest⟩
          · dsimp only
            rw [hsome]
            have hconfig := Miner.config_message κ h.cycle hmessage
            have hnetwork := Miner.network_react κ h.cycle (Miner.stays_of_isMessage hmessage)
            refine ⟨h.node, Miner.cycle_step s.worker e h.cycle, ?_, ?_,
              Miner.reaches_of_network h.reaches hnetwork, ?_, next, hview, hnext, hrest⟩
            · show (s.worker.react κ e).1.config.chainId = chainId
              rw [hconfig]
              exact h.chain
            · show (s.worker.react κ e).1.config.rewardAddress = some reward
              rw [hconfig]
              exact h.paid
            · show ∀ message ∈ s.up ++ (s.worker.react κ e).2.flatMap (Output.to ends.nodeId), _
              rw [hout]
              simpa using h.up

/-- Every event that the conditions admit keeps the invariant. -/
theorem agree_step (hsupported : SupportedChain chainId) (hnumbered : ends.workerId ≠ 0)
    (e : PartnerEvent) (hkept : s.Kept κ ends e) (h : Agree κ ends chainId reward s) :
    Agree κ ends chainId reward (s.step κ ends e) := by
  cases e with
  | handle call io =>
      obtain ⟨hsender, hsubmit, hpeers, hfollows, hsame⟩ := hkept
      exact h.moveNode (h.node.call hsupported call hsubmit
          (fun peers workerId hcall hheld => by cases hheld; exact hpeers peers hcall) io)
        (NodeRuntime.tracks_call h.node hnumbered hsender io hfollows hsame)
  | receive io =>
      rw [step]
      cases hup : s.up with
      | nil => exact h
      | cons message up =>
          have hrest : Agree κ ends chainId reward { s with up := up } :=
            ⟨h.node, h.cycle, h.chain, h.paid, h.reaches,
              fun other hother => h.up other (by rw [hup]; exact List.mem_cons_of_mem _ hother),
              h.view⟩
          have hfollows : Follows κ s.node (s.serve κ ends io message).1 :=
            hkept message (by rw [hup]; rfl)
          rcases h.up message (by rw [hup]; exact List.mem_cons_self) with ⟨requestId, rfl⟩ |
            ⟨payload, rfl⟩
          · exact hrest.moveNode h.node (NodeRuntime.tracks_templateRequest h.node requestId)
          · exact hrest.moveNode
              (h.node.call hsupported (.blockSubmit ends.workerId payload) nofun nofun io)
              (NodeRuntime.tracks_handleBlock h.node.genuine h.node.network
                (h.node.reaches _ rfl)
                (fun _ => rfl) io hfollows)
  | deliver => exact h.deliver hkept
  | act e => exact h.act hkept.1 hkept.2

/-- The worker joins while the tip is its view. -/
theorem agree_join {node : NodeRuntime} {worker : Miner} (hnode : node.Serves κ chainId none)
    (hworker : Miner.Cycle worker.node) (hchain : worker.node.config.chainId = chainId)
    (hreward : worker.node.config.rewardAddress = some reward)
    (hview : worker.node.known = ((node.startTip κ).height, (node.startTip κ).id κ))
    (workerPeer nodePeer : PeerStatus) (numbered : nodePeer.id ≠ 0) :
    Agree κ ⟨workerPeer.id, nodePeer.id⟩ chainId reward
      (join κ node worker workerPeer nodePeer numbered) where
  node :=
    { genuine := hnode.genuine.congr rfl rfl
      network := by
        rw [join, NodeRuntime.greeted, NodeRuntime.setPeers]
        exact Option.isSome_map.trans hnode.network
      reaches := by
        rintro workerId hheld
        cases hheld
        exact NodeRuntime.reaches_greeted_self hnode.network workerPeer }
  cycle := Miner.cycle_step worker _ hworker
  chain := hchain
  paid := hreward
  reaches := NodeRuntime.reaches_greeted_self hworker.solitary.network nodePeer
  up := nofun
  view := ⟨node.startTip κ, hview, NodeRuntime.chainId_startTip hnode.genuine, .nil _⟩

/-- A template that answers the pending request is next. -/
theorem Agree.takes (h : Agree κ ends chainId reward s) {payload : Bytes} {down : List Message}
    (hdown : s.down = (.blockTemplate, payload) :: down)
    (hanswers : s.worker.node.answersRequest ends.nodeId payload) :
    ∃ candidate, deserializeBlock κ (payload.drop 8) = .ok candidate ∧
      s.worker.node.expectsTemplate κ ends.nodeId candidate ∧
      (s.step κ ends .deliver).worker.node = s.worker.node.takeTemplate ends.nodeId candidate := by
  obtain ⟨tip, hknown, hchain, htracks⟩ := h.view
  rw [hdown] at htracks
  cases htracks with
  | cons hcarries hrest =>
      cases hcarries with
      | ignored hignored => cases hignored
      | template verified created requestId =>
          rename_i candidate _
          obtain ⟨hdecoded, hexpects, htaken⟩ := Miner.takes_template h.cycle hknown
            (hchain.trans h.chain.symm) h.paid h.reaches verified created hanswers
          refine ⟨candidate, hdecoded, hexpects, ?_⟩
          rw [step, hdown]
          exact htaken

/-- A full node and a mining-only process, each after any history of its own, open a session
while the node's tip is the worker's view.  In every run that keeps the conditions, a template
that answers the worker's pending request passes every check, and the worker mines it or
keeps it prepared. -/
theorem templates_agree (κ : Crypto) (nodeConfig workerConfig : RuntimeConfig)
    (hfull : nodeConfig.hasRole .fullNode = true) (hminer : workerConfig.hasRole .miner = true)
    (honly : workerConfig.hasRole .fullNode = false)
    (hchain : workerConfig.chainId = nodeConfig.chainId)
    (nodeDirectory workerDirectory : NodeRuntime.DataDirectory)
    (nodeIo workerIo : NodeRuntime.StartIo) (nodeStart workerStart : NodeRuntime)
    (hnode : NodeRuntime.initializeNode κ nodeConfig nodeDirectory nodeIo = some nodeStart)
    (hworker : NodeRuntime.initializeNode κ workerConfig workerDirectory workerIo
      = some workerStart)
    (calls : List (NodeRuntime.Call × (Nat → StorageIo)))
    (hsigned : Along (NodeRuntime.callStep κ) (fun _ c => ∀ t, c.1 = .submit t → t.Verified κ)
      (nodeStart.startNetwork κ) calls)
    (past : List MiningEvent) (workerPeer nodePeer : PeerStatus) (hworkerPeer : workerPeer.id ≠ 0)
    (numbered : nodePeer.id ≠ 0) (events : List PartnerEvent) :
    let node := Runs.run (NodeRuntime.callStep κ) (nodeStart.startNetwork κ) calls
    let worker := Runs.run (Miner.step κ) (Miner.launch (workerStart.startNetwork κ)) past
    let ends : Ends := ⟨workerPeer.id, nodePeer.id⟩
    let joined := join κ node worker workerPeer nodePeer numbered
    worker.node.known = ((node.startTip κ).height, (node.startTip κ).id κ) →
    Along (step κ ends) (Kept κ ends) joined events →
      let s := Runs.run (step κ ends) joined events
      ∀ payload down, s.down = (.blockTemplate, payload) :: down →
        s.worker.node.answersRequest nodePeer.id payload →
          ∃ candidate, deserializeBlock κ (payload.drop 8) = .ok candidate ∧
            s.worker.node.expectsTemplate κ nodePeer.id candidate ∧
            (s.step κ ends .deliver).worker.node
              = s.worker.node.takeTemplate nodePeer.id candidate ∧
            ((s.step κ ends .deliver).worker.node.mining.active = true ∨
              (s.step κ ends .deliver).worker.node.mining.preparedCandidate = some candidate) := by
  intro node worker ends joined hview hkept s payload down hdown hanswers
  obtain ⟨hcycle, hconfig⟩ := Miner.cycle_history hminer honly hworker past
  obtain ⟨reward, hreward⟩ := Option.isSome_iff_exists.mp hcycle.solitary.reward
  have hinit : Agree κ ends nodeConfig.chainId reward joined :=
    agree_join (NodeRuntime.serves_history hfull hnode hsigned) hcycle
      ((congrArg RuntimeConfig.chainId hconfig).trans hchain) hreward hview workerPeer nodePeer
      numbered
  have hagree : Agree κ ends nodeConfig.chainId reward s :=
    hkept.invariant (fun _ e hk h => agree_step (NodeRuntime.supportedChain_chainId nodeConfig)
      hworkerPeer e hk h) hinit
  obtain ⟨candidate, hdecoded, hexpects, htaken⟩ := hagree.takes hdown hanswers
  refine ⟨candidate, hdecoded, hexpects, htaken, ?_⟩
  rw [htaken, NodeRuntime.takeTemplate]
  split
  · exact Or.inr rfl
  · exact Or.inl rfl

/-! A full node of the regression-test network, and a worker that has just been started. -/

/-- The full node in an empty directory. -/
def freshNode : NodeRuntime where
  config := NodeRuntime.regtestFullNode
  chainStore := some ChainStore.genesisStore
  mempoolStore := some ⟨⟨{}, []⟩, []⟩

/-- The worker, as the full node sees it. -/
def workerSession : PeerStatus where
  id := 7
  handshakeComplete := true
  services := miningService
  remoteHeight := 0
  remoteTip := .zero

/-- The session. -/
def sessionEnds : Ends := ⟨workerSession.id, (Miner.fullNodePeer 1).id⟩

/-- The worker joins after the node's history. -/
def joined (calls : List (NodeRuntime.Call × (Nat → StorageIo))) : Partners :=
  join reference
    (Runs.run (NodeRuntime.callStep reference) (freshNode.startNetwork reference) calls)
    (Runs.run (Miner.step reference)
      (Miner.launch (NodeRuntime.startNetwork reference { config := Miner.regtestMiner })) [])
    workerSession (Miner.fullNodePeer 1) Miner.numbered_fullNodePeer

/-- It asks for a template, and the node answers. -/
def answeredEvents : List PartnerEvent := [.act (.start false), .receive fun _ => {}]

def answered (calls : List (NodeRuntime.Call × (Nat → StorageIo))) : Partners :=
  Runs.run (step reference sessionEnds) (joined calls) answeredEvents

/-- The node has taken a block from another peer before the worker joins: the template, which
answers the pending request, is refused, and the request stays pending. -/
theorem template_refused :
    NodeRuntime.initializeNode reference NodeRuntime.regtestFullNode {} {} = some freshNode ∧
    NodeRuntime.initializeNode reference Miner.regtestMiner {} {}
      = some { config := Miner.regtestMiner } ∧
    let s := answered [(.block 3 minedFirst.serialize, fun _ => {})]
    let taken := (s.step reference sessionEnds .deliver).worker.node
    (∃ payload, s.down = [(.blockTemplate, payload)] ∧
        s.worker.node.answersRequest sessionEnds.nodeId payload) ∧
      (s.node.startTip reference).height = 1 ∧ taken.mining.active = false ∧
      taken.mining.preparedCandidate.isNone = true ∧
      taken.mining.pendingTemplateRequest = some 1 := by
  refine ⟨NodeRuntime.initializeNode_regtestFullNode, Miner.initializeNode_regtestMiner, ?_⟩
  intro s taken
  have hfacts : s.down.map Prod.fst = [.blockTemplate] ∧
      (∀ m ∈ s.down, s.worker.node.answersRequest sessionEnds.nodeId m.2) ∧
      (s.node.startTip reference).height = 1 ∧ taken.mining.active = false ∧
      taken.mining.preparedCandidate.isNone = true ∧
      taken.mining.pendingTemplateRequest = some 1 := by
    decide +kernel
  obtain ⟨hdown, hanswers, hrest⟩ := hfacts
  obtain ⟨⟨type, payload⟩, hmessage, htype⟩ := List.map_eq_singleton_iff.mp hdown
  cases htype
  refine ⟨⟨payload, hmessage, hanswers (.blockTemplate, payload) ?_⟩, hrest⟩
  rw [hmessage]
  exact List.mem_singleton.mpr rfl

theorem kept_receive (io : Nat → StorageIo)
    (h : ∀ message ∈ s.up, message.1 = .templateRequest) : s.Kept κ ends (.receive io) := by
  rintro ⟨type, payload⟩ hmessage
  have htype : type = .templateRequest := h _ (List.mem_of_mem_head? hmessage)
  rw [htype]
  exact Or.inl rfl

theorem kept_handle_block {peerId : UInt64} {payload : Bytes} {io : Nat → StorageIo}
    (hpeer : peerId ≠ ends.workerId)
    (hchild : ((s.step κ ends (.handle (.block peerId payload) io)).node.startTip
      κ).previousBlockHash = (s.node.startTip κ).id κ) :
    s.Kept κ ends (.handle (.block peerId payload) io) :=
  ⟨fun h => hpeer (Option.some.inj h), nofun, nofun, Or.inr hchild, nofun⟩

theorem kept_deliver (h : s.down.head?.map Prod.fst ≠ some .blockResult) :
    s.Kept κ ends .deliver :=
  fun _ hhead => absurd (congrArg (Option.map Prod.fst) hhead) h

/-- The block comes while the session is open, and is relayed to the worker, which then asks. -/
def followedEvents : List PartnerEvent :=
  [.handle (.block 3 minedFirst.serialize) fun _ => {}, .deliver] ++ answeredEvents

def followed : Partners := Runs.run (step reference sessionEnds) (joined []) followedEvents

/-- This run, evaluated. -/
theorem followed_relay :
    let told := (joined []).step reference sessionEnds
      (.handle (.block 3 minedFirst.serialize) fun _ => {})
    let asked := (told.step reference sessionEnds .deliver).step reference sessionEnds
      (.act (.start false))
    ((told.node.startTip reference).previousBlockHash
        = ((joined []).node.startTip reference).id reference ∧
      told.down.head?.map Prod.fst ≠ some .blockResult ∧
      (∀ m ∈ asked.up, m.1 = .templateRequest)) ∧
    (NodeRuntime.startNetwork reference { config := Miner.regtestMiner }).known
        = (((freshNode.startNetwork reference).startTip reference).height,
          ((freshNode.startNetwork reference).startTip reference).id reference) ∧
    (followed.node.startTip reference).height = 1 ∧
      followed.down.map Prod.fst = [.blockTemplate] ∧
      ∀ m ∈ followed.down, followed.worker.node.answersRequest sessionEnds.nodeId m.2 := by
  decide +kernel

theorem kept_followed :
    Along (step reference sessionEnds) (Kept reference sessionEnds) (joined []) followedEvents := by
  obtain ⟨⟨hchild, htold, hasked⟩, -⟩ := followed_relay
  refine ⟨kept_handle_block (by decide) hchild, kept_deliver htold, ?_, ?_⟩
  · exact ⟨nofun, nofun⟩
  · exact ⟨kept_receive _ hasked, trivial⟩

/-- The worker has followed the tip to height one, and the template on it is taken. -/
theorem templates_agree_followed :
    (followed.node.startTip reference).height = 1 ∧
    ∃ payload candidate, followed.down = [(.blockTemplate, payload)] ∧
      followed.worker.node.answersRequest sessionEnds.nodeId payload ∧
      deserializeBlock reference (payload.drop 8) = .ok candidate ∧
      followed.worker.node.expectsTemplate reference sessionEnds.nodeId candidate ∧
      (followed.step reference sessionEnds .deliver).worker.node
        = followed.worker.node.takeTemplate sessionEnds.nodeId candidate := by
  obtain ⟨-, hview, hheight, hdown, hanswers⟩ := followed_relay
  obtain ⟨⟨type, payload⟩, hmessage, htype⟩ := List.map_eq_singleton_iff.mp hdown
  cases htype
  have hpending : followed.worker.node.answersRequest sessionEnds.nodeId payload := by
    refine hanswers (.blockTemplate, payload) ?_
    rw [hmessage]
    exact List.mem_singleton.mpr rfl
  have hagree := templates_agree reference NodeRuntime.regtestFullNode Miner.regtestMiner
    (by decide) (by decide) (by decide) (by decide) {} {} {} {} freshNode _
    NodeRuntime.initializeNode_regtestFullNode Miner.initializeNode_regtestMiner [] trivial []
    workerSession (Miner.fullNodePeer 1) (by decide) Miner.numbered_fullNodePeer
    followedEvents hview kept_followed payload []
  refine ⟨hheight, payload, ?_⟩
  simp only [followed, joined, sessionEnds] at hmessage hpending hagree ⊢
  obtain ⟨candidate, hdecoded, hexpects, htaken, -⟩ := hagree hmessage hpending
  exact ⟨candidate, hmessage, hpending, hdecoded, hexpects, htaken⟩

end Partners

end BBC
