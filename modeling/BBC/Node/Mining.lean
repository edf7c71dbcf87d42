/-
# `BBC.Node.Mining` — the mining cycle

The mining half of `src/node/control_server.cpp`.  A cycle goes through these states,
and every one of them is kept in fields of its own:

    requested   `pending_template_request_`        waits for `BLOCK_TEMPLATE`
    prepared    `prepared_mining_candidate_`       waits for `begin_mining`
    active      `mining_active_`, the thread       searches a nonce
    submitted   `mining_state_`                    waits for `BLOCK_RESULT`

A node with a chain store makes its own template and appends its own block; the
others ask a full node for both.  The functions here are the handlers, each run to
its end; the mining thread moves by `wakeWorker`, `runBatch` and `quitWorker`.
-/
import BBC.Consensus.Mining
import BBC.Mempool.Selection
import BBC.Node.Relay
import BBC.Node.Template

namespace BBC

/-- The reasons of `start_mining` for not starting. -/
inductive StartMiningError where
  | notMiner
  | notContinuous
  | alreadyContinuous
  | alreadyActive
  | workPending
  | noLocalTemplate
  | noFullNode
  | notSent
  deriving DecidableEq, Repr

/-- The nonces that the mining thread tries between two looks at the flag. -/
def miningBatch : UInt64 := 10000

namespace NodeRuntime

variable (κ : Crypto)

/-- `mining_cycle_pending`. -/
def miningCyclePending (n : NodeRuntime) : Bool :=
  n.mining.active || n.mining.pendingTemplateRequest.isSome || n.mining.preparedCandidate.isSome
    || n.mining.state = .submitted

/-! ## Starting work -/

/-- `launch_mining`; `future` says that the start time has not come.  The thread that
is joined first has ended: no worker is launched while one is active. -/
def launchMining (n : NodeRuntime) (peerId : UInt64) (candidate : Block) (future : Bool) :
    NodeRuntime :=
  { n with
    mining :=
      { n.mining with
        cancelled := false
        active := true
        foundBlockId := none
        state := if future then .scheduled else .running
        worker := some { peerId, candidate, scheduled := future } } }

/-- The candidate's place is noted. -/
def noteCandidate (n : NodeRuntime) (candidate : Block) : NodeRuntime :=
  { n with
    mining :=
      { n.mining with
        parent := some candidate.previousBlockHash
        height := some candidate.height } }

/-- The candidate is kept for `begin_mining`. -/
def prepare (n : NodeRuntime) (peerId : UInt64) (candidate : Block) : NodeRuntime :=
  { n with
    mining :=
      { n.mining with
        preparedCandidate := some candidate
        preparedPeer := some peerId
        state := .ready } }

/-- The transactions of a template. -/
def selectedTransactions (n : NodeRuntime) : List SignedTransaction :=
  match n.mempoolStore with
  | some store => store.mempool.select κ maximumTransactionsPerBlock
  | none => []

/-- `start_mining` of a node with a chain store. -/
def startLocally (n : NodeRuntime) (store : ChainStore) (reward : Address) (deferWork : Bool) :
    NodeRuntime × List Output × Option StartMiningError :=
  match createTemplate κ store.blockchain.tip reward (n.selectedTransactions κ) with
  | .error _ => (n, [], some .noLocalTemplate)
  | .ok candidate =>
      let noted := n.noteCandidate candidate
      (if deferWork then noted.prepare 0 candidate else noted.launchMining 0 candidate false,
        [], none)

/-- The request is noted as pending. -/
def noteTemplateRequest (n : NodeRuntime) (peerId : UInt64) (deferWork : Bool) : NodeRuntime :=
  { n with
    mining :=
      { n.mining with
        nextTemplateRequest := n.mining.nextTemplateRequest + 1
        sourcePeer := some peerId
        pendingTemplateRequest := some n.mining.nextTemplateRequest
        deferStart := deferWork
        state := .preparing } }

/-- The request could not be sent. -/
def dropTemplateRequest (n : NodeRuntime) : NodeRuntime :=
  { n with
    mining :=
      { n.mining with
        sourcePeer := none
        pendingTemplateRequest := none
        deferStart := false
        state := .idle } }

/-- The payload of `TEMPLATE_REQUEST`. -/
def encodeTemplateRequest (requestId : UInt64) (reward : Address) : Bytes :=
  encodeU64Le requestId ++ reward.hash.toList

/-- `start_mining` of a node without a chain store. -/
def requestTemplate (n : NodeRuntime) (reward : Address) (deferWork : Bool) :
    NodeRuntime × List Output × Option StartMiningError :=
  match n.peers.find? fun peer => peer.handshakeComplete && peer.isFullNode with
  | none => (n, [], some .noFullNode)
  | some source =>
      let noted := n.noteTemplateRequest source.id deferWork
      if noted.reaches source.id then
        (noted, noted.send source.id .templateRequest
          (encodeTemplateRequest n.mining.nextTemplateRequest reward), none)
      else (noted.dropTemplateRequest, [], some .notSent)

/-- `start_mining`. -/
def startMining (n : NodeRuntime) (deferWork continuousCycle : Bool) :
    NodeRuntime × List Output × Option StartMiningError :=
  match n.config.rewardAddress with
  | none => (n, [], some .notMiner)
  | some reward =>
      if ¬ n.config.hasRole .miner ∨ n.network.isNone then (n, [], some .notMiner)
      else if continuousCycle ∧ ¬ n.mining.continuous then (n, [], some .notContinuous)
      else if ¬ continuousCycle ∧ n.mining.continuous then (n, [], some .alreadyContinuous)
      else if n.mining.active then (n, [], some .alreadyActive)
      else if n.mining.pendingTemplateRequest.isSome ∨ n.mining.preparedCandidate.isSome
          ∨ n.mining.state = .submitted then (n, [], some .workPending)
      else
        match n.chainStore with
        | some store => n.startLocally κ store reward deferWork
        | none => n.requestTemplate reward deferWork

/-- `start_continuous_mining` of a node outside of scenarios. -/
def startContinuousMining (n : NodeRuntime) : NodeRuntime :=
  if ¬ n.config.hasRole .miner ∨ n.config.rewardAddress.isNone ∨ n.network.isNone then n
  else { n with mining := { n.mining with continuous := true } }

/-- The prepared candidate is taken. -/
def takePrepared (n : NodeRuntime) : NodeRuntime :=
  { n with mining := { n.mining with preparedCandidate := none, preparedPeer := none } }

/-- `begin_mining`. -/
def beginMining (n : NodeRuntime) (future : Bool) : NodeRuntime :=
  match n.mining.preparedCandidate, n.mining.preparedPeer with
  | some candidate, some peerId => n.takePrepared.launchMining peerId candidate future
  | _, _ => n

/-! ## Templates -/

/-- `handle_template_request`. -/
def handleTemplateRequest (n : NodeRuntime) (peerId : UInt64) (payload : Bytes) : List Output :=
  match n.chainStore with
  | none => []
  | some store =>
      if payload.length ≠ 40 then []
      else
        match createTemplate κ store.blockchain.tip ⟨ByteCodec.readArray 32 payload 8⟩
          (n.selectedTransactions κ) with
        | .error _ => []
        | .ok candidate =>
            n.send peerId .blockTemplate (encodeU64Le (readU64Le payload 0) ++ candidate.serialize)

/-- The message is from the source and names the pending request. -/
def answersRequest (n : NodeRuntime) (peerId : UInt64) (payload : Bytes) : Prop :=
  n.config.hasRole .miner = true ∧ 8 < payload.length ∧ n.mining.sourcePeer = some peerId
    ∧ n.mining.pendingTemplateRequest = some (readU64Le payload 0)

instance (n : NodeRuntime) (peerId : UInt64) (payload : Bytes) :
    Decidable (n.answersRequest peerId payload) :=
  inferInstanceAs (Decidable (_ ∧ _))

/-- The tip that a template has to extend. -/
def expectedTip (n : NodeRuntime) : UInt64 × Hash256 :=
  match n.chainStore with
  | some store => (store.blockchain.tip.height, store.blockchain.tip.id κ)
  | none => (n.mining.knownHeight, n.mining.knownTip)

/-- The checks of `handle_block_template` on the decoded block. -/
def expectsTemplate (n : NodeRuntime) (peerId : UInt64) (candidate : Block) : Prop :=
  n.reaches peerId = true ∧ candidate.chainId = n.config.chainId
    ∧ candidate.height = (n.expectedTip κ).1 + 1
    ∧ candidate.previousBlockHash = (n.expectedTip κ).2
    ∧ candidate.difficultyTarget = (networkParameters n.config.networkProfile).difficultyTarget
    ∧ candidate.rewardRecipient.isSome = true
    ∧ candidate.rewardRecipient = n.config.rewardAddress

instance (n : NodeRuntime) (peerId : UInt64) (candidate : Block) :
    Decidable (n.expectsTemplate κ peerId candidate) :=
  inferInstanceAs (Decidable (_ ∧ _))

/-- The request is answered. -/
def clearTemplateRequest (n : NodeRuntime) : NodeRuntime :=
  { n with mining := { n.mining with pendingTemplateRequest := none, deferStart := false } }

/-- The candidate is prepared or worked on. -/
def takeTemplate (n : NodeRuntime) (peerId : UInt64) (candidate : Block) : NodeRuntime :=
  let noted := n.clearTemplateRequest.noteCandidate candidate
  if n.mining.deferStart then noted.prepare peerId candidate
  else noted.launchMining peerId candidate false

/-- `handle_block_template`. -/
def handleBlockTemplate (n : NodeRuntime) (peerId : UInt64) (payload : Bytes) : NodeRuntime :=
  if ¬ n.answersRequest peerId payload then n
  else
    match deserializeBlock κ (payload.drop 8) with
    | .error _ => n
    | .ok candidate =>
        if ¬ n.expectsTemplate κ peerId candidate then n else n.takeTemplate peerId candidate

/-! ## Results -/

/-- The fields of `BLOCK_RESULT`. -/
def resultBlockId (payload : Bytes) : Hash256 := ByteCodec.readArray 32 payload 0
def resultAccepted (payload : Bytes) : Bool := payload.getD 32 0 = 1
def resultReason (payload : Bytes) : UInt16 := readU16Le payload 33

/-- A result whose reason fits its flag. -/
def WellFormedResult (payload : Bytes) : Prop :=
  payload.length = 35 ∧ payload.getD 32 0 ≤ 1
    ∧ (resultAccepted payload = true ↔ resultReason payload = 0)

instance (payload : Bytes) : Decidable (WellFormedResult payload) :=
  inferInstanceAs (Decidable (_ ∧ _))

/-- The view follows an accepted block. -/
def noteKnown (n : NodeRuntime) (height : UInt64) (tip : Hash256) : NodeRuntime :=
  { n with mining := { n.mining with knownHeight := height, knownTip := tip } }

/-- The state of the cycle. -/
def setMiningState (n : NodeRuntime) (state : MiningState) : NodeRuntime :=
  { n with mining := { n.mining with state := state } }

/-- `handle_block_result`. -/
def handleBlockResult (n : NodeRuntime) (payload : Bytes) : NodeRuntime :=
  if ¬ WellFormedResult payload ∨ n.mining.foundBlockId ≠ some (resultBlockId payload) then n
  else if resultAccepted payload then
    match n.mining.height with
    | some height => (n.noteKnown height (resultBlockId payload)).setMiningState .accepted
    | none => n.setMiningState .accepted
  else n.setMiningState (if resultReason payload = 1 then .cancelled else .rejected)

/-! ## The mining thread -/

/-- The thread ends in a state. -/
def endWorker (n : NodeRuntime) (state : MiningState) : NodeRuntime :=
  { n with mining := { n.mining with active := false, worker := none, state := state } }

/-- The thread has found a block for a full node. -/
def noteFound (n : NodeRuntime) (mined : Block) : NodeRuntime :=
  { n with mining := { n.mining with foundBlockId := some (mined.id κ) } }

/-- The thread goes on with a candidate. -/
def setWorker (n : NodeRuntime) (worker : MiningWorker) : NodeRuntime :=
  { n with mining := { n.mining with worker := some worker } }

/-- The sleep of the thread ends. -/
def wakeWorker (n : NodeRuntime) : NodeRuntime :=
  match n.mining.worker with
  | none => n
  | some worker =>
      if ¬ worker.scheduled then n
      else if n.mining.cancelled then n.endWorker .cancelled
      else (n.setWorker { worker with scheduled := false }).setMiningState .running

/-- One batch of the thread.  A batch that has begun runs to its end, so the flag is
not looked at here. -/
def runBatch (n : NodeRuntime) (io : Nat → StorageIo) : NodeRuntime × List Output :=
  match n.mining.worker with
  | none => (n, [])
  | some worker =>
      if worker.scheduled then (n, [])
      else
        let result := mineBlock κ worker.candidate miningBatch
        match result.value, result.nextNonce with
        | .ok mined, _ =>
            if worker.peerId = 0 then (foundLocally κ mined).run io n
            else
              let found := (n.noteFound κ mined).endWorker .submitted
              (found, found.send worker.peerId .blockSubmit mined.serialize)
        | .error _, none => (n.endWorker .failed, [])
        | .error _, some nonce =>
            (n.setWorker { worker with candidate := worker.candidate.withMiningNonce nonce }, [])

/-- The thread sees the flag between two batches. -/
def quitWorker (n : NodeRuntime) : NodeRuntime :=
  match n.mining.worker with
  | none => n
  | some worker =>
      if worker.scheduled ∨ ¬ n.mining.cancelled then n else n.endWorker .cancelled

/-! ## Stopping -/

/-- The fields that `stop_mining` resets before it joins the thread. -/
def resetMining (n : NodeRuntime) : NodeRuntime :=
  { n with
    mining :=
      { n.mining with
        continuous := false
        cancelled := true
        pendingTemplateRequest := none
        sourcePeer := none
        parent := none
        height := none
        foundBlockId := none
        preparedCandidate := none
        preparedPeer := none
        deferStart := false } }

/-- `stop_mining`.  The thread that is joined ends at the flag, or `finishes` its batch
first. -/
def stopMining (n : NodeRuntime) (finishes : Bool) (io : Nat → StorageIo) :
    NodeRuntime × List Output :=
  if ¬ n.config.hasRole .miner then (n, [])
  else
    let joined := if finishes then n.resetMining.runBatch κ io else (n.resetMining, [])
    (joined.1.endWorker .stopped, joined.2)

/-! ## The coordinator -/

/-- A turn of the coordinator's loop.  `lastWaitReason` is its local variable. -/
def coordinate (n : NodeRuntime) (lastWaitReason : Option StartMiningError) :
    NodeRuntime × List Output × Option StartMiningError :=
  if ¬ n.mining.continuous ∨ n.miningCyclePending then (n, [], lastWaitReason)
  else
    let started := n.startMining κ false true
    match started.2.2 with
    | none => (started.1, started.2.1, none)
    | some error =>
        if some error ≠ lastWaitReason then
          (started.1.setMiningState .waiting, started.2.1, some error)
        else (started.1, started.2.1, lastWaitReason)

end NodeRuntime

end BBC
