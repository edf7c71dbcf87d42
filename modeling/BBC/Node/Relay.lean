/-
# `BBC.Node.Relay` — the handlers that take blocks and transactions

`handle_block`, `handle_transaction`, `submit_signed_transaction` and
`update_mempool_after_chain_change` of `src/node/control_server.cpp`, and what the
mining thread does with a block it has found for its own node.

Every change of the chain goes through `appendSection`: the block is appended and, if
the active chain has changed, the pool is reconciled with it before the lock is
released.
-/
import BBC.Node.Runtime

namespace BBC

open Sections (Program)

/-- What the section around `ChainStore::append` leaves to the rest of its handler. -/
structure AppendOutcome where
  appended : ChainStoreAppendResult := {}
  activeTipHeight : UInt64 := 0
  activeTipId : Hash256 := .zero

namespace NodeRuntime

variable (κ : Crypto)

/-! ## Blocks -/

/-- `update_mempool_after_chain_change`. -/
def updateMempoolAfterChainChange (n : NodeRuntime) (appended : AppendResult) (mempoolOk : Bool) :
    NodeRuntime × List Output :=
  match n.chainStore, n.mempoolStore with
  | some chainStore, some mempoolStore =>
      let reconciled := mempoolStore.reconcileReorganization κ chainStore.blockchain.state
        appended.detachedBlocks mempoolOk
      ({ n with mempoolStore := some reconciled.1 },
        reconciled.2.transactionsToRelay.flatMap fun transaction =>
          n.broadcast .transaction transaction.serialize none)
  | _, _ => (n, [])

/-- The `state_mutex_` section of `handle_block`. -/
def appendSection (n : NodeRuntime) (block : Block) (io : StorageIo) :
    NodeRuntime × List Output × AppendOutcome :=
  match n.chainStore with
  | none => (n, [], {})
  | some store =>
      let appended := store.append κ block io.append
      let next := { n with chainStore := some appended.1 }
      if appended.2.hasValue ∧ appended.2.chainResult.activeChainChanged then
        let updated := next.updateMempoolAfterChainChange κ appended.2.chainResult io.mempoolOk
        (updated.1, updated.2,
          { appended := appended.2
            activeTipHeight := appended.1.blockchain.tip.height
            activeTipId := appended.1.blockchain.tip.id κ })
      else (next, [], { appended := appended.2 })

/-- `send_block_result`. -/
def sendBlockResult (n : NodeRuntime) (peerId : UInt64) (blockId : Hash256) (accepted : Bool)
    (reason : UInt16) : List Output :=
  n.send peerId .blockResult
    (blockId.toList ++ ((if accepted then 1 else 0) :: encodeU16Le reason))

/-- The reason code of a rejected submission. -/
def rejectionReason (appended : ChainStoreAppendResult) : UInt16 :=
  if appended.storageError = .none ∧ (appended.chainResult.error = .unexpectedParent
      ∨ appended.chainResult.error = .unexpectedHeight) then 1
  else 3

/-- The branch of `handle_block` for a process without a chain store: the mining
worker's view of the tip.  Only the network thread writes it, so its two locked
scopes are one section. -/
def observeBlock (n : NodeRuntime) (block : Block) : NodeRuntime :=
  let m := n.mining
  let extendsKnownTip := m.knownHeight < block.height ∧ block.height - 1 = m.knownHeight
    ∧ block.previousBlockHash = m.knownTip
  let extendsCandidate := m.parent = some block.previousBlockHash ∧ m.height = some block.height
    ∧ m.knownHeight < block.height
  if (¬ extendsKnownTip ∧ ¬ extendsCandidate) ∨ block.chainId ≠ n.config.chainId
      ∨ validateProofOfWork κ block ≠ .none then n
  else
    { n with
      mining :=
        { m with
          cancelled := m.cancelled || m.active
          knownHeight := block.height
          knownTip := block.id κ
          state := if m.foundBlockId = some (block.id κ) then .accepted else m.state } }

/-- The miner's part of a changed tip. -/
def noteTip (n : NodeRuntime) (height : UInt64) (tip : Hash256) : NodeRuntime :=
  if n.config.hasRole .miner then
    { n with
      mining :=
        { n.mining with
          cancelled := n.mining.cancelled || n.mining.active
          knownHeight := height
          knownTip := tip } }
  else n

/-- `handle_block` after its section. -/
def finishBlock (peerId : UInt64) (block : Block) (submission : Bool) (outcome : AppendOutcome) :
    Task :=
  if ¬ outcome.appended.hasValue then
    .last fun n _ =>
      (n, if submission then
          n.sendBlockResult peerId (block.id κ) false (rejectionReason outcome.appended)
        else [])
  else if ¬ outcome.appended.chainResult.activeChainChanged then
    .last fun n _ =>
      (n, (if submission then n.sendBlockResult peerId (block.id κ) false 1 else [])
        ++ n.broadcast .block block.serialize (some peerId))
  else
    .step (fun n _ => (n.noteTip outcome.activeTipHeight outcome.activeTipId, [], ())) fun _ =>
    .step (fun n _ => (n.updateTip outcome.activeTipHeight outcome.activeTipId, [], ())) fun _ =>
    .last fun n _ =>
      (n, (if submission then n.sendBlockResult peerId (block.id κ) true 0 else [])
        ++ n.broadcast .block block.serialize (some peerId))

/-- `handle_block`. -/
def handleBlock (peerId : UInt64) (payload : Bytes) (submission : Bool) : Task :=
  match deserializeBlock κ payload with
  | .error _ =>
      .last fun n _ => (n, if submission then n.sendBlockResult peerId .zero false 2 else [])
  | .ok block =>
      .step (fun n _ => (n, [], n.chainStore.isSome)) fun hasChainStore =>
        if ¬ hasChainStore then .last fun n _ => (n.observeBlock κ block, [])
        else .step (fun n io => n.appendSection κ block io) (finishBlock κ peerId block submission)

/-- The mining thread of a node with a chain store, from the found block to its end. -/
def foundLocally (mined : Block) : Task :=
  .step (fun n _ =>
    ({ n with
        mining :=
          { n.mining with
            foundBlockId := some (mined.id κ), active := false, state := .submitted } }, [], ()))
    fun _ =>
  (handleBlock κ 0 mined.serialize false).seq <|
  .step (fun n _ => (n, [], n.chainStore.any fun store => store.blockchain.tip.id κ = mined.id κ))
    fun accepted =>
  .last fun n _ =>
    ({ n with
        mining :=
          { n.mining with
            state := if accepted then .accepted else .rejected, worker := none } }, [])

/-! ## Transactions -/

/-- `send_transaction_result`. -/
def sendTransactionResult (n : NodeRuntime) (peerId : UInt64) (transactionId : Hash256)
    (accepted : Bool) (reason : UInt16) : List Output :=
  n.send peerId .transactionResult
    (transactionId.toList ++ ((if accepted then 1 else 0) :: encodeU16Le reason))

/-- The `state_mutex_` section of `handle_transaction`; `none` is a process without
the stores. -/
def addSection (n : NodeRuntime) (transaction : SignedTransaction) (io : StorageIo) :
    NodeRuntime × List Output × Option MempoolStoreAddResult :=
  match n.chainStore, n.mempoolStore with
  | some _, some store =>
      let added := store.add κ transaction io.mempoolOk
      ({ n with mempoolStore := some added.1 }, [], some added.2)
  | _, _ => (n, [], none)

/-- `handle_transaction` after its section. -/
def finishTransaction (peerId : UInt64) (payload : Bytes) (submission : Bool) (id : Hash256)
    (added : MempoolStoreAddResult) : Task :=
  .last fun n _ =>
    if ¬ added.hasValue then
      (n, if submission then
          n.sendTransactionResult peerId id false
            (if added.storageError = .none ∧ added.mempoolError = .duplicateTransaction
              then 3 else 4)
        else [])
    else
      (n, (if submission then n.sendTransactionResult peerId id true 0 else [])
        ++ n.broadcast .transaction payload (some peerId))

/-- `handle_transaction` of a transaction that passes its checks. -/
def admitTransaction (peerId : UInt64) (payload : Bytes) (submission : Bool)
    (value : SignedTransaction) : Task :=
  .step (fun n io => n.addSection κ value io) fun added =>
    match added with
    | none => .done
    | some added => finishTransaction peerId payload submission (value.id κ) added

/-- `handle_transaction`. -/
def handleTransaction (peerId : UInt64) (payload : Bytes) (submission : Bool) : Task :=
  .step (fun n _ => (n, [], (n.chainStore.isSome && n.mempoolStore.isSome, n.config.chainId)))
    fun context =>
  if ¬ context.1 then .done
  else
    match deserializeTransaction κ payload with
    | .error _ =>
        .last fun n _ =>
          (n, if submission then n.sendTransactionResult peerId .zero false 1 else [])
    | .ok value =>
        if value.chainId ≠ context.2 then
          .last fun n _ =>
            (n, if submission then n.sendTransactionResult peerId (value.id κ) false 2 else [])
        else admitTransaction κ peerId payload submission value

/-- The `transaction_mutex_` section after a local admission. -/
def noteAdmission (n : NodeRuntime) (id : Hash256) : NodeRuntime :=
  { n with transaction := { n.transaction with pendingId := some id, state := .accepted } }

/-- The end of a local admission. -/
def broadcastSubmission (transaction : SignedTransaction) : Task :=
  .last fun n _ => (n, n.broadcast .transaction transaction.serialize none)

/-- The transaction was admitted: it is noted, and relayed with the lock released. -/
def announceSubmission (transaction : SignedTransaction) : Task :=
  .step (fun n _ => (n.noteAdmission (transaction.id κ), [], ())) fun _ =>
  broadcastSubmission transaction

/-- The first `transaction_mutex_` section of a submission: it is noted, unless another one
is under way. -/
def noteSubmission (n : NodeRuntime) (id : Hash256) (peerId : UInt64) :
    NodeRuntime × List Output × Bool :=
  if n.transaction.state = .submitted then (n, [], false)
  else ({ n with transaction := ⟨.submitted, some id, some peerId⟩ }, [], true)

/-- The second one: the submission could not be sent. -/
def dropSubmission : Task :=
  .last fun n _ => ({ n with transaction := ⟨.idle, none, none⟩ }, [])

/-- The submission is sent between the two, with the lock released. -/
def sendSubmission (transaction : SignedTransaction) (peerId : UInt64) : Task :=
  .step (fun n _ => (n, n.send peerId .transactionSubmit transaction.serialize, n.reaches peerId))
    fun sent => if sent then .done else dropSubmission

/-- The submission to the full node that was found, if one was. -/
def submitToFullNode (transaction : SignedTransaction) : Option PeerStatus → Task
  | none => .done
  | some fullNode =>
      .step (fun n _ => n.noteSubmission (transaction.id κ) fullNode.id) fun noted =>
      if noted then sendSubmission transaction fullNode.id else .done

/-- `submit_signed_transaction` of a transaction of this network. -/
def admitSubmission (transaction : SignedTransaction) (fullNode : Option PeerStatus) : Task :=
  .step (fun n io => n.addSection κ transaction io) fun added =>
    match added with
    | some added => if ¬ added.hasValue then .done else announceSubmission κ transaction
    | none => submitToFullNode κ transaction fullNode

/-- `submit_signed_transaction`: the local admission of a full node, or the
submission to a connected one. -/
def submitSignedTransaction (transaction : SignedTransaction) : Task :=
  .step (fun n _ => (n, [], (n.network.isSome, n.config.chainId,
    n.peers.find? fun peer => peer.handshakeComplete && peer.isFullNode))) fun context =>
  if ¬ context.1 ∨ transaction.chainId ≠ context.2.1 then .done
  else admitSubmission κ transaction context.2.2

end NodeRuntime

end BBC
