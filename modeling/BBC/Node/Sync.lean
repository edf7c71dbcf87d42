/-
# `BBC.Node.Sync` — asking a peer for blocks, and answering

`maybe_start_sync`, `send_sync_request`, `handle_get_blocks` and `handle_blocks` of
`src/node/control_server.cpp`.

    GET_BLOCKS   request id (8)  count (2)  count × (height (8), id (32))  wanted (2)
    BLOCKS       request id (8)  status (1)  count (2)  count × (size (4), block)

The requester sends a locator of its branch; the server answers with the blocks of
its active chain that follow the first entry it recognises.
-/
import BBC.Node.Relay

namespace BBC

open Sections (Program)
open ByteCodec

def syncStatusOk : Byte := 0
def syncStatusLocatorNotFound : Byte := 1
def syncStatusInvalidRequest : Byte := 2

/-! ## The payloads -/

/-- The payload of `GET_BLOCKS`. -/
def encodeGetBlocks (requestId : UInt64) (locator : List (UInt64 × Hash256)) : Bytes :=
  encodeU64Le requestId ++ (encodeU16Le (UInt16.ofNat locator.length) ++
    (locator.flatMap (fun entry => encodeU64Le entry.1 ++ entry.2.toList) ++
      encodeU16Le (UInt16.ofNat maximumBlocksPerSyncBatch)))

/-- The payload of `BLOCKS`. -/
def encodeBlocks (requestId : UInt64) (status : Byte) (blocks : List Block) : Bytes :=
  encodeU64Le requestId ++ (status :: (encodeU16Le (UInt16.ofNat blocks.length) ++
    blocks.flatMap fun block =>
      encodeU32Le (UInt32.ofNat block.serialize.length) ++ block.serialize))

/-- The locator loop of `handle_get_blocks`: the first entry on the active chain. -/
def matchLocator (κ : Crypto) (blocks : List Block) (payload : Bytes) : Nat → Nat → Option Nat
  | 0, _ => none
  | count + 1, offset =>
      let height := (readU64Le payload offset).toNat
      let id : Hash256 := readArray 32 payload (offset + 8)
      if height < blocks.length ∧ (blocks.getD height default).id κ = id then some height
      else matchLocator κ blocks payload count (offset + blockLocatorEntrySize)

/-- The body of `handle_get_blocks`: the status and the blocks of the response. -/
def answerGetBlocks (κ : Crypto) (blocks : List Block) (payload : Bytes) : Byte × List Block :=
  let locatorCount := (readU16Le payload 8).toNat
  let requestedCountOffset := 10 + locatorCount * blockLocatorEntrySize
  if locatorCount = 0 ∨ locatorCount > maximumBlockLocatorEntries
      ∨ requestedCountOffset + 2 ≠ payload.length then (syncStatusInvalidRequest, [])
  else
    let requestedCount := (readU16Le payload requestedCountOffset).toNat
    if requestedCount = 0 ∨ requestedCount > maximumBlocksPerSyncBatch then
      (syncStatusInvalidRequest, [])
    else
      match matchLocator κ blocks payload locatorCount 10 with
      | none => (syncStatusLocatorNotFound, [])
      | some matchedHeight =>
          let first := matchedHeight + 1
          let last := min blocks.length (first + requestedCount)
          (syncStatusOk, subspan blocks first (last - first))

/-- The decoding loop of `handle_blocks`; the offset behind the last record is
returned, and `none` is a record that `fail_sync` refuses. -/
def decodeBlocks (κ : Crypto) (payload : Bytes) : Nat → Nat → Option (List Block × Nat)
  | 0, offset => some ([], offset)
  | count + 1, offset =>
      if payload.length - offset < 4 then none
      else
        let encodedSize := (readU32Le payload offset).toNat
        let offset := offset + 4
        if encodedSize < blockHeaderSize ∨ encodedSize > maximumBlockSize
            ∨ payload.length - offset < encodedSize then none
        else
          match deserializeBlock κ (subspan payload offset encodedSize) with
          | .error _ => none
          | .ok block =>
              match decodeBlocks κ payload count (offset + encodedSize) with
              | none => none
              | some (blocks, last) => some (block :: blocks, last)

/-- The checks of `handle_blocks` on a matching response, up to the decoded blocks. -/
def readBlocks (κ : Crypto) (payload : Bytes) : Option (List Block) :=
  let blockCount := (readU16Le payload 9).toNat
  if payload.getD 8 0 ≠ syncStatusOk then none
  else if blockCount > maximumBlocksPerSyncBatch then none
  else
    match decodeBlocks κ payload blockCount blocksPayloadMinimumSize with
    | none => none
    | some (blocks, offset) => if offset ≠ payload.length then none else some blocks

namespace NodeRuntime

variable (κ : Crypto)

/-! ## Asking -/

/-- `fail_sync`. -/
def failSync : Task :=
  .last fun n _ => ({ n with sync := { n.sync with pendingRequest := none, state := .failed } }, [])

/-- The `sync_mutex_` section of `send_sync_request`: the cursor and a fresh request id. -/
def takeSyncRequest (n : NodeRuntime) (peerId : UInt64) :
    NodeRuntime × List Output × Option (Hash256 × UInt64) :=
  match n.sync.locatorTip with
  | none => (n, [], none)
  | some locatorTip =>
      if n.sync.peer ≠ some peerId ∨ n.sync.pendingRequest.isSome ∨ n.sync.state ≠ .syncing then
        (n, [], none)
      else
        ({ n with
            sync :=
              { n.sync with
                nextRequest := n.sync.nextRequest + 1
                pendingRequest := some n.sync.nextRequest } },
          [], some (locatorTip, n.sync.nextRequest))

/-- `send_sync_request`. -/
def sendSyncRequest (peerId : UInt64) : Task :=
  .step (fun n _ => (n, [], n.chainStore.isSome && n.network.isSome)) fun running =>
  if ¬ running then .done
  else
    .step (fun n _ => n.takeSyncRequest peerId) fun request =>
      match request with
      | none => .done
      | some (locatorTip, requestId) =>
          .step (fun n _ => (n, [], match n.chainStore with
            | none => []
            | some store => store.blockchain.blockLocator κ locatorTip maximumBlockLocatorEntries))
            fun locator =>
          if locator.isEmpty then failSync
          else
            .step (fun n _ => (n, n.send peerId .getBlocks (encodeGetBlocks requestId locator),
              n.reaches peerId)) fun sent =>
            if sent then .done else failSync

/-- The `sync_mutex_` section that adopts a peer's tip as target. -/
def adoptTarget (n : NodeRuntime) (peer : PeerStatus) (localTip : Hash256) (state : SyncState) :
    NodeRuntime :=
  { n with
    sync :=
      { n.sync with
        peer := some peer.id
        targetHeight := some peer.remoteHeight
        targetTip := some peer.remoteTip
        locatorTip := some localTip
        receivedBlocks := 0
        state := state } }

/-- `maybe_start_sync`. -/
def maybeStartSync (peerId : UInt64) : Task :=
  .step (fun n _ => (n, [], if n.chainStore.isSome ∧ n.network.isSome then
    n.peers.find? fun peer => peer.id = peerId && peer.handshakeComplete && peer.isFullNode
    else none)) fun found =>
  match found with
  | none => .done
  | some peer =>
      .step (fun n _ => (n, [], n.chainStore.map fun store => store.blockchain.tip)) fun tip =>
      match tip with
      | none => .done
      | some tip =>
          if peer.remoteHeight < tip.height then .done
          else if peer.remoteHeight = tip.height then
            .last fun n _ =>
              let sameTip := decide (peer.remoteTip = tip.id κ)
              if n.sync.pendingRequest.isSome ∨ (sameTip ∧ n.sync.state = .complete) then (n, [])
              else (n.adoptTarget peer (tip.id κ) (if sameTip then .upToDate else .diverged), [])
          else
            .step (fun n _ =>
              if n.sync.pendingRequest.isSome ∨ n.sync.state = .syncing then (n, [], false)
              else (n.adoptTarget peer (tip.id κ) .syncing, [], true)) fun started =>
            if started then sendSyncRequest κ peerId else .done

/-! ## Answering -/

/-- `handle_get_blocks`. -/
def handleGetBlocks (peerId : UInt64) (payload : Bytes) : Task :=
  .last fun n _ =>
    match n.chainStore with
    | none => (n, [])
    | some store =>
        if n.network.isNone ∨ payload.length < getBlocksPayloadMinimumSize then (n, [])
        else
          let answer := answerGetBlocks κ store.blockchain.blocks payload
          (n, n.send peerId .blocks (encodeBlocks (readU64Le payload 0) answer.1 answer.2))

/-! ## Applying -/

/-- The `state_mutex_` section of the block loop: a stored block is left alone. -/
def storeSection (n : NodeRuntime) (block : Block) (io : StorageIo) :
    NodeRuntime × List Output × Option AppendOutcome :=
  if n.chainStore.any fun store => store.blockchain.contains (block.id κ) then (n, [], none)
  else
    let r := n.appendSection κ block io
    (r.1, r.2.1, some r.2.2)

/-- The rest of a turn: the advertised tip and the counter. -/
def noteSynced (n : NodeRuntime) (outcome : Option AppendOutcome) : NodeRuntime :=
  match outcome with
  | none => n
  | some outcome =>
      if outcome.appended.chainResult.activeChainChanged then
        n.updateTip outcome.activeTipHeight outcome.activeTipId
      else n

/-- The block loop of `handle_blocks`; a rejected block ends the synchronization. -/
def applyBlocks (next : Task) : List Block → Task
  | [] => next
  | block :: rest =>
      .step (fun n io => n.storeSection κ block io) fun outcome =>
      if outcome.any fun outcome => ¬ outcome.appended.hasValue then failSync
      else
        .step (fun n _ => (n.noteSynced outcome, [], ())) fun _ =>
        .step (fun n _ =>
          ({ n with sync := { n.sync with receivedBlocks := n.sync.receivedBlocks + 1 } }, [], ()))
          fun _ =>
        applyBlocks next rest

/-- What the last `sync_mutex_` section of `handle_blocks` decides. -/
inductive SyncVerdict where
  | complete
  | invalidTip
  | continue_
  deriving DecidableEq

/-- That section: the local tip is compared with the target. -/
def judgeSync (n : NodeRuntime) (localHeight : UInt64) (localTip : Hash256) :
    NodeRuntime × List Output × SyncVerdict :=
  match n.sync.targetHeight, n.sync.targetTip with
  | some targetHeight, some targetTip =>
      if localHeight = targetHeight then
        if localTip = targetTip then
          ({ n with sync := { n.sync with state := .complete } }, [], .complete)
        else (n, [], .invalidTip)
      else if localHeight > targetHeight then (n, [], .invalidTip)
      else (n, [], .continue_)
  | _, _ => (n, [], .invalidTip)

/-- `handle_blocks` after the block loop. -/
def finishBlocks (peerId : UInt64) (blocks : List Block) : Task :=
  .step (fun n _ =>
    (match blocks.getLast? with
      | none => n
      | some last => { n with sync := { n.sync with locatorTip := some (last.id κ) } }, [], ()))
    fun _ =>
  .step (fun n _ => (n, [], n.chainStore.map fun store => store.blockchain.tip)) fun tip =>
  match tip with
  | none => .done
  | some tip =>
      .step (fun n _ => n.judgeSync tip.height (tip.id κ)) fun verdict =>
      match verdict with
      | .complete => .done
      | .invalidTip => failSync
      | .continue_ => if blocks.isEmpty then failSync else sendSyncRequest κ peerId

/-- The first section of `handle_blocks`: the response must answer the request. -/
def takeResponse (n : NodeRuntime) (peerId : UInt64) (payload : Bytes) :
    NodeRuntime × List Output × Bool :=
  if ¬ n.chainStore.isSome ∨ ¬ n.network.isSome ∨ payload.length < blocksPayloadMinimumSize
      ∨ n.sync.peer ≠ some peerId ∨ n.sync.pendingRequest ≠ some (readU64Le payload 0)
      ∨ n.sync.state ≠ .syncing then (n, [], false)
  else ({ n with sync := { n.sync with pendingRequest := none } }, [], true)

/-- `handle_blocks`. -/
def handleBlocks (peerId : UInt64) (payload : Bytes) : Task :=
  .step (fun n _ => n.takeResponse peerId payload) fun matched =>
  if ¬ matched then .done
  else
    match readBlocks κ payload with
    | none => failSync
    | some blocks => applyBlocks κ (finishBlocks κ peerId blocks) blocks

end NodeRuntime

end BBC
