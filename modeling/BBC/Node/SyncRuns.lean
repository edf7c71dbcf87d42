/-
# `BBC.Node.SyncRuns` — the synchronization handlers run on their own

`maybe_start_sync` and `handle_blocks` are called on the thread of the peer network,
one after the other, so their effect is that of a whole run.  What a run leaves of
the synchronization fields is one of three things:

    nothing has changed
    a request is pending, and it has been sent to a peer that can be reached
    no request is pending, and the state is not `syncing`
-/
import BBC.Chain.Locator
import BBC.Node.InStep

namespace BBC

open Sections (Program)

variable {κ : Crypto}

/-- The blocks of a response put into a store: a stored block is passed over, and the first
one that is rejected ends it (`false`). -/
def ChainStore.absorb (κ : Crypto) : ChainStore → List (Block × AppendIo) → ChainStore × Bool
  | s, [] => (s, true)
  | s, op :: rest =>
      if s.blockchain.contains (op.1.id κ) then absorb κ s rest
      else if (s.append κ op.1 op.2).2.hasValue then absorb κ (s.append κ op.1 op.2).1 rest
      else ((s.append κ op.1 op.2).1, false)

namespace NodeRuntime

variable {n m : NodeRuntime} {peerId : UInt64}

/-- A full node whose chain has been grown by `append`, with its network started. -/
structure Running (κ : Crypto) (chainId : UInt32) (n : NodeRuntime) : Prop where
  network : n.network.isSome = true
  store : ∃ store bs, n.chainStore = some store ∧ store.blockchain = Blockchain.replay κ chainId bs

variable {chainId : UInt32}

theorem Running.congr (h : n.Running κ chainId) (hnetwork : m.network.isSome = n.network.isSome)
    (hstore : m.chainStore = n.chainStore) : m.Running κ chainId :=
  ⟨hnetwork.trans h.network, by rw [hstore]; exact h.store⟩

/-! ## Asking -/

/-- The request is noted as pending. -/
def noteRequest (n : NodeRuntime) : NodeRuntime :=
  { n with
    sync :=
      { n.sync with
        nextRequest := n.sync.nextRequest + 1
        pendingRequest := some n.sync.nextRequest } }

/-- The synchronization has failed. -/
def noteFailure (n : NodeRuntime) : NodeRuntime :=
  { n with sync := { n.sync with pendingRequest := none, state := .failed } }

/-- The fields that `send_sync_request` asks for. -/
structure Asking (n : NodeRuntime) (peerId : UInt64) (locatorTip : Hash256) : Prop where
  peer : n.sync.peer = some peerId
  pending : n.sync.pendingRequest = none
  state : n.sync.state = .syncing
  locatorTip : n.sync.locatorTip = some locatorTip

/-- `send_sync_request`: without a locator or a session it fails. -/
theorem run_sendSyncRequest {store : ChainStore} {locatorTip : Hash256}
    (hnetwork : n.network.isSome = true) (hstore : n.chainStore = some store)
    (hasking : n.Asking peerId locatorTip) (io : Nat → StorageIo) :
    (sendSyncRequest κ peerId).run io n
      = if store.blockchain.blockLocator κ locatorTip maximumBlockLocatorEntries ≠ []
            ∧ n.reaches peerId then
          (n.noteRequest, [.send peerId .getBlocks (encodeGetBlocks n.sync.nextRequest
            (store.blockchain.blockLocator κ locatorTip maximumBlockLocatorEntries))])
        else (n.noteRequest.noteFailure, []) := by
  have htake : n.takeSyncRequest peerId
      = (n.noteRequest, [], some (locatorTip, n.sync.nextRequest)) := by
    rw [takeSyncRequest, hasking.locatorTip]
    dsimp only
    rw [if_neg]
    · rfl
    · rw [hasking.peer, hasking.pending, hasking.state]
      simp
  have hnote : n.noteRequest.chainStore = some store := hstore
  have hsend : ∀ payload, n.noteRequest.send peerId .getBlocks payload
      = if n.reaches peerId then [.send peerId .getBlocks payload] else [] := fun _ => rfl
  have hreach : n.noteRequest.reaches peerId = n.reaches peerId := rfl
  rw [sendSyncRequest, Program.run_step, hstore, hnetwork]
  dsimp only [Option.isSome_some, Bool.and_self]
  rw [if_neg (by simp), Program.run_step, htake]
  dsimp only
  rw [Program.run_step, hnote]
  dsimp only
  by_cases hlocator : store.blockchain.blockLocator κ locatorTip maximumBlockLocatorEntries = []
  · rw [if_pos (by simpa using hlocator), if_neg fun h => h.1 hlocator]
    rfl
  rw [if_neg (by simpa using hlocator), Program.run_step, hreach, hsend]
  by_cases hreached : n.reaches peerId = true
  · rw [if_pos hreached, if_pos hreached, if_pos ⟨hlocator, hreached⟩]
    rfl
  · rw [if_neg hreached, if_neg hreached, if_neg fun h => hreached h.2]
    rfl

/-- The three outcomes. -/
inductive SyncOutcome (n : NodeRuntime) (peerId : UInt64) : Prop where
  | asked (hpeer : n.sync.peer = some peerId) (hpending : n.sync.pendingRequest.isSome = true)
      (hstate : n.sync.state = .syncing) (hreach : n.reaches peerId = true)
  | closed (hpending : n.sync.pendingRequest = none) (hstate : n.sync.state ≠ .syncing)

theorem outcome_noteFailure (n : NodeRuntime) (peerId : UInt64) :
    n.noteFailure.SyncOutcome peerId :=
  .closed rfl fun h => by cases h

/-- Whatever the locator is, a request that was asked for is sent or has failed. -/
theorem outcome_sendSyncRequest {locatorTip : Hash256} (hrunning : n.Running κ chainId)
    (hasking : n.Asking peerId locatorTip) (io : Nat → StorageIo) :
    (((sendSyncRequest κ peerId).run io n).1).SyncOutcome peerId ∧
      (((sendSyncRequest κ peerId).run io n).1).peers = n.peers ∧
      (((sendSyncRequest κ peerId).run io n).1).Running κ chainId := by
  obtain ⟨hnetwork, store, bs, hstore, hbs⟩ := hrunning
  rw [run_sendSyncRequest hnetwork hstore hasking]
  split_ifs with hsent
  · exact ⟨.asked hasking.peer rfl hasking.state hsent.2, rfl, hnetwork, store, bs, hstore, hbs⟩
  · exact ⟨outcome_noteFailure _ _, rfl, hnetwork, store, bs, hstore, hbs⟩

/-- `maybe_start_sync` with a peer that is not ahead, or while a request is pending,
changes at most the target. -/
theorem maybeStartSync_cases {store : ChainStore} (hstore : n.chainStore = some store)
    (peerId : UInt64) (io : Nat → StorageIo) :
    ((maybeStartSync κ peerId).run io n).1 = n ∨
      (n.sync.pendingRequest = none ∧ ∃ peer localTip state, state ≠ .syncing ∧
        ((maybeStartSync κ peerId).run io n).1 = n.adoptTarget peer localTip state) ∨
      (n.sync.pendingRequest = none ∧ n.sync.state ≠ .syncing ∧
        ∃ peer ∈ n.peers, peer.id = peerId ∧ peer.isFullNode = true ∧
          store.blockchain.tip.height < peer.remoteHeight ∧ ∃ localTip io',
          ((maybeStartSync κ peerId).run io n).1
            = ((sendSyncRequest κ peerId).run io' (n.adoptTarget peer localTip .syncing)).1) := by
  rw [maybeStartSync, Program.run_step]
  dsimp only
  split
  · exact Or.inl rfl
  rename_i peer hfound
  have hpeer : peer ∈ n.peers ∧ peer.id = peerId ∧ peer.isFullNode = true := by
    split_ifs at hfound
    have hmatch := List.find?_some hfound
    simp only [Bool.and_eq_true, decide_eq_true_eq] at hmatch
    exact ⟨List.mem_of_find?_eq_some hfound, hmatch.1.1, hmatch.2⟩
  obtain ⟨hmem, hid, hfull⟩ := hpeer
  rw [Program.run_step, hstore]
  dsimp only [Option.map_some]
  by_cases hbelow : peer.remoteHeight < store.blockchain.tip.height
  · rw [if_pos hbelow]
    exact Or.inl rfl
  rw [if_neg hbelow]
  by_cases hequal : peer.remoteHeight = store.blockchain.tip.height
  · rw [if_pos hequal, Program.last, Program.run_step]
    dsimp only
    by_cases hbusy : n.sync.pendingRequest.isSome = true ∨
        (decide (peer.remoteTip = store.blockchain.tip.id κ) = true ∧ n.sync.state = .complete)
    · rw [if_pos hbusy]
      exact Or.inl rfl
    · rw [if_neg hbusy]
      have hnone : n.sync.pendingRequest = none := by
        simpa using fun h => hbusy (Or.inl h)
      refine Or.inr (Or.inl ⟨hnone, peer, _, _, ?_, rfl⟩)
      split <;> simp
  · rw [if_neg hequal, Program.run_step]
    by_cases hbusy : n.sync.pendingRequest.isSome = true ∨ n.sync.state = .syncing
    · rw [if_pos hbusy]
      exact Or.inl rfl
    · rw [if_neg hbusy]
      have hnone : n.sync.pendingRequest = none := by
        simpa using fun h => hbusy (Or.inl h)
      have hahead : store.blockchain.tip.height < peer.remoteHeight :=
        UInt64.lt_of_le_of_ne (UInt64.not_lt.mp hbelow) (Ne.symm hequal)
      exact Or.inr (Or.inr ⟨hnone, fun h => hbusy (Or.inr h), peer, hmem, hid, hfull, hahead,
        store.blockchain.tip.id κ, fun k => io (k + 1 + 1 + 1), rfl⟩)

/-- `maybe_start_sync` with a full node that is ahead, while nothing is pending. -/
theorem run_maybeStartSync {store : ChainStore} {peer : PeerStatus}
    (hnetwork : n.network.isSome = true) (hstore : n.chainStore = some store)
    (hfound : n.peers.find? (fun peer => peer.id = peerId && peer.handshakeComplete
      && peer.isFullNode) = some peer)
    (hahead : store.blockchain.tip.height < peer.remoteHeight)
    (hnone : n.sync.pendingRequest = none) (hstate : n.sync.state ≠ .syncing)
    (io : Nat → StorageIo) :
    (maybeStartSync κ peerId).run io n
      = (sendSyncRequest κ peerId).run (fun k => io (k + 1 + 1 + 1))
          (n.adoptTarget peer (store.blockchain.tip.id κ) .syncing) := by
  have hbelow : ¬ peer.remoteHeight < store.blockchain.tip.height :=
    UInt64.not_lt.mpr (UInt64.le_of_lt hahead)
  have hequal : peer.remoteHeight ≠ store.blockchain.tip.height := (UInt64.ne_of_lt hahead).symm
  have hidle : ¬ (n.sync.pendingRequest.isSome = true ∨ n.sync.state = .syncing) := by
    rw [hnone]
    simpa using hstate
  rw [maybeStartSync, Program.run_step, if_pos ⟨by rw [hstore]; rfl, hnetwork⟩, hfound]
  dsimp only
  rw [Program.run_step, hstore]
  dsimp only [Option.map_some]
  rw [if_neg hbelow, if_neg hequal, Program.run_step, if_neg hidle]
  rfl

/-! ## Applying a response -/

/-- What the block loop leaves alone. -/
structure Frame (κ : Crypto) (chainId : UInt32) (n m : NodeRuntime) : Prop where
  running : n.Running κ chainId → m.Running κ chainId
  peers : m.peers = n.peers
  sync : m.sync = { n.sync with receivedBlocks := m.sync.receivedBlocks }

theorem Frame.trans {l : NodeRuntime} (h : Frame κ chainId n m) (h' : Frame κ chainId m l) :
    Frame κ chainId n l :=
  ⟨fun hn => h'.running (h.running hn), h'.peers.trans h.peers, by rw [h'.sync, h.sync]⟩

theorem Frame.refl (n : NodeRuntime) : Frame κ chainId n n := ⟨id, rfl, rfl⟩

theorem peers_updateTip (n : NodeRuntime) (height : UInt64) (tip : Hash256) :
    (n.updateTip height tip).peers = n.peers := by
  rw [updateTip, peers, peers]
  cases n.network with
  | none => rfl
  | some view => rfl

theorem frame_updateTip (n : NodeRuntime) (height : UInt64) (tip : Hash256) :
    Frame κ chainId n (n.updateTip height tip) :=
  ⟨fun h => h.congr (by rw [updateTip]; exact Option.isSome_map) rfl, peers_updateTip n _ _, rfl⟩

theorem frame_updateMempool (n : NodeRuntime) (appended : AppendResult) (ok : Bool) :
    Frame κ chainId n (n.updateMempoolAfterChainChange κ appended ok).1 := by
  rw [updateMempoolAfterChainChange]
  split
  · exact ⟨fun h => h.congr rfl rfl, rfl, rfl⟩
  · exact .refl n

theorem frame_appendSection (n : NodeRuntime) (block : Block) (io : StorageIo) :
    Frame κ chainId n (n.appendSection κ block io).1 := by
  rw [appendSection]
  cases hstore : n.chainStore with
  | none => exact .refl n
  | some store =>
      dsimp only
      have hstored : Frame κ chainId n { n with
          chainStore := some (store.append κ block io.append).1 } := by
        refine ⟨fun h => ⟨h.network, ?_⟩, rfl, rfl⟩
        obtain ⟨-, store', bs, hstore', hbs⟩ := h
        rw [hstore] at hstore'
        cases hstore'
        rcases store.blockchain_append κ block io.append with ⟨hsame, -⟩ | ⟨hnext, -, -⟩
        · exact ⟨_, bs, rfl, hsame.trans hbs⟩
        · exact ⟨_, bs ++ [block], rfl, by rw [hnext, Blockchain.replay_concat, hbs]⟩
      split_ifs
      · exact hstored.trans (frame_updateMempool _ _ _)
      · exact hstored

theorem frame_storeSection (n : NodeRuntime) (block : Block) (io : StorageIo) :
    Frame κ chainId n (n.storeSection κ block io).1 := by
  rw [storeSection]
  split_ifs
  · exact .refl n
  · exact frame_appendSection n block io

theorem frame_noteSynced (n : NodeRuntime) (outcome : Option AppendOutcome) :
    Frame κ chainId n (n.noteSynced outcome) := by
  cases outcome with
  | none => exact .refl n
  | some outcome =>
      rw [noteSynced]
      split_ifs
      · exact frame_updateTip n _ _
      · exact .refl n

/-- The blocks with what the storage does to each; every turn of the loop has three sections. -/
def absorbOps (io : Nat → StorageIo) : List Block → List (Block × AppendIo)
  | [] => []
  | block :: rest => (block, (io 0).append) :: absorbOps (fun k => io (k + 1 + 1 + 1)) rest

/-- What the loop hands to the network while the pool follows the chain. -/
def Rebroadcast (o : Output) : Prop :=
  ∃ payload, o = .broadcast .transaction payload none

theorem rebroadcast_updateMempool (n : NodeRuntime) (appended : AppendResult) (ok : Bool) :
    ∀ o ∈ (n.updateMempoolAfterChainChange κ appended ok).2, Rebroadcast o := by
  intro o ho
  rw [updateMempoolAfterChainChange] at ho
  split at ho
  · obtain ⟨transaction, -, ho⟩ := List.mem_flatMap.mp ho
    rw [broadcast] at ho
    split_ifs at ho
    · exact ⟨_, List.mem_singleton.mp ho⟩
    · exact absurd ho List.not_mem_nil
  · exact absurd ho List.not_mem_nil

theorem rebroadcast_storeSection (n : NodeRuntime) (block : Block) (io : StorageIo) :
    ∀ o ∈ (n.storeSection κ block io).2.1, Rebroadcast o := by
  intro o ho
  rw [storeSection] at ho
  split_ifs at ho
  · exact absurd ho List.not_mem_nil
  rw [appendSection] at ho
  split at ho
  · exact absurd ho List.not_mem_nil
  dsimp only at ho
  split_ifs at ho
  · exact rebroadcast_updateMempool _ _ _ o ho
  · exact absurd ho List.not_mem_nil

/-- One turn's first section, in terms of the store. -/
theorem storeSection_cases {store : ChainStore} (hstore : n.chainStore = some store)
    (block : Block) (io : StorageIo) :
    (store.blockchain.contains (block.id κ) = true ∧ n.storeSection κ block io = (n, [], none)) ∨
      (store.blockchain.contains (block.id κ) = false ∧
        (n.storeSection κ block io).1.chainStore = some (store.append κ block io.append).1 ∧
        ∃ outcome, (n.storeSection κ block io).2.2 = some outcome ∧
          outcome.appended = (store.append κ block io.append).2) := by
  rw [storeSection, hstore, Option.any_some]
  cases hcontains : store.blockchain.contains (block.id κ) with
  | true => exact Or.inl ⟨rfl, if_pos rfl⟩
  | false =>
      obtain ⟨hchain, -, hresult⟩ := chainStore_appendSection (κ := κ) hstore block io
      rw [if_neg Bool.false_ne_true]
      exact Or.inr ⟨rfl, hchain, _, rfl, hresult⟩

/-- The sections after it leave the store alone. -/
theorem chainStore_noteSynced (n : NodeRuntime) (outcome : Option AppendOutcome) :
    (n.noteSynced outcome).chainStore = n.chainStore := by
  cases outcome with
  | none => rfl
  | some outcome =>
      rw [noteSynced]
      split_ifs
      · rfl
      · rfl

/-- One block more has been looked at. -/
def noteReceived (n : NodeRuntime) : NodeRuntime :=
  { n with sync := { n.sync with receivedBlocks := n.sync.receivedBlocks + 1 } }

/-- The block loop absorbs the response and hands over, or fails at a rejected block. -/
theorem run_applyBlocks_absorb (κ : Crypto) (chainId : UInt32) (next : Task)
    (blocks : List Block) :
    ∀ (io : Nat → StorageIo) (n : NodeRuntime) (store : ChainStore),
      n.chainStore = some store → ∃ m io' sent, Frame κ chainId n m ∧
        m.chainStore = some (store.absorb κ (absorbOps io blocks)).1 ∧
        (∀ o ∈ sent, Rebroadcast o) ∧
        (applyBlocks κ next blocks).run io n
          = if (store.absorb κ (absorbOps io blocks)).2 then
              ((next.run io' m).1, sent ++ (next.run io' m).2)
            else (m.noteFailure, sent) := by
  induction blocks with
  | nil =>
      intro io n store hstore
      exact ⟨n, io, [], .refl n, hstore, fun o ho => absurd ho List.not_mem_nil, rfl⟩
  | cons block rest ih =>
      intro io n store hstore
      have hframe : Frame κ chainId n (n.storeSection κ block (io 0)).1 :=
        frame_storeSection n block (io 0)
      have hsent := rebroadcast_storeSection (κ := κ) n block (io 0)
      rw [applyBlocks, Program.run_step, absorbOps, ChainStore.absorb]
      dsimp only
      generalize hsection : n.storeSection κ block (io 0) = stored at hframe hsent ⊢
      -- a turn that goes on: the tail is run on the noted state
      have hturn : ∀ next' : ChainStore, stored.1.chainStore = some next' →
          ∃ m io' sent, Frame κ chainId n m ∧
            m.chainStore = some (next'.absorb κ
              (absorbOps (fun k => io (k + 1 + 1 + 1)) rest)).1 ∧
            (∀ o ∈ sent, Rebroadcast o) ∧
            (((applyBlocks κ next rest).run (fun k => io (k + 1 + 1 + 1))
                (stored.1.noteSynced stored.2.2).noteReceived).1,
              stored.2.1 ++ ((applyBlocks κ next rest).run (fun k => io (k + 1 + 1 + 1))
                (stored.1.noteSynced stored.2.2).noteReceived).2)
              = if (next'.absorb κ (absorbOps (fun k => io (k + 1 + 1 + 1)) rest)).2 then
                  ((next.run io' m).1, sent ++ (next.run io' m).2)
                else (m.noteFailure, sent) := by
        intro next' hnext'
        have hnoted : (stored.1.noteSynced stored.2.2).noteReceived.chainStore = some next' :=
          (chainStore_noteSynced stored.1 stored.2.2).trans hnext'
        obtain ⟨m, io', sent, htail, hstored, hrest, hrun⟩ := ih (fun k => io (k + 1 + 1 + 1))
          _ next' hnoted
        have hcounted : Frame κ chainId (stored.1.noteSynced stored.2.2)
            (stored.1.noteSynced stored.2.2).noteReceived :=
          ⟨fun h => h.congr rfl rfl, rfl, rfl⟩
        refine ⟨m, io', stored.2.1 ++ sent, ?_, hstored, ?_, ?_⟩
        · exact ((hframe.trans (frame_noteSynced stored.1 stored.2.2)).trans hcounted).trans htail
        · intro o ho
          rcases List.mem_append.mp ho with ho | ho
          · exact hsent o ho
          · exact hrest o ho
        · rw [hrun]
          split_ifs
          · rw [List.append_assoc]
          · rfl
      rcases storeSection_cases hstore block (io 0) with
        ⟨hknown, hsame⟩ | ⟨hfresh, hchain, outcome, houtcome, hresult⟩
      · rw [hsection] at hsame
        rw [if_pos hknown, hsame]
        subst hsame
        exact hturn store hstore
      · rw [hsection] at hchain houtcome
        rw [if_neg (by rw [hfresh]; exact Bool.false_ne_true), houtcome, Option.any_some, hresult]
        by_cases hvalue : (store.append κ block (io 0).append).2.hasValue = true
        · rw [if_pos hvalue, hvalue]
          have hgo := hturn _ hchain
          rw [houtcome] at hgo
          exact hgo
        · rw [if_neg hvalue, Bool.eq_false_iff.mpr hvalue]
          refine ⟨stored.1, io, stored.2.1, hframe, hchain, hsent, ?_⟩
          show (_, stored.2.1 ++ []) = _
          rw [List.append_nil]
          rfl

/-- The cursor moves to the last block of the response. -/
def noteCursor (κ : Crypto) (n : NodeRuntime) (blocks : List Block) : NodeRuntime :=
  match blocks.getLast? with
  | none => n
  | some last => { n with sync := { n.sync with locatorTip := some (last.id κ) } }

theorem frame_noteCursor (n : NodeRuntime) (blocks : List Block) :
    (n.noteCursor κ blocks).network = n.network ∧
      (n.noteCursor κ blocks).chainStore = n.chainStore ∧
      (n.noteCursor κ blocks).sync
        = { n.sync with locatorTip := (n.noteCursor κ blocks).sync.locatorTip } := by
  rw [noteCursor]
  cases blocks.getLast? with
  | none => exact ⟨rfl, rfl, rfl⟩
  | some last => exact ⟨rfl, rfl, rfl⟩

theorem locatorTip_noteCursor (n : NodeRuntime) {blocks : List Block} (h : blocks ≠ []) :
    ∃ last, blocks.getLast? = some last ∧
      (n.noteCursor κ blocks).sync.locatorTip = some (last.id κ) := by
  refine ⟨blocks.getLast h, List.getLast?_eq_getLast_of_ne_nil h, ?_⟩
  rw [noteCursor, List.getLast?_eq_getLast_of_ne_nil h]

/-- The judgement puts nothing out and changes at most the state. -/
theorem judgeSync_cases (n : NodeRuntime) (localHeight : UInt64) (localTip : Hash256) :
    n.judgeSync localHeight localTip
        = ({ n with sync := { n.sync with state := .complete } }, [], .complete) ∨
      n.judgeSync localHeight localTip = (n, [], .invalidTip) ∨
      n.judgeSync localHeight localTip = (n, [], .continue_) := by
  rw [judgeSync]
  split
  · split_ifs
    · exact Or.inl rfl
    · exact Or.inr (Or.inl rfl)
    · exact Or.inr (Or.inl rfl)
    · exact Or.inr (Or.inr rfl)
  · exact Or.inr (Or.inl rfl)

/-- What follows a verdict. -/
def conclude (κ : Crypto) (peerId : UInt64) (blocks : List Block) (io : Nat → StorageIo)
    (m : NodeRuntime) : SyncVerdict → NodeRuntime × List Output
  | .complete => (m, [])
  | .invalidTip => (m.noteFailure, [])
  | .continue_ =>
      if blocks.isEmpty then (m.noteFailure, []) else (sendSyncRequest κ peerId).run io m

/-- `handle_blocks` after its loop, on a node with a chain. -/
theorem run_finishBlocks {store : ChainStore} (hstore : n.chainStore = some store)
    (blocks : List Block) (io : Nat → StorageIo) {verdict : SyncVerdict}
    (hjudge : (n.noteCursor κ blocks).judgeSync store.blockchain.tip.height
      (store.blockchain.tip.id κ) = (m, [], verdict)) :
    (finishBlocks κ peerId blocks).run io n
      = conclude κ peerId blocks (fun k => io (k + 1 + 1 + 1)) m verdict := by
  have hcursor : (n.noteCursor κ blocks).chainStore = some store :=
    (frame_noteCursor n blocks).2.1.trans hstore
  have hfirst : (finishBlocks κ peerId blocks).run io n
      = (Program.step (fun n _ => (n, [], n.chainStore.map fun store => store.blockchain.tip))
          fun tip => match tip with
            | none => .done
            | some tip =>
                .step (fun n _ => n.judgeSync tip.height (tip.id κ)) fun verdict =>
                match verdict with
                | .complete => .done
                | .invalidTip => failSync
                | .continue_ =>
                    if blocks.isEmpty then failSync else sendSyncRequest κ peerId : Task).run
            (fun k => io (k + 1)) (n.noteCursor κ blocks) := rfl
  rw [hfirst, Program.run_step, hcursor]
  dsimp only [Option.map_some]
  rw [Program.run_step, hjudge]
  cases verdict with
  | complete => rfl
  | invalidTip => rfl
  | continue_ =>
      rw [conclude]
      dsimp only
      split_ifs
      · rfl
      · rfl

/-- After a response a request is pending at a peer that can be reached, or none is. -/
theorem outcome_finishBlocks (hrunning : n.Running κ chainId) (hpeer : n.sync.peer = some peerId)
    (hpending : n.sync.pendingRequest = none) (hstate : n.sync.state = .syncing)
    (blocks : List Block) (io : Nat → StorageIo) :
    (((finishBlocks κ peerId blocks).run io n).1).SyncOutcome peerId ∧
      (((finishBlocks κ peerId blocks).run io n).1).peers = n.peers ∧
      (((finishBlocks κ peerId blocks).run io n).1).Running κ chainId := by
  obtain ⟨hnetwork, store, bs, hstore, hbs⟩ := hrunning
  obtain ⟨hview, hchain, hsync⟩ := frame_noteCursor (κ := κ) n blocks
  have hpeers : (n.noteCursor κ blocks).peers = n.peers := by
    rw [peers, peers, hview]
  have hrunning : (n.noteCursor κ blocks).Running κ chainId :=
    ⟨by rw [hview]; exact hnetwork, store, bs, hchain.trans hstore, hbs⟩
  have hnone : (n.noteCursor κ blocks).sync.pendingRequest = none := by
    rw [hsync]
    exact hpending
  rcases judgeSync_cases (n.noteCursor κ blocks) store.blockchain.tip.height
    (store.blockchain.tip.id κ) with hjudge | hjudge | hjudge
  · rw [run_finishBlocks hstore blocks io hjudge]
    have hdone : SyncState.complete ≠ .syncing := by decide
    exact ⟨.closed hnone hdone, hpeers, hrunning.congr rfl rfl⟩
  · rw [run_finishBlocks hstore blocks io hjudge]
    exact ⟨outcome_noteFailure _ _, hpeers, hrunning.congr rfl rfl⟩
  · rw [run_finishBlocks hstore blocks io hjudge, conclude]
    split_ifs with hempty
    · exact ⟨outcome_noteFailure _ _, hpeers, hrunning.congr rfl rfl⟩
    · have hsome : blocks ≠ [] := by simpa using hempty
      obtain ⟨last, -, hlocator⟩ := locatorTip_noteCursor (κ := κ) n hsome
      have hasking : (n.noteCursor κ blocks).Asking peerId (last.id κ) := by
        refine ⟨?_, hnone, ?_, hlocator⟩
        · rw [hsync]
          exact hpeer
        · rw [hsync]
          exact hstate
      obtain ⟨houtcome, hsame, hrun⟩ := outcome_sendSyncRequest hrunning hasking
        (fun k => io (k + 1 + 1 + 1))
      exact ⟨houtcome, hsame.trans hpeers, hrun⟩

theorem reaches_congr (h : m.peers = n.peers) (peerId : UInt64) :
    m.reaches peerId = n.reaches peerId := by
  rw [reaches, reaches, h]

/-- The response has been taken. -/
def noteTaken (n : NodeRuntime) : NodeRuntime :=
  { n with sync := { n.sync with pendingRequest := none } }

/-- The fields that a response is matched against. -/
structure Awaiting (n : NodeRuntime) (peerId : UInt64) (payload : Bytes) : Prop where
  chain : n.chainStore.isSome = true
  network : n.network.isSome = true
  size : blocksPayloadMinimumSize ≤ payload.length
  peer : n.sync.peer = some peerId
  pending : n.sync.pendingRequest = some (readU64Le payload 0)
  state : n.sync.state = .syncing

theorem run_handleBlocks_of_awaiting {payload : Bytes} (h : n.Awaiting peerId payload)
    (io : Nat → StorageIo) :
    (handleBlocks κ peerId payload).run io n
      = (match readBlocks κ payload with
          | none => failSync
          | some blocks => applyBlocks κ (finishBlocks κ peerId blocks) blocks : Task).run
          (fun k => io (k + 1)) n.noteTaken := by
  have htake : n.takeResponse peerId payload = (n.noteTaken, [], true) := by
    rw [takeResponse, if_neg]
    · rfl
    · simp [h.chain, h.network, h.peer, h.pending, h.state, h.size]
  rw [handleBlocks, Program.run_step, htake]
  rfl

theorem run_handleBlocks_of_not_awaiting {payload : Bytes} (h : ¬ n.Awaiting peerId payload)
    (io : Nat → StorageIo) : (handleBlocks κ peerId payload).run io n = (n, []) := by
  have htake : n.takeResponse peerId payload = (n, [], false) := by
    rw [takeResponse, if_pos]
    by_contra hnot
    simp only [not_or, not_not, ne_eq, not_lt] at hnot
    obtain ⟨hchain, hnetwork, hsize, hpeer, hpending, hstate⟩ := hnot
    exact h ⟨hchain, hnetwork, hsize, hpeer, hpending, hstate⟩
  rw [handleBlocks, Program.run_step, htake]
  rfl

/-- `handle_blocks`: nothing, or one of the two outcomes for the peer that answered. -/
theorem outcome_handleBlocks (hrunning : n.Running κ chainId) (peerId : UInt64)
    (payload : Bytes) (io : Nat → StorageIo) :
    (((handleBlocks κ peerId payload).run io n).1 = n ∨
      (n.sync.peer = some peerId ∧ n.sync.pendingRequest.isSome = true ∧
        (((handleBlocks κ peerId payload).run io n).1).SyncOutcome peerId)) ∧
      (((handleBlocks κ peerId payload).run io n).1).peers = n.peers ∧
      (((handleBlocks κ peerId payload).run io n).1).Running κ chainId := by
  by_cases hawaiting : n.Awaiting peerId payload
  · have hpending : n.sync.pendingRequest.isSome = true := by
      rw [hawaiting.pending]
      rfl
    rw [run_handleBlocks_of_awaiting hawaiting]
    have htaken : n.noteTaken.Running κ chainId := hrunning.congr rfl rfl
    cases readBlocks κ payload with
    | none =>
        exact ⟨Or.inr ⟨hawaiting.peer, hpending, outcome_noteFailure _ _⟩, rfl,
        htaken.congr rfl rfl⟩
    | some blocks =>
        dsimp only
        obtain ⟨store, hstore⟩ := Option.isSome_iff_exists.mp hawaiting.chain
        obtain ⟨l, io', sent, hframe, -, -, hrun⟩ := run_applyBlocks_absorb κ chainId
          (finishBlocks κ peerId blocks) blocks (fun k => io (k + 1)) n.noteTaken store hstore
        have hpeers : l.peers = n.peers := hframe.peers
        rw [hrun]
        split
        · have hsync := hframe.sync
          have hpeer : l.sync.peer = some peerId := by
            rw [hsync]
            exact hawaiting.peer
          obtain ⟨houtcome, hsame, hkept⟩ := outcome_finishBlocks (hframe.running htaken) hpeer
            (by rw [hsync]; rfl) (by rw [hsync]; exact hawaiting.state) blocks io'
          exact ⟨Or.inr ⟨hawaiting.peer, hpending, houtcome⟩, hsame.trans hpeers, hkept⟩
        · exact ⟨Or.inr ⟨hawaiting.peer, hpending, outcome_noteFailure _ _⟩, hpeers,
            (hframe.running htaken).congr rfl rfl⟩
  · rw [run_handleBlocks_of_not_awaiting hawaiting]
    exact ⟨Or.inl rfl, rfl, hrunning⟩

end NodeRuntime

end BBC
