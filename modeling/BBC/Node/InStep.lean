/-
# `BBC.Node.InStep` — the pool and the chain stay in step

The pending pool keeps its own copy of the account state.  `InStep` says that the
copy is the state of the active chain and that the pool satisfies its invariant for
it.  It holds when a node has started, and every section of every handler keeps it,
so it holds in whatever order the sections of concurrent handlers run.

A pending nonce is then never below the confirmed one, and the nonces on the active
chain all are: no pending transaction is in a block of the active chain.
-/
import BBC.Node.Sync
import BBC.Storage.BlockLog
import BBC.Chain.Branches
import BBC.Chain.Reorganization
import BBC.Mempool.Selection

namespace BBC

open Sections (Program Move System)

variable {κ : Crypto}

/-! ## What one `append` does to chain and state -/

/-- A chain whose active branch has not changed has not changed its state. -/
theorem Blockchain.state_append {c : Blockchain} {b : Block}
    (h : (c.append κ b).2.activeChainChanged = false) : (c.append κ b).1.state = c.state := by
  rcases append_cases κ c b with ⟨hsame, -⟩ | ⟨p, next, -, hnext⟩
  · rw [hsame]
  · rw [hnext] at h ⊢
    rw [choose] at h ⊢
    split
    · rfl
    · rename_i hheavier
      rw [if_neg hheavier] at h
      exact absurd h (by simp [activate])

namespace ChainStore

/-- The chain of a store moves as `Blockchain::append` says, or not at all. -/
theorem blockchain_append (κ : Crypto) (s : ChainStore) (b : Block) (io : AppendIo) :
    ((s.append κ b io).1.blockchain = s.blockchain ∧ (s.append κ b io).2.hasValue = false) ∨
      ((s.append κ b io).1.blockchain = (s.blockchain.append κ b).1 ∧
        (s.append κ b io).2 = { chainResult := (s.blockchain.append κ b).2 } ∧
        (s.blockchain.append κ b).2.hasValue = true) := by
  unfold append
  dsimp only
  by_cases hv : (s.blockchain.append κ b).2.hasValue = true
  · rw [if_neg (not_not.mpr hv)]
    split
    · exact Or.inl ⟨rfl, rfl⟩
    split
    · exact Or.inl ⟨rfl, rfl⟩
    split
    · exact Or.inl ⟨rfl, rfl⟩
    split
    · exact Or.inr ⟨rfl, rfl, hv⟩
    · rename_i hdatabase
      refine Or.inl ⟨rfl, ?_⟩
      rw [ChainStoreAppendResult.hasValue]
      split
      · rw [beq_eq_false_iff_ne.mpr hdatabase, Bool.false_and]
      · rfl
  · rw [if_pos hv]
    refine Or.inl ⟨rfl, ?_⟩
    rw [ChainStoreAppendResult.hasValue]
    simpa using hv

end ChainStore

namespace NodeRuntime

/-! ## The invariant -/

/-- Chain and pool of a full node describe one account state. -/
structure Stores (κ : Crypto) (chainId : UInt32) (chain : ChainStore) (pool : MempoolStore) :
    Prop where
  replayed : ∃ bs, chain.blockchain = Blockchain.replay κ chainId bs
  admitted : pool.mempool.Inv κ
  state : pool.mempool.chainState = chain.blockchain.state

/-- The node is a full node whose stores are in step. -/
def InStep (κ : Crypto) (chainId : UInt32) (n : NodeRuntime) : Prop :=
  ∃ chain pool, n.chainStore = some chain ∧ n.mempoolStore = some pool ∧
    Stores κ chainId chain pool

variable {chainId : UInt32}

/-- Only the two stores matter. -/
theorem InStep.congr {n m : NodeRuntime} (h : n.InStep κ chainId)
    (hchain : m.chainStore = n.chainStore) (hpool : m.mempoolStore = n.mempoolStore) :
    m.InStep κ chainId := by
  obtain ⟨chain, pool, hc, hp, hs⟩ := h
  exact ⟨chain, pool, hchain.trans hc, hpool.trans hp, hs⟩

/-! ## The two sections that change a store -/

/-- The section around `append`: the tip stays and with it the state and the pool, or the tip
rises and the pool is reconciled with the new state. -/
theorem appendSection_cases {n : NodeRuntime} {chain : ChainStore} {pool : MempoolStore}
    (hc : n.chainStore = some chain) (hp : n.mempoolStore = some pool)
    (hreplayed : ∃ bs, chain.blockchain = Blockchain.replay κ chainId bs) (block : Block)
    (io : StorageIo) :
    ∃ next, (n.appendSection κ block io).1.chainStore = some next ∧
      (∃ bs, next.blockchain = Blockchain.replay κ chainId bs) ∧
      ((next.blockchain.tip = chain.blockchain.tip ∧
          next.blockchain.state = chain.blockchain.state ∧
          (n.appendSection κ block io).1.mempoolStore = some pool) ∨
        (chain.blockchain.tip.height < next.blockchain.tip.height ∧
          ∃ detached, (n.appendSection κ block io).1.mempoolStore
            = some (pool.reconcileReorganization κ next.blockchain.state detached
                io.mempoolOk).1)) := by
  obtain ⟨bs, hbs⟩ := hreplayed
  rw [NodeRuntime.appendSection, hc]
  dsimp only
  rcases chain.blockchain_append κ block io.append with ⟨hsame, hnone⟩ | ⟨hnext, hresult, hv⟩
  · rw [if_neg (by rw [hnone]; exact fun hand => Bool.false_ne_true hand.1)]
    exact ⟨_, rfl, ⟨bs, hsame.trans hbs⟩, Or.inl ⟨by rw [hsame], by rw [hsame], hp⟩⟩
  · have hinv : chain.blockchain.Inv κ chainId := by
      rw [hbs]
      exact Blockchain.inv_replay κ chainId bs
    obtain ⟨p, next, ha⟩ := Blockchain.append_error_none_iff.mp (Blockchain.hasValue_iff.mp hv)
    have hflag := hinv.activeChainChanged_append ha
    have hgrown : ∃ ds, (chain.append κ block io.append).1.blockchain
        = Blockchain.replay κ chainId ds :=
      ⟨bs ++ [block], by rw [hnext, Blockchain.replay_concat, hbs]⟩
    by_cases hlt : chain.blockchain.tip.height < block.height
    · have hboth : (chain.append κ block io.append).2.hasValue = true ∧
          (chain.append κ block io.append).2.chainResult.activeChainChanged = true := by
        rw [hresult]
        exact ⟨hv, hflag.trans (decide_eq_true hlt)⟩
      rw [if_pos hboth, updateMempoolAfterChainChange]
      simp only [hp]
      refine ⟨_, rfl, hgrown, Or.inr ⟨?_, _, rfl⟩⟩
      rw [hnext, hinv.tip_of_lt ha hlt]
      exact hlt
    · have hsame : (chain.blockchain.append κ block).2.activeChainChanged = false :=
        hflag.trans (decide_eq_false hlt)
      have hboth : ¬ ((chain.append κ block io.append).2.hasValue = true ∧
          (chain.append κ block io.append).2.chainResult.activeChainChanged = true) := by
        rw [hresult, hsame]
        exact fun hand => Bool.false_ne_true hand.2
      rw [if_neg hboth]
      refine ⟨_, rfl, hgrown, Or.inl ⟨?_, ?_, hp⟩⟩
      · rw [hnext, hinv.tip_of_le ha (UInt64.not_lt.mp hlt)]
      · rw [hnext, Blockchain.state_append hsame]

theorem InStep.appendSection {n : NodeRuntime} (h : n.InStep κ chainId) (block : Block)
    {io : StorageIo} (hio : io.mempoolOk = true) :
    (n.appendSection κ block io).1.InStep κ chainId := by
  obtain ⟨chain, pool, hc, hp, hreplayed, hpool, hstate⟩ := h
  obtain ⟨next, hnext, hgrown, ⟨-, hsame, hkept⟩ | ⟨-, detached, hreconciled⟩⟩ :=
    appendSection_cases hc hp hreplayed block io
  · exact ⟨next, pool, hnext, hkept, hgrown, hpool, hstate.trans hsame.symm⟩
  · rw [hio, MempoolStore.reconcileReorganization_fst] at hreconciled
    have hinv := MempoolStore.inv_reconciled κ pool next.blockchain.state detached
    exact ⟨next, _, hnext, hreconciled, hgrown, hinv.1, hinv.2⟩

/-- The section around `add` changes what is pending and not what it is checked against. -/
theorem addSection_cases {n : NodeRuntime} {chain : ChainStore} {pool : MempoolStore}
    (hc : n.chainStore = some chain) (hp : n.mempoolStore = some pool)
    (hpool : pool.mempool.Inv κ) (t : SignedTransaction) (io : StorageIo) :
    ∃ next, (n.addSection κ t io).1.chainStore = some chain ∧
      (n.addSection κ t io).1.mempoolStore = some next ∧ next.mempool.Inv κ ∧
      next.mempool.chainState = pool.mempool.chainState := by
  rw [NodeRuntime.addSection, hc, hp]
  dsimp only
  rcases pool.add_cases κ t io.mempoolOk with ⟨hsame, -⟩ | ⟨hadd, -, -⟩
  · rw [hsame]
    exact ⟨pool, rfl, rfl, hpool, rfl⟩
  · refine ⟨_, rfl, rfl, ?_, ?_⟩
    · rw [hadd]
      exact hpool.add t
    · rw [hadd, Mempool.chainState_add]

theorem InStep.addSection {n : NodeRuntime} (h : n.InStep κ chainId) (t : SignedTransaction)
    (io : StorageIo) : (n.addSection κ t io).1.InStep κ chainId := by
  obtain ⟨chain, pool, hc, hp, hreplayed, hpool, hstate⟩ := h
  obtain ⟨next, hchain, hnext, hinv, hsame⟩ := addSection_cases hc hp hpool t io
  exact ⟨chain, next, hchain, hnext, hreplayed, hinv, hsame.trans hstate⟩

/-! ## What the rest of a handler sees -/

theorem startTip_of_some {n : NodeRuntime} {store : ChainStore} (h : n.chainStore = some store) :
    n.startTip κ = store.blockchain.tip := by
  rw [startTip, h]

theorem chainStore_appendSection {n : NodeRuntime} {store : ChainStore}
    (hstore : n.chainStore = some store)
    (block : Block) (io : StorageIo) :
    (n.appendSection κ block io).1.chainStore = some (store.append κ block io.append).1 ∧
      (n.appendSection κ block io).1.network = n.network ∧
      (n.appendSection κ block io).2.2.appended = (store.append κ block io.append).2 := by
  rw [appendSection, hstore]
  dsimp only
  split
  · rw [updateMempoolAfterChainChange]
    split <;> exact ⟨rfl, rfl, rfl⟩
  · exact ⟨rfl, rfl, rfl⟩

/-! ## Every handler -/

/-- Configuration, stores and peers are as before. -/
structure Untouched (n m : NodeRuntime) : Prop where
  config : m.config = n.config
  chain : m.chainStore = n.chainStore
  pool : m.mempoolStore = n.mempoolStore
  network : m.network.isSome = n.network.isSome
  peers : m.peers = n.peers

theorem Untouched.refl (n : NodeRuntime) : Untouched n n := ⟨rfl, rfl, rfl, rfl, rfl⟩

theorem untouched_noteTip (n : NodeRuntime) (height : UInt64) (tip : Hash256) :
    Untouched n (n.noteTip height tip) := by
  unfold noteTip
  split <;> exact ⟨rfl, rfl, rfl, rfl, rfl⟩

theorem untouched_updateTip (n : NodeRuntime) (height : UInt64) (tip : Hash256) :
    Untouched n (n.updateTip height tip) := by
  refine ⟨rfl, rfl, rfl, Option.isSome_map, ?_⟩
  rw [peers, peers, updateTip]
  cases n.network with
  | none => rfl
  | some view => rfl

theorem untouched_observeBlock (κ : Crypto) (n : NodeRuntime) (block : Block) :
    Untouched n (n.observeBlock κ block) := by
  unfold observeBlock
  dsimp only
  split <;> exact ⟨rfl, rfl, rfl, rfl, rfl⟩

theorem untouched_takeSyncRequest (n : NodeRuntime) (peerId : UInt64) :
    Untouched n (n.takeSyncRequest peerId).1 := by
  unfold takeSyncRequest
  split
  · exact .refl n
  · dsimp only
    split <;> exact ⟨rfl, rfl, rfl, rfl, rfl⟩

theorem untouched_noteSynced (n : NodeRuntime) (outcome : Option AppendOutcome) :
    Untouched n (n.noteSynced outcome) := by
  unfold noteSynced
  split
  · exact .refl n
  · split
    · exact untouched_updateTip n _ _
    · exact .refl n

theorem untouched_judgeSync (n : NodeRuntime) (height : UInt64) (tip : Hash256) :
    Untouched n (n.judgeSync height tip).1 := by
  unfold judgeSync
  split
  · split
    · split <;> exact ⟨rfl, rfl, rfl, rfl, rfl⟩
    · split <;> exact .refl n
  · exact .refl n

/-- What a response carries has been decoded. -/
theorem wellFormed_of_decodeBlocks {payload : Bytes} (count : Nat) :
    ∀ {offset : Nat} {out : List Block × Nat}, decodeBlocks κ payload count offset = some out →
      ∀ block ∈ out.1, block.WellFormed κ := by
  induction count with
  | zero =>
      intro offset out h
      cases h
      exact fun _ hmem => absurd hmem List.not_mem_nil
  | succ count ih =>
      intro offset out h
      rw [decodeBlocks] at h
      split at h
      · cases h
      dsimp only at h
      split at h
      · cases h
      split at h
      · cases h
      rename_i block hdecoded
      split at h
      · cases h
      rename_i blocks last hrest
      cases h
      intro other hother
      rcases List.mem_cons.mp hother with rfl | hother
      · exact Block.wellFormed_of_deserializeBlock hdecoded
      · exact ih hrest other hother

theorem wellFormed_of_readBlocks {payload : Bytes} {blocks : List Block}
    (h : readBlocks κ payload = some blocks) : ∀ block ∈ blocks, block.WellFormed κ := by
  rw [readBlocks] at h
  split at h
  · cases h
  split at h
  · cases h
  split at h
  · cases h
  rename_i hdecoded
  split at h
  · cases h
  · cases h
    exact wellFormed_of_decodeBlocks _ hdecoded

/-- A property of stores and peers that the two sections above keep for decoded blocks
and for transactions with `T`, as long as the storage behaves as `P` says. -/
structure Stable (κ : Crypto) (P : StorageIo → Prop) (T : SignedTransaction → Prop)
    (I : NodeRuntime → Prop) : Prop where
  congr : ∀ {n m : NodeRuntime}, Untouched n m → I n → I m
  append : ∀ {n : NodeRuntime} {io : StorageIo} {block : Block}, block.WellFormed κ → P io →
    I n → I (n.appendSection κ block io).1
  verified : ∀ {transaction : SignedTransaction}, transaction.Verified κ → T transaction
  add : ∀ {n : NodeRuntime} {io : StorageIo} {transaction : SignedTransaction}, T transaction →
    P io → I n → I (n.addSection κ transaction io).1

namespace Stable

variable {P : StorageIo → Prop} {T : SignedTransaction → Prop} {I : NodeRuntime → Prop}
  (hI : Stable κ P T I)

include hI

theorem step {α : Type} {act : NodeRuntime → StorageIo → NodeRuntime × List Output × α}
    {next : α → Task} (hact : ∀ n io, Untouched n (act n io).1)
    (hnext : ∀ a, (next a).Keeps P I) : (Program.step act next).Keeps P I :=
  Program.keeps_step (fun n io _ h => hI.congr (hact n io) h) hnext

theorem last {act : NodeRuntime → StorageIo → NodeRuntime × List Output}
    (hact : ∀ n io, Untouched n (act n io).1) : (Program.last act).Keeps P I :=
  Program.keeps_last fun n io _ h => hI.congr (hact n io) h

theorem keeps_finishBlock (peerId : UInt64) (block : Block) (submission : Bool)
    (outcome : AppendOutcome) :
    (finishBlock κ peerId block submission outcome).Keeps P I := by
  unfold finishBlock
  split
  · exact hI.last fun n _ => .refl n
  split
  · exact hI.last fun n _ => .refl n
  · refine hI.step (fun n _ => untouched_noteTip n _ _) fun _ => ?_
    refine hI.step (fun n _ => untouched_updateTip n _ _) fun _ => ?_
    exact hI.last fun n _ => .refl n

theorem keeps_handleBlock (peerId : UInt64) (payload : Bytes) (submission : Bool) :
    (handleBlock κ peerId payload submission).Keeps P I := by
  unfold handleBlock
  split
  · exact hI.last fun n _ => .refl n
  · rename_i block hdecoded
    have hblock := Block.wellFormed_of_deserializeBlock hdecoded
    refine hI.step (fun n _ => .refl n) fun full => ?_
    split
    · exact hI.last fun n _ => untouched_observeBlock κ n block
    · exact Program.keeps_step (fun n io hio h => hI.append hblock hio h)
        (hI.keeps_finishBlock peerId block submission)

theorem keeps_foundLocally (mined : Block) : (foundLocally κ mined).Keeps P I := by
  refine hI.step (fun _ _ => ⟨rfl, rfl, rfl, rfl, rfl⟩) fun _ => ?_
  refine (hI.keeps_handleBlock 0 mined.serialize false).seq ?_
  refine hI.step (fun n _ => .refl n) fun accepted => ?_
  exact hI.last fun _ _ => ⟨rfl, rfl, rfl, rfl, rfl⟩

theorem keeps_handleTransaction (peerId : UInt64) (payload : Bytes) (submission : Bool) :
    (handleTransaction κ peerId payload submission).Keeps P I := by
  refine hI.step (fun n _ => .refl n) fun context => ?_
  split
  · exact Program.keeps_done
  split
  · exact hI.last fun n _ => .refl n
  · rename_i value hdecoded
    have hvalue := hI.verified (SignedTransaction.serialize_of_deserialize κ hdecoded).2
    split
    · exact hI.last fun n _ => .refl n
    · refine Program.keeps_step (fun n io hio h => hI.add hvalue hio h) fun added => ?_
      cases added with
      | none => exact Program.keeps_done
      | some added =>
          refine hI.last fun n _ => ?_
          split <;> exact .refl n

theorem keeps_sendSubmission (t : SignedTransaction) (peerId : UInt64) :
    (sendSubmission t peerId).Keeps P I := by
  refine hI.step (fun n _ => .refl n) fun sent => ?_
  split
  · exact Program.keeps_done
  · exact hI.last fun _ _ => ⟨rfl, rfl, rfl, rfl, rfl⟩

theorem keeps_submitToFullNode (t : SignedTransaction) (fullNode : Option PeerStatus) :
    (submitToFullNode κ t fullNode).Keeps P I := by
  cases fullNode with
  | none => exact Program.keeps_done
  | some fullNode =>
      refine hI.step (fun n _ => ?_) fun noted => ?_
      · rw [noteSubmission]
        split
        · exact .refl n
        · exact ⟨rfl, rfl, rfl, rfl, rfl⟩
      split
      · exact hI.keeps_sendSubmission t _
      · exact Program.keeps_done

theorem keeps_submitSignedTransaction {t : SignedTransaction} (ht : T t) :
    (submitSignedTransaction κ t).Keeps P I := by
  refine hI.step (fun n _ => .refl n) fun context => ?_
  split
  · exact Program.keeps_done
  refine Program.keeps_step (fun n io hio h => hI.add ht hio h) fun added => ?_
  cases added with
  | some added =>
      dsimp only
      split
      · exact Program.keeps_done
      · exact hI.step (fun _ _ => ⟨rfl, rfl, rfl, rfl, rfl⟩) fun _ => hI.last fun n _ => .refl n
  | none => exact hI.keeps_submitToFullNode t _

/-! Synchronization -/

theorem keeps_failSync : failSync.Keeps P I := hI.last fun _ _ => ⟨rfl, rfl, rfl, rfl, rfl⟩

theorem keeps_sendSyncRequest (peerId : UInt64) : (sendSyncRequest κ peerId).Keeps P I := by
  refine hI.step (fun n _ => .refl n) fun running => ?_
  split
  · exact Program.keeps_done
  refine hI.step (fun n _ => untouched_takeSyncRequest n peerId) fun request => ?_
  cases request with
  | none => exact Program.keeps_done
  | some request =>
      refine hI.step (fun n _ => .refl n) fun locator => ?_
      split
      · exact hI.keeps_failSync
      refine hI.step (fun n _ => .refl n) fun sent => ?_
      split
      · exact Program.keeps_done
      · exact hI.keeps_failSync

theorem keeps_maybeStartSync (peerId : UInt64) : (maybeStartSync κ peerId).Keeps P I := by
  refine hI.step (fun n _ => .refl n) fun found => ?_
  cases found with
  | none => exact Program.keeps_done
  | some peer =>
      refine hI.step (fun n _ => .refl n) fun tip => ?_
      cases tip with
      | none => exact Program.keeps_done
      | some tip =>
          dsimp only
          split
          · exact Program.keeps_done
          split
          · refine hI.last fun n _ => ?_
            split <;> exact ⟨rfl, rfl, rfl, rfl, rfl⟩
          · refine hI.step (fun n _ => ?_) fun started => ?_
            · split <;> exact ⟨rfl, rfl, rfl, rfl, rfl⟩
            split
            · exact hI.keeps_sendSyncRequest peerId
            · exact Program.keeps_done

theorem keeps_handleGetBlocks (peerId : UInt64) (payload : Bytes) :
    (handleGetBlocks κ peerId payload).Keeps P I := by
  refine hI.last fun n _ => ?_
  split
  · exact .refl n
  split <;> exact .refl n

theorem keeps_storeSection {block : Block} (hblock : block.WellFormed κ) {n : NodeRuntime}
    {io : StorageIo} (hio : P io) (h : I n) : I (n.storeSection κ block io).1 := by
  unfold storeSection
  split
  · exact h
  · exact hI.append hblock hio h

theorem keeps_applyBlocks {next : Task} (hnext : next.Keeps P I) {blocks : List Block}
    (hblocks : ∀ block ∈ blocks, block.WellFormed κ) : (applyBlocks κ next blocks).Keeps P I := by
  induction blocks with
  | nil => exact hnext
  | cons block rest ih =>
      have hblock := hblocks block List.mem_cons_self
      refine Program.keeps_step (fun n io hio h => hI.keeps_storeSection hblock hio h)
        fun outcome => ?_
      split
      · exact hI.keeps_failSync
      refine hI.step (fun n _ => untouched_noteSynced n outcome) fun _ => ?_
      refine hI.step (fun _ _ => ⟨rfl, rfl, rfl, rfl, rfl⟩) fun _ => ih ?_
      exact fun other hother => hblocks other (List.mem_cons_of_mem _ hother)

theorem keeps_finishBlocks (peerId : UInt64) (blocks : List Block) :
    (finishBlocks κ peerId blocks).Keeps P I := by
  refine hI.step (fun n _ => ?_) fun _ => ?_
  · dsimp only
    split <;> exact ⟨rfl, rfl, rfl, rfl, rfl⟩
  refine hI.step (fun n _ => .refl n) fun tip => ?_
  cases tip with
  | none => exact Program.keeps_done
  | some tip =>
      refine hI.step (fun n _ => untouched_judgeSync n _ _) fun verdict => ?_
      cases verdict with
      | complete => exact Program.keeps_done
      | invalidTip => exact hI.keeps_failSync
      | continue_ =>
          dsimp only
          split
          · exact hI.keeps_failSync
          · exact hI.keeps_sendSyncRequest peerId

theorem keeps_handleBlocks (peerId : UInt64) (payload : Bytes) :
    (handleBlocks κ peerId payload).Keeps P I := by
  refine hI.step (fun n _ => ?_) fun matched => ?_
  · unfold takeResponse
    split <;> exact ⟨rfl, rfl, rfl, rfl, rfl⟩
  split
  · exact Program.keeps_done
  split
  · exact hI.keeps_failSync
  · rename_i hread
    exact hI.keeps_applyBlocks (hI.keeps_finishBlocks peerId _) (wellFormed_of_readBlocks hread)

end Stable

/-! ## Runs -/

/-- What starts a handler of a full node. -/
inductive Call where
  | block (peerId : UInt64) (payload : Bytes)
  | blockSubmit (peerId : UInt64) (payload : Bytes)
  | blocks (peerId : UInt64) (payload : Bytes)
  | getBlocks (peerId : UInt64) (payload : Bytes)
  | transaction (peerId : UInt64) (payload : Bytes)
  | transactionSubmit (peerId : UInt64) (payload : Bytes)
  /-- A handshake has completed. -/
  | handshake (peerId : UInt64)
  /-- A transaction is submitted through the control interface. -/
  | submit (transaction : SignedTransaction)
  /-- The mining thread has found a block. -/
  | mined (block : Block)
  /-- Sessions have been opened or closed. -/
  | peers (peers : List PeerStatus)

/-- The handler that a call runs. -/
def Call.task (κ : Crypto) : Call → Task
  | .block peerId payload => handleBlock κ peerId payload false
  | .blockSubmit peerId payload => handleBlock κ peerId payload true
  | .blocks peerId payload => handleBlocks κ peerId payload
  | .getBlocks peerId payload => handleGetBlocks κ peerId payload
  | .transaction peerId payload => handleTransaction κ peerId payload false
  | .transactionSubmit peerId payload => handleTransaction κ peerId payload true
  | .handshake peerId => maybeStartSync κ peerId
  | .submit value => submitSignedTransaction κ value
  | .mined found => foundLocally κ found
  | .peers snapshot => .last fun n _ => (n.setPeers snapshot, [])

/-- A stable property is kept by every handler; for a submitted transaction and for a new
snapshot of the peers it has to be asked for. -/
theorem Stable.keeps_call {P : StorageIo → Prop} {T : SignedTransaction → Prop}
    {I : NodeRuntime → Prop} (hI : Stable κ P T I) (call : Call)
    (hsubmit : ∀ t, call = .submit t → T t)
    (hpeers : ∀ snapshot, call = .peers snapshot → ∀ n, I n → I (n.setPeers snapshot)) :
    (call.task κ).Keeps P I := by
  cases call with
  | block peerId payload => exact hI.keeps_handleBlock peerId payload false
  | blockSubmit peerId payload => exact hI.keeps_handleBlock peerId payload true
  | blocks peerId payload => exact hI.keeps_handleBlocks peerId payload
  | getBlocks peerId payload => exact hI.keeps_handleGetBlocks peerId payload
  | transaction peerId payload => exact hI.keeps_handleTransaction peerId payload false
  | transactionSubmit peerId payload => exact hI.keeps_handleTransaction peerId payload true
  | handshake peerId => exact hI.keeps_maybeStartSync peerId
  | submit t => exact hI.keeps_submitSignedTransaction (hsubmit t rfl)
  | mined block => exact hI.keeps_foundLocally block
  | peers snapshot => exact Program.keeps_last fun n _ _ h => hpeers snapshot rfl n h

/-- The pool's database is written. -/
def StorageIo.Committed (io : StorageIo) : Prop := io.mempoolOk = true

theorem stable_inStep :
    Stable κ StorageIo.Committed (fun _ => True) (InStep κ chainId) where
  congr h hn := hn.congr h.chain h.pool
  append _ hio hn := hn.appendSection _ hio
  verified _ := trivial
  add _ _ hn := hn.addSection _ _

theorem keeps_call (call : Call) :
    (call.task κ).Keeps StorageIo.Committed (InStep κ chainId) :=
  stable_inStep.keeps_call call (fun _ _ => trivial) fun _ _ _ hn => hn.congr rfl rfl

/-! ## The start -/

end NodeRuntime

namespace ChainStore

variable {chainId : UInt32}

/-- A scan that ends has only appended decoded blocks. -/
theorem appendAll_of_scan {io : OpenIo} {file : Bytes} (fuel : Nat) :
    ∀ {offset : Nat} {chain : Blockchain} {records : List (Nat × Nat)}
      {out : Blockchain × List (Nat × Nat)},
      scan κ chainId io file fuel offset chain records = .ok out →
      ∃ bs, (∀ b ∈ bs, b.WellFormed κ) ∧ out.1 = chain.appendAll κ bs := by
  have hempty : ∀ b ∈ ([] : List Block), b.WellFormed κ := fun _ hb => absurd hb List.not_mem_nil
  induction fuel with
  | zero =>
      intro offset chain records out h
      cases h
      exact ⟨[], hempty, rfl⟩
  | succ fuel ih =>
      intro offset chain records out h
      rw [scan] at h
      split at h
      · cases h
        exact ⟨[], hempty, rfl⟩
      split at h
      · cases h
      rename_i block size hread
      split at h
      · cases h
      rename_i next hreplay
      obtain ⟨bs, hwell, hbs⟩ := ih h
      rw [replayRecord] at hreplay
      split at hreplay
      · split at hreplay
        · cases hreplay
        · cases hreplay
          exact ⟨bs, hwell, hbs⟩
      · dsimp only at hreplay
        split at hreplay
        · cases hreplay
          have hblock : block.WellFormed κ :=
            Block.wellFormed_of_deserializeBlock (readRecord_ok hread).2.2.decoded
          exact ⟨block :: bs, List.forall_mem_cons.mpr ⟨hblock, hwell⟩, hbs⟩
        · cases hreplay

theorem replayed_of_openStore {io : OpenIo} {file : Option Bytes} {s : ChainStore}
    (h : openStore κ chainId io file = .ok s) :
    ∃ bs, (∀ b ∈ bs, b.WellFormed κ) ∧ s.blockchain = Blockchain.replay κ chainId bs := by
  cases file with
  | none => cases h
  | some file =>
      rw [openStore] at h
      split at h
      · cases h
      split at h
      · cases h
      split at h
      · cases h
      rename_i chain records hscan
      dsimp only at h
      split_ifs at h
      cases h
      exact appendAll_of_scan _ hscan

theorem replayed_of_initializeStore {files : InitializeIo} {io : OpenIo} {s : ChainStore}
    (h : initializeStore κ chainId files io = .ok s) :
    ∃ bs, (∀ b ∈ bs, b.WellFormed κ) ∧ s.blockchain = Blockchain.replay κ chainId bs := by
  rw [initializeStore] at h
  split_ifs at h
  exact replayed_of_openStore h

end ChainStore

namespace NodeRuntime

/-- A node starts with its configuration and with no network, request or worker. -/
theorem fresh_initializeNode {config : RuntimeConfig} {directory : DataDirectory} {io : StartIo}
    {n : NodeRuntime} (h : initializeNode κ config directory io = some n) :
    n.config = config ∧ n.network = none ∧ n.mining = {} ∧ n.sync = {} := by
  rw [initializeNode] at h
  by_cases hreward : config.hasRole .miner = true ∧ config.rewardAddress.isNone = true
  · rw [if_pos hreward] at h
    cases h
  rw [if_neg hreward] at h
  by_cases hrole : config.hasRole .fullNode = true
  · rw [if_neg (not_not.mpr hrole)] at h
    dsimp only at h
    split at h
    · cases h
    split at h
    · cases h
    · cases h
      exact ⟨rfl, rfl, rfl, rfl⟩
  · rw [if_pos hrole] at h
    cases h
    exact ⟨rfl, rfl, rfl, rfl⟩

/-- The stores of a full node that has started. -/
theorem stores_initializeNode {config : RuntimeConfig} {directory : DataDirectory} {io : StartIo}
    {n : NodeRuntime} (hrole : config.hasRole .fullNode = true)
    (h : initializeNode κ config directory io = some n) :
    ∃ chain pool bs, n.chainStore = some chain ∧ n.mempoolStore = some pool ∧
      (∀ b ∈ bs, b.WellFormed κ) ∧
      chain.blockchain = Blockchain.replay κ config.chainId bs ∧
      MempoolStore.openStore κ io.mempool directory.mempoolRows chain.blockchain.state
        = .ok pool := by
  unfold initializeNode at h
  by_cases hreward : config.hasRole .miner = true ∧ config.rewardAddress.isNone = true
  · rw [if_pos hreward] at h
    cases h
  rw [if_neg hreward, if_neg (not_not.mpr hrole)] at h
  dsimp only at h
  split at h
  · cases h
  rename_i chain hopened
  split at h
  · cases h
  rename_i pool hpool
  cases h
  have hreplayed : ∃ bs, (∀ b ∈ bs, b.WellFormed κ) ∧
      chain.blockchain = Blockchain.replay κ config.chainId bs := by
    split at hopened
    · exact ChainStore.replayed_of_openStore hopened
    · exact ChainStore.replayed_of_initializeStore hopened
  obtain ⟨bs, hwell, hbs⟩ := hreplayed
  exact ⟨chain, pool, bs, rfl, rfl, hwell, hbs, hpool⟩

/-- A full node that has started is in step. -/
theorem inStep_initializeNode {config : RuntimeConfig} {directory : DataDirectory} {io : StartIo}
    {n : NodeRuntime} (hrole : config.hasRole .fullNode = true)
    (h : initializeNode κ config directory io = some n) : n.InStep κ config.chainId := by
  obtain ⟨chain, pool, bs, hc, hp, -, hbs, hpool⟩ := stores_initializeNode hrole h
  obtain ⟨hinv, hstate⟩ := MempoolStore.inv_openStore hpool
  exact ⟨chain, pool, hc, hp, ⟨bs, hbs⟩, hinv, hstate⟩

theorem InStep.startNetwork {chainId : UInt32} {n : NodeRuntime} (h : n.InStep κ chainId) :
    (n.startNetwork κ).InStep κ chainId := by
  refine h.congr ?_ ?_
  · unfold NodeRuntime.startNetwork
    split <;> rfl
  · unfold NodeRuntime.startNetwork
    split <;> rfl

/-! ## What being in step means -/

/-- A pending nonce is not below the confirmed one. -/
theorem nextNonce_le_of_mem {m : Mempool} (h : m.Inv κ) {t : SignedTransaction}
    (ht : t ∈ m.transactions) :
    (m.chainState.account (t.sender κ)).nextNonce ≤ t.accountNonce := by
  have hmem : t.accountNonce.toNat ∈ noncesOf κ (t.sender κ).hash m.transactions :=
    List.mem_map.mpr ⟨t, List.mem_filter.mpr ⟨ht, decide_eq_true rfl⟩, rfl⟩
  rw [h.nonces] at hmem
  exact UInt64.le_iff_toNat_le.mpr (List.mem_range'_1.mp hmem).1

/-- A nonce on the active chain is below the confirmed one. -/
theorem lt_nextNonce_of_mem {chainId : UInt32} {c : Blockchain} (h : c.Inv κ chainId) {b : Block}
    (hb : b ∈ c.blocks) {t : SignedTransaction} (ht : t ∈ b.transactions) :
    t.accountNonce < (c.state.account (t.sender κ)).nextNonce := by
  have hbranch : c.blocks = c.branch c.tipIndex := by
    rw [h.blocks, h.activeIndices]
    rfl
  have hall : t ∈ Blockchain.transactionsOf (c.branch c.tipIndex) := by
    rw [← hbranch]
    exact List.mem_flatMap.mpr ⟨b, hb, ht⟩
  have hmem : t.accountNonce.toNat ∈ noncesOf κ (t.sender κ).hash
      (Blockchain.transactionsOf (c.branch c.tipIndex)) :=
    List.mem_map.mpr ⟨t, List.mem_filter.mpr ⟨hall, decide_eq_true rfl⟩, rfl⟩
  rw [h.toTree.noncesOf_branch _ _ h.tipIndex_lt, ← h.state] at hmem
  exact UInt64.lt_iff_toNat_lt.mpr (List.mem_range.mp hmem)

/-- However the handlers of a full node interleave, as long as the pool's database is
written: the pool's state is the active chain's, no pending nonce is below the
confirmed one, and no pending transaction is in a block of the active chain. -/
theorem pool_in_step (κ : Crypto) (config : RuntimeConfig)
    (hrole : config.hasRole .fullNode = true) (directory : DataDirectory) (io : StartIo)
    (start : NodeRuntime) (hstart : initializeNode κ config directory io = some start)
    (moves : List (Move Call StorageIo))
    (hcommitted : ∀ k io, Move.advance k io ∈ moves → io.mempoolOk = true) :
    let n := (System.run (Call.task κ) ⟨start.startNetwork κ, []⟩ moves).state
    ∃ chain pool, n.chainStore = some chain ∧ n.mempoolStore = some pool ∧
      pool.mempool.chainState = chain.blockchain.state ∧
      (∀ t ∈ pool.mempool.transactions,
        (chain.blockchain.state.account (t.sender κ)).nextNonce ≤ t.accountNonce) ∧
      (∀ t ∈ pool.mempool.transactions, ∀ b ∈ chain.blockchain.blocks, t ∉ b.transactions) := by
  intro n
  have hinit : (start.startNetwork κ).InStep κ config.chainId :=
    (inStep_initializeNode hrole hstart).startNetwork
  have hn : n.InStep κ config.chainId :=
    System.keeps keeps_call moves hinit (fun _ hp => absurd hp List.not_mem_nil) hcommitted
  obtain ⟨chain, pool, hc, hp, ⟨bs, hbs⟩, hpool, hstate⟩ := hn
  have hnonces : ∀ t ∈ pool.mempool.transactions,
      (chain.blockchain.state.account (t.sender κ)).nextNonce ≤ t.accountNonce := by
    intro t ht
    rw [← hstate]
    exact nextNonce_le_of_mem hpool ht
  refine ⟨chain, pool, hc, hp, hstate, hnonces, ?_⟩
  intro t ht b hb htb
  have hinv : chain.blockchain.Inv κ config.chainId := by
    rw [hbs]
    exact Blockchain.inv_replay κ config.chainId bs
  have hle := UInt64.le_iff_toNat_le.mp (hnonces t ht)
  have hlt := UInt64.lt_iff_toNat_lt.mp (lt_nextNonce_of_mem hinv hb htb)
  omega

/-- A full node on the regression-test network. -/
def regtestFullNode : RuntimeConfig where
  networkProfile := .regtest
  roles := [.fullNode]

/-- It starts in an empty directory. -/
theorem initializeNode_regtestFullNode :
    initializeNode reference regtestFullNode {} {}
      = some { config := regtestFullNode
               chainStore := some ChainStore.genesisStore
               mempoolStore := some ⟨⟨{}, []⟩, []⟩ } := by
  have hchain : ChainStore.initializeStore reference regtestFullNode.chainId {} {}
      = .ok ChainStore.genesisStore := by
    decide +kernel
  unfold initializeNode
  rw [if_neg (by decide), if_neg (by decide)]
  dsimp only
  rw [hchain]
  rfl

/-- A node takes the first block and the payment, and then the block with the payment while
the rewrite of `mempool.db` has the given outcome. -/
def confirmedPayment (outcome : Bool) : List (Move Call StorageIo) :=
  [.start (.block 1 minedFirst.serialize), .advance 0 {}, .advance 0 {},
    .start (.submit minerPayment), .advance 1 {}, .advance 1 {},
    .start (.block 1 minedPayment.serialize), .advance 2 {}, .advance 2 { mempoolOk := outcome }]

/-- The payment is in the pool before its block arrives, and in the block afterwards. -/
theorem payment_confirmed :
    let m : System NodeRuntime StorageIo Output :=
      ⟨NodeRuntime.startNetwork reference
        { config := regtestFullNode
          chainStore := some ChainStore.genesisStore
          mempoolStore := some ⟨⟨{}, []⟩, []⟩ }, []⟩
    let before := (m.run (Call.task reference) ((confirmedPayment true).take 6)).state
    let after := (m.run (Call.task reference) (confirmedPayment true)).state
    (before.mempoolStore.map fun pool => pool.mempool.transactions) = some [minerPayment] ∧
      (after.mempoolStore.map fun pool => pool.mempool.transactions) = some [] ∧
      (after.chainStore.map fun chain => chain.blockchain.tip) = some minedPayment := by
  decide +kernel

theorem pool_in_step_mined :
    ∃ start, initializeNode reference regtestFullNode {} {} = some start ∧
      let n := (System.run (Call.task reference) ⟨start.startNetwork reference, []⟩
        (confirmedPayment true)).state
      ∃ chain pool, n.chainStore = some chain ∧ n.mempoolStore = some pool ∧
        chain.blockchain.tip = minedPayment ∧
        pool.mempool.chainState = chain.blockchain.state ∧
        (∀ t ∈ pool.mempool.transactions,
          (chain.blockchain.state.account (t.sender reference)).nextNonce ≤ t.accountNonce) ∧
        (∀ t ∈ pool.mempool.transactions, ∀ b ∈ chain.blockchain.blocks, t ∉ b.transactions) := by
  refine ⟨_, initializeNode_regtestFullNode, ?_⟩
  obtain ⟨chain, pool, hc, hp, hstep⟩ := pool_in_step reference regtestFullNode (by decide) {} {} _
    initializeNode_regtestFullNode (confirmedPayment true) (by
      intro k io hmem
      simp only [confirmedPayment, List.mem_cons, List.not_mem_nil, or_false,
        reduceCtorEq, false_or,
        Move.advance.injEq] at hmem
      rcases hmem with ⟨-, rfl⟩ | ⟨-, rfl⟩ | ⟨-, rfl⟩ | ⟨-, rfl⟩ | ⟨-, rfl⟩ | ⟨-, rfl⟩ <;> rfl)
  refine ⟨chain, pool, hc, hp, ?_, hstep⟩
  have htip := payment_confirmed.2.2
  rw [hc] at htip
  exact Option.some.inj htip

end NodeRuntime

end BBC
