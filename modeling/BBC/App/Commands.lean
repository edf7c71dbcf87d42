/-
# `BBC.App.Commands` — the commands that write a data directory

`src/app/chain_commands.cpp`, `src/app/mempool_commands.cpp` and `src/app/block_commands.cpp`.
A command is a process of its own: it opens the files, works and ends.

    chain init              the log of Genesis
    chain add               one more record, and the pool reconciled with it
    mempool add             one more row
    block candidate         a block file made of the tip and the pool
    block mine              the same block with a nonce that solves it

A node that runs does the first of these once and the second and third for every message it
takes.  With an undisturbed storage a sequence of `chain add` and `mempool add` leaves the
directory that one node leaves which is handed the same blocks and transactions
(`commands_refine_node`).
-/
import BBC.App.Restart
import BBC.Node.StaleWork
import BBC.Storage.Reconciliation
import BBC.Storage.SavedFile

namespace BBC

open Sections (Program)
open NodeRuntime (DataDirectory StartIo OnDisk InStep)

variable {κ : Crypto}

/-! ## The commands -/

/-- What the outside world does to one `chain add`. -/
structure AddBlockIo where
  chain : OpenIo := {}
  file : LoadIo := {}
  append : AppendIo := {}
  mempool : MempoolOpenIo := {}
  rewriteOk : Bool := true

/-- What `chain add` reports. -/
inductive AddBlockResult where
  | chainStore (error : ChainStoreError)
  | load (error : FileError BlockError)
  | persist (error : ChainStoreError)
  | refused (result : AppendResult)
  /-- The block is stored; `warning` is a pool that could not be revalidated. -/
  | stored (activeChainChanged : Bool) (warning : MempoolStoreError)

/-- `initialize_chain_store`: what it leaves in the directory and whether it succeeds. -/
def initializeChainStore (κ : Crypto) (directory : DataDirectory) (io : StartIo) :
    DataDirectory × Bool :=
  match ChainStore.initializeStore κ coreChainId
    { io.files with existing := io.files.existing || directory.blocksFile.isSome } io.chain with
  | .error _ => (directory, false)
  | .ok store => ({ directory with blocksFile := some store.blocksFile }, true)

/-- `add_block_to_store`. -/
def addBlockToStore (κ : Crypto) (directory : DataDirectory) (io : AddBlockIo)
    (file : Option Bytes) : DataDirectory × AddBlockResult :=
  match ChainStore.openStore κ coreChainId io.chain directory.blocksFile with
  | .error e => (directory, .chainStore e)
  | .ok chain =>
      match loadBlock κ io.file file with
      | .error e => (directory, .load e)
      | .ok block =>
          let previousState := chain.blockchain.state
          let appended := chain.append κ block io.append
          let directory := { directory with blocksFile := some appended.1.blocksFile }
          if appended.2.storageError ≠ .none then (directory, .persist appended.2.storageError)
          else if ¬ appended.2.chainResult.hasValue then
            (directory, .refused appended.2.chainResult)
          else
            match MempoolStore.openStore κ io.mempool directory.mempoolRows previousState with
            | .error e => (directory, .stored appended.2.chainResult.activeChainChanged e)
            | .ok pool =>
                let reconciled := pool.reconcileReorganization κ appended.1.blockchain.state
                  appended.2.chainResult.detachedBlocks io.rewriteOk
                ({ directory with mempoolRows := reconciled.1.rows },
                  .stored appended.2.chainResult.activeChainChanged reconciled.2.error)

/-! ## What one command does -/

theorem loadBlock_some (κ : Crypto) (payload : Bytes) :
    (∃ e, deserializeBlock κ payload = .error e ∧ ∃ e', loadBlock κ {} (some payload) = .error e') ∨
      ∃ b, deserializeBlock κ payload = .ok b ∧ loadBlock κ {} (some payload) = .ok b := by
  cases hdecoded : deserializeBlock κ payload with
  | error e =>
      refine Or.inl ⟨e, rfl, ?_⟩
      cases hload : loadBlock κ {} (some payload) with
      | error e' => exact ⟨e', rfl⟩
      | ok b =>
          obtain ⟨encoded, hencoded, hagain⟩ := decoded_of_loadSized hload
          cases hencoded
          rw [hdecoded] at hagain
          cases hagain
  | ok b =>
      refine Or.inr ⟨b, rfl, ?_⟩
      rw [← Block.serialize_of_deserializeBlock hdecoded]
      exact loadBlock_serialize (Block.wellFormed_of_deserializeBlock hdecoded)

namespace MempoolStore

/-- A reconciliation with the state that the pool is on, and without detached blocks, leaves
pool and table as they are. -/
theorem Faithful.reconcile_self {s : MempoolStore} (h : s.Faithful κ) :
    (s.reconcileReorganization κ s.mempool.chainState [] true).1 = s := by
  rw [reconcileReorganization_fst]
  exact h.offered_self

end MempoolStore

namespace Blockchain

theorem detachedBlocks_of_unchanged {c : Blockchain} {b : Block}
    (h : (c.append κ b).2.activeChainChanged = false) : (c.append κ b).2.detachedBlocks = [] := by
  rcases append_cases κ c b with ⟨-, herror⟩ | ⟨p, next, -, hnext⟩
  · exact Blockchain.detachedBlocks_of_error herror
  · rw [hnext] at h ⊢
    rw [choose] at h ⊢
    split
    · rfl
    · rename_i hheavier
      rw [if_neg hheavier] at h
      exact absurd h (by simp [activate])

end Blockchain

namespace NodeRuntime

/-- A node whose files are its stores, and whose pool is on the state of the active chain. -/
structure Settled (κ : Crypto) (chainId : UInt32) (n : NodeRuntime) (chain : ChainStore)
    (pool : MempoolStore) : Prop where
  network : n.config.chainId = chainId
  hasChain : n.chainStore = some chain
  hasPool : n.mempoolStore = some pool
  log : chain.Inv κ chainId
  table : pool.Faithful κ
  current : pool.mempool.chainState = chain.blockchain.state

theorem Settled.detach {n : NodeRuntime} {chain : ChainStore} {pool : MempoolStore}
    {chainId : UInt32} (h : n.Settled κ chainId chain pool) (directory : DataDirectory) :
    Host.detach directory n = ⟨some chain.blocksFile, pool.rows⟩ :=
  detach_onDisk h.hasChain h.hasPool directory

/-- `chain add` on the files of a node does what the node does with the block. -/
theorem Settled.addBlock {n : NodeRuntime} {chain : ChainStore} {pool : MempoolStore}
    (h : n.Settled κ coreChainId chain pool) {block : Block} (hblock : block.WellFormed κ)
    {io : StorageIo} (htruncates : io.append.resizeOk = true) (hcommitted : io.mempoolOk = true)
    {payload : Bytes} (hload : loadBlock κ {} (some payload) = .ok block) :
    ∃ next nextPool, (n.appendSection κ block io).1.Settled κ coreChainId next nextPool ∧
      (addBlockToStore κ ⟨some chain.blocksFile, pool.rows⟩
        { append := io.append, rewriteOk := io.mempoolOk } (some payload)).1
          = ⟨some next.blocksFile, nextPool.rows⟩ := by
  have hconfig : (n.appendSection κ block io).1.config.chainId = coreChainId := by
    rw [(config_appendSection n block io).1]
    exact h.network
  have hpool : MempoolStore.openStore κ {} pool.rows chain.blockchain.state = .ok pool := by
    rw [← h.current]
    exact h.table.reopen.1
  have hnext := h.log.append hblock htruncates
  rw [addBlockToStore, h.log.reopen]
  dsimp only
  rw [hload]
  dsimp only
  rw [hpool]
  rcases ChainStore.append_cases κ chain block io.append htruncates with
    ⟨hsame, hnone⟩ | ⟨hvalue, hresult, hgrown, -⟩
  · -- a block that is refused, or a record that could not be written
    refine ⟨chain, pool, ⟨hconfig, ?_, ?_, h.log, h.table, h.current⟩, ?_⟩
    · rw [appendSection, h.hasChain]
      dsimp only
      rw [if_neg (by rw [hnone]; exact fun hand => Bool.false_ne_true hand.1), hsame]
    · rw [appendSection, h.hasChain]
      dsimp only
      rw [if_neg (by rw [hnone]; exact fun hand => Bool.false_ne_true hand.1)]
      exact h.hasPool
    · rw [hsame]
      rw [ChainStoreAppendResult.hasValue] at hnone
      split
      · rfl
      rename_i hstorage
      rw [not_not.mp hstorage, beq_self_eq_true, Bool.true_and] at hnone
      rw [if_pos (by rw [hnone]; exact Bool.false_ne_true)]
  have hblockchain : (chain.append κ block io.append).1.blockchain
      = (chain.blockchain.append κ block).1 := by
    rw [hgrown]
  have hok : (chain.append κ block io.append).2.hasValue = true := by
    rw [hresult]
    exact hvalue
  rw [hresult, if_neg (not_not.mpr rfl), if_neg (not_not.mpr hvalue)]
  dsimp only
  rw [hcommitted]
  cases hchanged : (chain.blockchain.append κ block).2.activeChainChanged with
  | false =>
      -- the pool is reconciled with the state it is on
      have hstate : (chain.append κ block io.append).1.blockchain.state
          = pool.mempool.chainState := by
        rw [hblockchain, Blockchain.state_append hchanged, h.current]
      have hkept : ¬ ((chain.append κ block io.append).2.hasValue = true ∧
          (chain.append κ block io.append).2.chainResult.activeChainChanged = true) := by
        rw [hresult, hchanged]
        exact fun hand => Bool.false_ne_true hand.2
      refine ⟨_, pool, ⟨hconfig, ?_, ?_, hnext, h.table, hstate.symm⟩, ?_⟩
      · rw [appendSection, h.hasChain]
        dsimp only
        rw [if_neg hkept]
      · rw [appendSection, h.hasChain]
        dsimp only
        rw [if_neg hkept]
        exact h.hasPool
      · rw [hstate, Blockchain.detachedBlocks_of_unchanged hchanged, h.table.reconcile_self]
  | true =>
      have hboth : (chain.append κ block io.append).2.hasValue = true ∧
          (chain.append κ block io.append).2.chainResult.activeChainChanged = true := by
        rw [hresult]
        exact ⟨hvalue, hchanged⟩
      have hdetached : ∀ b ∈ (chain.blockchain.append κ block).2.detachedBlocks,
          b.WellFormed κ := by
        obtain ⟨bs, -, hreplay⟩ := h.log.replayed
        have hinv : chain.blockchain.Inv κ coreChainId := by
          rw [hreplay]
          exact Blockchain.inv_replay κ coreChainId bs
        exact fun b hb => h.log.wellFormed b
          (Blockchain.mem_of_mem_detachedBlocks hinv (Blockchain.hasValue_iff.mp hvalue) hb)
      have hnode : (n.appendSection κ block io).1
          = { n with
              chainStore := some (chain.append κ block io.append).1
              mempoolStore := some (pool.reconcileReorganization κ
                (chain.append κ block io.append).1.blockchain.state
                (chain.blockchain.append κ block).2.detachedBlocks true).1 } := by
        rw [appendSection, h.hasChain]
        dsimp only
        rw [if_pos hboth, updateMempoolAfterChainChange, hresult, hcommitted]
        simp only [h.hasPool]
      refine ⟨_, _, ⟨hconfig, ?_, ?_, hnext, (h.table.reconcileReorganization hdetached _ true).1,
        ?_⟩, rfl⟩
      · rw [hnode]
      · rw [hnode]
      · rw [MempoolStore.reconcileReorganization_fst]
        exact (MempoolStore.inv_reconciled κ pool _ _).2

theorem Settled.addTransaction {n : NodeRuntime} {chain : ChainStore} {pool : MempoolStore}
    (h : n.Settled κ coreChainId chain pool) {t : SignedTransaction} {payload : Bytes}
    (hdecoded : deserializeTransaction κ payload = .ok t) (io : StorageIo) :
    ∃ nextPool, (n.addSection κ t io).1.Settled κ coreChainId chain nextPool ∧
      (BBC.addTransaction κ ⟨some chain.blocksFile, pool.rows⟩ {} {} (some payload) io.mempoolOk).1
        = ⟨some chain.blocksFile, nextPool.rows⟩ := by
  have hverified := (SignedTransaction.serialize_of_deserialize κ hdecoded).2
  have hstores : openStores κ ⟨some chain.blocksFile, pool.rows⟩ {} {} = some (chain, pool) := by
    rw [openStores, h.log.reopen]
    dsimp only
    rw [← h.current, h.table.reopen.1]
  refine ⟨(pool.add κ t io.mempoolOk).1, ⟨?_, ?_, ?_, h.log, (h.table.add hverified _).1, ?_⟩, ?_⟩
  · rw [addSection, h.hasChain, h.hasPool]
    exact h.network
  · rw [addSection, h.hasChain, h.hasPool]
  · rw [addSection, h.hasChain, h.hasPool]
  · rcases pool.add_cases κ t io.mempoolOk with ⟨hsame, -⟩ | ⟨hadd, -, -⟩
    · rw [hsame]
      exact h.current
    · rw [hadd]
      exact (Mempool.chainState_addAll [t] _).trans h.current
  · rw [BBC.addTransaction, hstores]
    dsimp only [Option.map_some]
    rw [hdecoded]

/-! ## Sequences of commands -/

/-- A block or a transaction reaches the program. -/
inductive Arrival where
  | block (payload : Bytes)
  | transaction (payload : Bytes)

namespace Arrival

/-- What it decodes to belongs to the chain of the commands. -/
def Core (κ : Crypto) : Arrival → Prop
  | .block _ => True
  | .transaction payload =>
      ∀ t, deserializeTransaction κ payload = .ok t → t.chainId = coreChainId

/-- A peer sends it to a node, whose handler runs to its end. -/
def deliver (κ : Crypto) (peerId : UInt64) (n : NodeRuntime) (a : Arrival × StorageIo) :
    NodeRuntime :=
  match a.1 with
  | .block payload => ((handleBlock κ peerId payload false).run (fun _ => a.2) n).1
  | .transaction payload => ((handleTransaction κ peerId payload false).run (fun _ => a.2) n).1

/-- It comes as a file, and a command takes it. -/
def command (κ : Crypto) (directory : DataDirectory) (a : Arrival × StorageIo) : DataDirectory :=
  match a.1 with
  | .block payload =>
      (addBlockToStore κ directory { append := a.2.append, rewriteOk := a.2.mempoolOk }
        (some payload)).1
  | .transaction payload =>
      (BBC.addTransaction κ directory {} {} (some payload) a.2.mempoolOk).1

end Arrival

theorem Settled.finishBlock {n : NodeRuntime} {chain : ChainStore} {pool : MempoolStore}
    {chainId : UInt32} (h : n.Settled κ chainId chain pool) (peerId : UInt64) (block : Block)
    (outcome : AppendOutcome) (io : Nat → StorageIo) :
    ((NodeRuntime.finishBlock κ peerId block false outcome).run io n).1.Settled κ chainId chain
      pool := by
  rw [state_finishBlock]
  split
  · have huntouched := untouched_noteTip n outcome.activeTipHeight outcome.activeTipId
    refine ⟨?_, huntouched.chain.trans h.hasChain, huntouched.pool.trans h.hasPool, h.log, h.table,
      h.current⟩
    show (n.noteTip _ _).config.chainId = chainId
    rw [noteTip]
    split
    · exact h.network
    · exact h.network
  · exact h

theorem Settled.arrival {n : NodeRuntime} {chain : ChainStore} {pool : MempoolStore}
    (h : n.Settled κ coreChainId chain pool) (peerId : UInt64) {a : Arrival × StorageIo}
    (hcore : a.1.Core κ) (htruncates : a.2.append.resizeOk = true)
    (hcommitted : a.2.mempoolOk = true) :
    ∃ next nextPool, (Arrival.deliver κ peerId n a).Settled κ coreChainId next nextPool ∧
      Arrival.command κ ⟨some chain.blocksFile, pool.rows⟩ a
        = ⟨some next.blocksFile, nextPool.rows⟩ := by
  obtain ⟨arrival, io⟩ := a
  cases arrival with
  | block payload =>
      dsimp only [Arrival.deliver, Arrival.command]
      rcases loadBlock_some κ payload with
        ⟨e, hdecoded, e', hload⟩ | ⟨block, hdecoded, hload⟩
      · refine ⟨chain, pool, ?_, ?_⟩
        · rw [handleBlock, hdecoded]
          exact h
        · rw [addBlockToStore, h.log.reopen]
          dsimp only
          rw [hload]
      · obtain ⟨next, nextPool, hsettled, hcommand⟩ := h.addBlock
          (Block.wellFormed_of_deserializeBlock hdecoded) htruncates hcommitted hload
        refine ⟨next, nextPool, ?_, hcommand⟩
        rw [run_handleBlock_of_some h.hasChain hdecoded]
        exact hsettled.finishBlock peerId block _ _
  | transaction payload =>
      dsimp only [Arrival.deliver, Arrival.command]
      have hstores : (n.chainStore.isSome && n.mempoolStore.isSome) = true := by
        rw [h.hasChain, h.hasPool]
        rfl
      rw [handleTransaction, Program.run_step]
      dsimp only
      rw [if_neg (not_not.mpr hstores)]
      cases hdecoded : deserializeTransaction κ payload with
      | error e =>
          refine ⟨chain, pool, h, ?_⟩
          have hopened : openStores κ ⟨some chain.blocksFile, pool.rows⟩ {} {}
              = some (chain, pool) := by
            rw [openStores, h.log.reopen]
            dsimp only
            rw [← h.current, h.table.reopen.1]
          rw [BBC.addTransaction, hopened]
          dsimp only [Option.map_some]
          rw [hdecoded]
      | ok t =>
          obtain ⟨nextPool, hsettled, hcommand⟩ := h.addTransaction hdecoded io
          refine ⟨chain, nextPool, ?_, hcommand⟩
          dsimp only
          rw [if_neg (not_not.mpr ((hcore t hdecoded).trans h.network.symm)), admitTransaction,
            Program.run_step]
          dsimp only
          cases (n.addSection κ t io).2.2 with
          | none => exact hsettled
          | some added =>
              have hrest : ((finishTransaction peerId payload false (t.id κ) added).run
                  (fun _ => io) (n.addSection κ t io).1).1 = (n.addSection κ t io).1 := by
                rw [finishTransaction, Program.last, Program.run_step]
                dsimp only
                split
                · rfl
                · rfl
              dsimp only
              rw [hrest]
              exact hsettled

theorem settled_run (peerId : UInt64) (arrivals : List (Arrival × StorageIo)) :
    ∀ {n : NodeRuntime} {chain : ChainStore} {pool : MempoolStore},
      n.Settled κ coreChainId chain pool →
      (∀ a ∈ arrivals, a.1.Core κ ∧ a.2.append.resizeOk = true ∧ a.2.mempoolOk = true) →
      ∃ next nextPool,
        (arrivals.foldl (Arrival.deliver κ peerId) n).Settled κ coreChainId next nextPool ∧
        arrivals.foldl (Arrival.command κ) ⟨some chain.blocksFile, pool.rows⟩
          = ⟨some next.blocksFile, nextPool.rows⟩ := by
  induction arrivals with
  | nil => intro n chain pool h _; exact ⟨chain, pool, h, rfl⟩
  | cons a arrivals ih =>
      intro n chain pool h hall
      obtain ⟨⟨hcore, htruncates, hcommitted⟩, hrest⟩ := List.forall_mem_cons.mp hall
      obtain ⟨next, nextPool, hsettled, hcommand⟩ := h.arrival peerId hcore htruncates hcommitted
      rw [List.foldl_cons, List.foldl_cons, hcommand]
      exact ih hsettled hrest

/-- Blocks and transactions come in any order, good and bad ones, with record writes and
index rebuilds that fail here and there.  Whether a node that runs all the time takes them from
its peers, or each is a file that a command of its own adds to the directory: the two files
of the directory are the same after it. -/
theorem commands_refine_node (κ : Crypto) (hlaw : κ.SignatureLaw)
    (hgenesis : (genesisBlock κ 1).id κ ≠ (genesisBlock κ 2).id κ) (config : RuntimeConfig)
    (hconfig : Startable coreChainId config) (directory : DataDirectory) (io : StartIo)
    (start : NodeRuntime) (hstart : initializeNode κ config directory io = some start)
    (peerId : UInt64) (arrivals : List (Arrival × StorageIo))
    (harrivals : ∀ a ∈ arrivals,
      a.1.Core κ ∧ a.2.append.resizeOk = true ∧ a.2.mempoolOk = true) :
    arrivals.foldl (Arrival.command κ) (Host.detach directory start)
      = Host.detach directory
          (arrivals.foldl (Arrival.deliver κ peerId) (start.startNetwork κ)) := by
  have hnetwork := (fresh_initializeNode hstart).1
  have hdisk := onDisk_initializeNode hlaw hgenesis hconfig.fullNode (supportedChain_config config)
    hstart
  rw [hconfig.network] at hdisk
  obtain ⟨chain, pool, hc, hp, hlog, -, htable⟩ := hdisk
  obtain ⟨chain', pool', hc', hp', -, -, hcurrent⟩ := inStep_initializeNode hconfig.fullNode hstart
  cases hc.symm.trans hc'
  cases hp.symm.trans hp'
  have hrun : (start.startNetwork κ).Settled κ coreChainId chain pool := by
    have hstores : (start.startNetwork κ).config = start.config ∧
        (start.startNetwork κ).chainStore = start.chainStore ∧
        (start.startNetwork κ).mempoolStore = start.mempoolStore := by
      rw [startNetwork]
      split
      · exact ⟨rfl, rfl, rfl⟩
      · exact ⟨rfl, rfl, rfl⟩
    obtain ⟨hsame, hchain, hpool⟩ := hstores
    refine ⟨?_, hchain.trans hc, hpool.trans hp, hlog, htable, hcurrent⟩
    rw [hsame, hnetwork]
    exact hconfig.network
  obtain ⟨next, nextPool, hsettled, hcommands⟩ := settled_run peerId arrivals hrun harrivals
  rw [detach_onDisk hc hp, hcommands, hsettled.detach]

/-- A full node of the development network. -/
def developmentFullNode : RuntimeConfig where
  networkProfile := .development
  roles := [.fullNode]

/-- The write of a block fails, then the block and a payment of its miner come. -/
theorem commands_refine_node_development :
    ∃ start, initializeNode reference developmentFullNode {} {} = some start ∧
      let arrivals : List (Arrival × StorageIo) :=
        [(.block minedDevelopment.serialize, { append := { shortWrite := some 7 } }),
          (.block minedDevelopment.serialize, {}),
          (.transaction developmentPayment.serialize, {})]
      arrivals.foldl (Arrival.command reference) (Host.detach {} start)
        = Host.detach {}
            (arrivals.foldl (Arrival.deliver reference 1) (start.startNetwork reference)) := by
  obtain ⟨hsome, hgenesis, hdecoded⟩ : (initializeNode reference developmentFullNode {} {}).isSome
        = true ∧
      (genesisBlock reference 1).id reference ≠ (genesisBlock reference 2).id reference ∧
      deserializeTransaction reference developmentPayment.serialize = .ok developmentPayment := by
    decide +kernel
  obtain ⟨start, hstart⟩ := Option.isSome_iff_exists.mp hsome
  refine ⟨start, hstart, ?_⟩
  refine commands_refine_node reference reference_signatureLaw hgenesis developmentFullNode
    ⟨by decide, fun h => absurd h (by decide), rfl⟩ {} {} start hstart 1 _ ?_
  refine List.forall_mem_cons.mpr ⟨⟨trivial, rfl, rfl⟩, List.forall_mem_cons.mpr
    ⟨⟨trivial, rfl, rfl⟩, List.forall_mem_cons.mpr ⟨⟨?_, rfl, rfl⟩, ?_⟩⟩⟩
  · intro t ht
    rw [hdecoded] at ht
    cases ht
    rfl
  · intro a ha
    exact absurd ha List.not_mem_nil

end NodeRuntime

end BBC
