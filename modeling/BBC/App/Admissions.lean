/-
# `BBC.App.Admissions` — every way into the pool

A transaction enters the pool of a data directory

    by `bbc mempool add`                        `src/app/mempool_commands.cpp`
    by the RPC `submit_signed_transaction`      `src/node/control_server.cpp`
    by the messages TRANSACTION and TRANSACTION_SUBMIT
    when `mempool.db` is loaded again

and `block candidate`, `start_mining` and `handle_template_request` make a block of what
`select` takes from it.  `create_block` refuses a body with a transaction of another
network.  The node asks for its own chain id before it admits; the command does not, and
the table is loaded as it is.  A pool on which `create_block` fails is therefore one into
which a foreign transaction came by the command or with the table, and in no other way.
-/
import BBC.Lib.Runs
import BBC.Node.Genuine
import BBC.Node.Mining

namespace BBC

open Runs (Along)
open Sections (Program)
open NodeRuntime (DataDirectory StartIo initializeNode)

variable {κ : Crypto} {chainId : UInt32}

/-- `core::chain_id`, the chain of the commands. -/
def coreChainId : UInt32 := 1

/-! ## The commands -/

/-- `open_stores` of the commands. -/
def openStores (κ : Crypto) (directory : DataDirectory) (chainIo : OpenIo)
    (mempoolIo : MempoolOpenIo) : Option (ChainStore × MempoolStore) :=
  match ChainStore.openStore κ coreChainId chainIo directory.blocksFile with
  | .error _ => none
  | .ok chain =>
      match MempoolStore.openStore κ mempoolIo directory.mempoolRows chain.blockchain.state with
      | .error _ => none
      | .ok mempool => some (chain, mempool)

/-- `add_transaction` of `mempool_commands.cpp`, and whether it succeeds; `none` is a file
that cannot be read. -/
def addTransaction (κ : Crypto) (directory : DataDirectory) (chainIo : OpenIo)
    (mempoolIo : MempoolOpenIo) (file : Option Bytes) (databaseOk : Bool) :
    DataDirectory × Bool :=
  match openStores κ directory chainIo mempoolIo with
  | none => (directory, false)
  | some (_, mempool) =>
      match file.map (deserializeTransaction κ) with
      | some (.ok loaded) =>
          let added := mempool.add κ loaded databaseOk
          ({ directory with mempoolRows := added.1.rows }, added.2.hasValue)
      | _ => ({ directory with mempoolRows := mempool.rows }, false)

/-- The reasons of `create_block_candidate` for not making a block. -/
inductive CandidateError where
  | chainStore (error : ChainStoreError)
  | heightExhausted
  | timestamp
  | mempoolStore (error : MempoolStoreError)
  | create (error : BlockError)
  deriving DecidableEq

/-- The fields that it fills; the chain id is the default one. -/
def candidateFields (κ : Crypto) (tip : Block) (reward : Address) (timestamp : UInt64)
    (transactions : List SignedTransaction) : BlockFields where
  height := tip.height + 1
  previousBlockHash := tip.id κ
  rewardRecipient := reward
  timestamp := timestamp
  difficultyTarget := fixedDifficultyTarget coreChainId
  miningNonce := 0
  transactions := transactions
  chainId := coreChainId

/-- `create_block_candidate` of `block_commands.cpp`, up to the saving of the block. -/
def createBlockCandidate (κ : Crypto) (directory : DataDirectory) (chainIo : OpenIo)
    (mempoolIo : MempoolOpenIo) (reward : Address) (timestamp : UInt64) :
    Except CandidateError Block :=
  match ChainStore.openStore κ coreChainId chainIo directory.blocksFile with
  | .error e => .error (.chainStore e)
  | .ok chain =>
      if chain.blockchain.tip.height = maxU64 then .error .heightExhausted
      else if timestamp ≤ chain.blockchain.tip.timestamp then .error .timestamp
      else
        match MempoolStore.openStore κ mempoolIo directory.mempoolRows chain.blockchain.state with
        | .error e => .error (.mempoolStore e)
        | .ok mempool =>
            match createBlock κ (candidateFields κ chain.blockchain.tip reward timestamp
              (mempool.mempool.select κ maximumTransactionsPerBlock)) with
            | .error e => .error (.create e)
            | .ok block => .ok block

/-! ## The directory and its node -/

/-- A data directory, and the node that runs on it if one does. -/
structure Host where
  directory : DataDirectory
  node : Option NodeRuntime := none

/-- What happens to it. -/
inductive Entry where
  | mempoolAdd (chainIo : OpenIo) (mempoolIo : MempoolOpenIo) (file : Option Bytes)
      (databaseOk : Bool)
  /-- A node starts and loads the table. -/
  | start (config : RuntimeConfig) (io : StartIo)
  | stop
  | submitSignedTransaction (encoded : Bytes) (io : Nat → StorageIo)
  | transaction (peerId : UInt64) (payload : Bytes) (submission : Bool) (io : Nat → StorageIo)

namespace Host

/-- The node finds the table as the commands have left it. -/
def attach (node : NodeRuntime) (rows : List MempoolRow) : NodeRuntime :=
  { node with mempoolStore := node.mempoolStore.map fun pool => { pool with rows := rows } }

/-- The files that a node leaves. -/
def detach (directory : DataDirectory) (node : NodeRuntime) : DataDirectory where
  blocksFile :=
    match node.chainStore with
    | some chain => some chain.blocksFile
    | none => directory.blocksFile
  mempoolRows :=
    match node.mempoolStore with
    | some pool => pool.rows
    | none => directory.mempoolRows

/-- A handler of the node runs. -/
def handle (h : Host) (task : Task) (io : Nat → StorageIo) : Host :=
  match h.node with
  | none => h
  | some node =>
      let next := (task.run io (attach node h.directory.mempoolRows)).1
      ⟨detach h.directory next, some next⟩

/-- One entry. -/
def step (κ : Crypto) (h : Host) : Entry → Host
  | .mempoolAdd chainIo mempoolIo file databaseOk =>
      { h with directory := (addTransaction κ h.directory chainIo mempoolIo file databaseOk).1 }
  | .start config io =>
      match h.node with
      | some _ => h
      | none =>
          match initializeNode κ config h.directory io with
          | none => h
          | some node => ⟨detach h.directory node, some (node.startNetwork κ)⟩
  | .stop => { h with node := none }
  | .submitSignedTransaction encoded io =>
      match deserializeTransaction κ encoded with
      | .error _ => h
      | .ok transaction => h.handle (NodeRuntime.submitSignedTransaction κ transaction) io
  | .transaction peerId payload submission io =>
      h.handle (NodeRuntime.handleTransaction κ peerId payload submission) io

/-- A run of entries. -/
def run (κ : Crypto) (h : Host) (entries : List Entry) : Host := Runs.run (step κ) h entries

end Host

/-! ## Stores of one network -/

namespace MempoolStore

/-- What the rows decode to belongs to the chain. -/
def ChainRows (κ : Crypto) (chainId : UInt32) (rows : List MempoolRow) : Prop :=
  ∀ row ∈ rows, ∀ t, deserializeTransaction κ row.2 = .ok t → t.chainId = chainId

/-- Pool and table belong to the chain. -/
structure Own (κ : Crypto) (chainId : UInt32) (s : MempoolStore) : Prop where
  pending : ∀ t ∈ s.mempool.transactions, t.chainId = chainId
  rows : ChainRows κ chainId s.rows

/-- The row of a transaction that was checked decodes to it. -/
theorem chainRows_singleton {t : SignedTransaction} (hverified : t.Verified κ)
    (ht : t.chainId = chainId) : ChainRows κ chainId [((t.id κ).toList, t.serialize)] := by
  intro row hrow u hu
  rw [List.mem_singleton.mp hrow, t.deserialize_serialize κ hverified] at hu
  cases hu
  exact ht

theorem Own.add {s : MempoolStore} (h : s.Own κ chainId) {t : SignedTransaction}
    (hverified : t.Verified κ) (ht : t.chainId = chainId) (databaseOk : Bool) :
    (s.add κ t databaseOk).1.Own κ chainId := by
  rw [MempoolStore.add]
  by_cases hadd : (s.mempool.add κ t).2 = .none
  swap
  · rw [if_pos hadd]
    exact h
  rw [if_neg (not_not.mpr hadd)]
  split
  · exact h
  rename_i rows hrows
  refine ⟨?_, ?_⟩
  · intro u hu
    rcases Mempool.mem_of_mem_addAll [t] hu with hu | hu
    · exact h.pending u hu
    · rw [List.mem_singleton.mp hu]
      exact ht
  · rw [appendTransaction, insertTransaction] at hrows
    split_ifs at hrows
    cases hrows
    intro row hrow
    rcases List.mem_append.mp hrow with hrow | hrow
    · exact h.rows row hrow
    · exact chainRows_singleton hverified ht row hrow

theorem chainId_loadRows (rows : List MempoolRow) :
    ∀ {m : Mempool}, ChainRows κ chainId rows → (∀ t ∈ m.transactions, t.chainId = chainId) →
      ∀ t ∈ (rows.foldl (loadRow κ) m).transactions, t.chainId = chainId := by
  induction rows with
  | nil => intro m _ h; exact h
  | cons row rows ih =>
      intro m hrows h
      obtain ⟨hrow, hrest⟩ := List.forall_mem_cons.mp hrows
      refine ih hrest ?_
      rw [loadRow]
      split
      · exact h
      split
      · exact h
      · rename_i value hvalue
        intro t ht
        rcases Mempool.mem_of_mem_addAll [value] ht with ht | ht
        · exact h t ht
        · rw [List.mem_singleton.mp ht]
          exact hrow value hvalue

theorem own_openStore {io : MempoolOpenIo} {rows : List MempoolRow} {state : ChainState}
    {s : MempoolStore} (hrows : ChainRows κ chainId rows)
    (h : openStore κ io rows state = .ok s) : s.Own κ chainId := by
  have hfaithful := faithful_openStore h
  have hpending : ∀ t ∈ s.mempool.transactions, t.chainId = chainId := by
    rw [openStore] at h
    split_ifs at h
    dsimp only at h
    split at h
    · cases h
    · cases h
      exact chainId_loadRows rows hrows fun t ht => absurd ht List.not_mem_nil
  refine ⟨hpending, ?_⟩
  rw [hfaithful.rows, rowsOf]
  intro row hrow
  obtain ⟨t, ht, rfl⟩ := List.mem_map.mp hrow
  exact chainRows_singleton (hfaithful.verified t ht) (hpending t ht) _ (List.mem_singleton_self _)

end MempoolStore

/-! ## The node -/

namespace NodeRuntime

/-- An admission leaves everything but the pool and its own notes alone, and offers the pool
at most one transaction, of the node's network. -/
structure Offers (κ : Crypto) (n n' : NodeRuntime) : Prop where
  config : n'.config = n.config
  chain : n'.chainStore = n.chainStore
  pool : n'.mempoolStore = n.mempoolStore ∨
    ∃ pool t databaseOk, n.mempoolStore = some pool ∧ t.Verified κ ∧
      t.chainId = n.config.chainId ∧ n'.mempoolStore = some (pool.add κ t databaseOk).1

theorem Offers.refl (κ : Crypto) (n : NodeRuntime) : Offers κ n n := ⟨rfl, rfl, Or.inl rfl⟩

theorem offers_addSection (n : NodeRuntime) {t : SignedTransaction} (hverified : t.Verified κ)
    (ht : t.chainId = n.config.chainId) (io : StorageIo) :
    Offers κ n (n.addSection κ t io).1 := by
  rw [addSection]
  split
  · rename_i pool _ hpool
    exact ⟨rfl, rfl, Or.inr ⟨_, t, io.mempoolOk, hpool, hverified, ht, rfl⟩⟩
  · exact .refl κ n

/-- The sections after the add leave the stores alone. -/
theorem Offers.then {n n' n'' : NodeRuntime} (h : Offers κ n n') (hconfig : n''.config = n'.config)
    (hchain : n''.chainStore = n'.chainStore) (hpool : n''.mempoolStore = n'.mempoolStore) :
    Offers κ n n'' where
  config := hconfig.trans h.config
  chain := hchain.trans h.chain
  pool := by
    rw [hpool]
    exact h.pool

theorem offers_handleTransaction (κ : Crypto) (n : NodeRuntime) (peerId : UInt64) (payload : Bytes)
    (submission : Bool) (io : Nat → StorageIo) :
    Offers κ n ((handleTransaction κ peerId payload submission).run io n).1 := by
  rw [handleTransaction, Program.run_step]
  dsimp only
  by_cases hstores : (n.chainStore.isSome && n.mempoolStore.isSome) = true
  swap
  · rw [if_pos hstores]
    exact .refl κ n
  rw [if_neg (not_not.mpr hstores)]
  cases hdecoded : deserializeTransaction κ payload with
  | error e => exact .refl κ n
  | ok value =>
      dsimp only
      by_cases hchain : value.chainId = n.config.chainId
      swap
      · rw [if_pos hchain]
        exact .refl κ n
      rw [if_neg (not_not.mpr hchain), admitTransaction, Program.run_step]
      have hverified := (SignedTransaction.serialize_of_deserialize κ hdecoded).2
      have hadd := offers_addSection n hverified hchain (io 1)
      dsimp only
      cases (n.addSection κ value (io 1)).2.2 with
      | none => exact hadd
      | some added =>
          have hfinish : ((finishTransaction peerId payload submission (value.id κ) added).run
              (fun k => io (k + 1 + 1)) (n.addSection κ value (io 1)).1).1
              = (n.addSection κ value (io 1)).1 := by
            rw [finishTransaction, Program.last, Program.run_step]
            dsimp only
            by_cases hvalue : added.hasValue = true
            · rw [if_neg (not_not.mpr hvalue)]
              rfl
            · rw [if_pos hvalue]
              rfl
          dsimp only
          rw [hfinish]
          exact hadd

/-- A submission to a full node leaves the stores alone. -/
theorem Offers.submitToFullNode {n n' : NodeRuntime} (h : Offers κ n n') (t : SignedTransaction)
    (fullNode : Option PeerStatus) (io : Nat → StorageIo) :
    Offers κ n ((submitToFullNode κ t fullNode).run io n').1 := by
  cases fullNode with
  | none => exact h
  | some fullNode =>
      rw [NodeRuntime.submitToFullNode, Program.run_step, noteSubmission]
      dsimp only
      split
      · exact h
      dsimp only
      rw [if_pos rfl, sendSubmission, Program.run_step]
      dsimp only
      split
      · exact h.then rfl rfl rfl
      · exact h.then rfl rfl rfl

theorem offers_submitSignedTransaction {n : NodeRuntime} {t : SignedTransaction}
    (hverified : t.Verified κ) (io : Nat → StorageIo) :
    Offers κ n ((submitSignedTransaction κ t).run io n).1 := by
  rw [submitSignedTransaction, Program.run_step]
  dsimp only
  by_cases hrefused : ¬ n.network.isSome = true ∨ t.chainId ≠ n.config.chainId
  · rw [if_pos hrefused]
    exact .refl κ n
  rw [if_neg hrefused, admitSubmission, Program.run_step]
  have hadd := offers_addSection n hverified (not_not.mp (not_or.mp hrefused).2) (io 1)
  dsimp only
  cases (n.addSection κ t (io 1)).2.2 with
  | none => exact hadd.submitToFullNode t _ _
  | some added =>
      dsimp only
      split_ifs
      · exact hadd.then rfl rfl rfl
      · exact hadd

/-- The chain has grown from its genesis block, and the pool satisfies its invariant. -/
structure Sound (κ : Crypto) (n : NodeRuntime) : Prop where
  chain : ∀ chain, n.chainStore = some chain →
    ∃ bs, chain.blockchain = Blockchain.replay κ n.config.chainId bs
  pool : ∀ pool, n.mempoolStore = some pool → pool.mempool.Inv κ

/-- The node is one of the chain, and so are its pool and table. -/
structure Own (κ : Crypto) (chainId : UInt32) (n : NodeRuntime) : Prop where
  config : n.config.chainId = chainId
  pool : ∀ pool, n.mempoolStore = some pool → pool.Own κ chainId

theorem Sound.offers {n n' : NodeRuntime} (h : n.Sound κ) (ho : Offers κ n n') : n'.Sound κ where
  chain := by
    rw [ho.chain, ho.config]
    exact h.chain
  pool := by
    intro pool' hpool'
    rcases ho.pool with hsame | ⟨pool, t, databaseOk, hpool, -, -, hnext⟩
    · rw [hsame] at hpool'
      exact h.pool pool' hpool'
    · rw [hnext] at hpool'
      cases hpool'
      rcases pool.add_cases κ t databaseOk with ⟨hsame, -⟩ | ⟨hadd, -, -⟩
      · rw [hsame]
        exact h.pool pool hpool
      · rw [hadd]
        exact (h.pool pool hpool).add t

theorem Own.offers {n n' : NodeRuntime} (h : n.Own κ chainId) (ho : Offers κ n n') :
    n'.Own κ chainId where
  config := by
    rw [ho.config]
    exact h.config
  pool := by
    intro pool' hpool'
    rcases ho.pool with hsame | ⟨pool, t, databaseOk, hpool, hverified, hchain, hnext⟩
    · rw [hsame] at hpool'
      exact h.pool pool' hpool'
    · rw [hnext] at hpool'
      cases hpool'
      exact (h.pool pool hpool).add hverified (hchain.trans h.config) databaseOk

/-- What a node that starts finds. -/
theorem initializeNode_stores {config : RuntimeConfig} {directory : DataDirectory} {io : StartIo}
    {n : NodeRuntime} (h : initializeNode κ config directory io = some n) :
    n.Sound κ ∧ n.config = config ∧ ∀ pool, n.mempoolStore = some pool →
      ∃ state, MempoolStore.openStore κ io.mempool directory.mempoolRows state = .ok pool := by
  have hconfig := (fresh_initializeNode h).1
  by_cases hrole : config.hasRole .fullNode = true
  · obtain ⟨chain, pool, bs, hchain, hpool, -, hbs, hopened⟩ := stores_initializeNode hrole h
    refine ⟨⟨fun c hc => ?_, fun p hp => ?_⟩, hconfig, fun p hp => ?_⟩
    · rw [hchain] at hc
      cases hc
      rw [hconfig]
      exact ⟨bs, hbs⟩
    · rw [hpool] at hp
      cases hp
      exact (MempoolStore.inv_openStore hopened).1
    · rw [hpool] at hp
      cases hp
      exact ⟨_, hopened⟩
  · have hnone : n.chainStore = none ∧ n.mempoolStore = none := by
      rw [initializeNode] at h
      split_ifs at h
      cases h
      exact ⟨rfl, rfl⟩
    refine ⟨⟨fun c hc => ?_, fun p hp => ?_⟩, hconfig, fun p hp => ?_⟩
    · rw [hnone.1] at hc
      cases hc
    · rw [hnone.2] at hp
      cases hp
    · rw [hnone.2] at hp
      cases hp

theorem Own.selected {n : NodeRuntime} (h : n.Own κ chainId) :
    ∀ t ∈ n.selectedTransactions κ, t.chainId = chainId := by
  intro t ht
  rw [selectedTransactions] at ht
  cases hpool : n.mempoolStore with
  | none =>
      rw [hpool] at ht
      exact absurd ht List.not_mem_nil
  | some pool =>
      rw [hpool] at ht
      exact (h.pool pool hpool).pending t (Mempool.mem_of_mem_select ht)

theorem offers_startNetwork (κ : Crypto) (n : NodeRuntime) : Offers κ n (n.startNetwork κ) := by
  rw [startNetwork]
  split
  · exact .refl κ n
  · exact ⟨rfl, rfl, Or.inl rfl⟩

end NodeRuntime

/-- What the commands find. -/
theorem own_openStores {directory : DataDirectory} {chainIo : OpenIo} {mempoolIo : MempoolOpenIo}
    {chain : ChainStore} {pool : MempoolStore}
    (hrows : MempoolStore.ChainRows κ chainId directory.mempoolRows)
    (h : openStores κ directory chainIo mempoolIo = some (chain, pool)) : pool.Own κ chainId := by
  rw [openStores] at h
  split at h
  · cases h
  split at h
  · cases h
  · rename_i hmempool
    cases h
    exact MempoolStore.own_openStore hrows hmempool

/-! ## Runs -/

/-- The entry brings nothing of another network: the file of a command, and the
configuration of a node. -/
def Entry.Own (κ : Crypto) (chainId : UInt32) : Entry → Prop
  | .mempoolAdd _ _ file _ =>
      ∀ bytes t, file = some bytes → deserializeTransaction κ bytes = .ok t → t.chainId = chainId
  | .start config _ => config.chainId = chainId
  | _ => True

namespace Host

def Sound (κ : Crypto) (h : Host) : Prop := ∀ n, h.node = some n → n.Sound κ

/-- Table and node are of the chain. -/
structure Own (κ : Crypto) (chainId : UInt32) (h : Host) : Prop where
  table : MempoolStore.ChainRows κ chainId h.directory.mempoolRows
  node : ∀ n, h.node = some n → n.Own κ chainId

theorem sound_attach {n : NodeRuntime} (h : n.Sound κ) (rows : List MempoolRow) :
    (attach n rows).Sound κ where
  chain := h.chain
  pool := by
    intro pool' hpool'
    obtain ⟨pool, hpool, rfl⟩ := Option.map_eq_some_iff.mp hpool'
    exact h.pool pool hpool

theorem own_attach {n : NodeRuntime} (h : n.Own κ chainId) {rows : List MempoolRow}
    (hrows : MempoolStore.ChainRows κ chainId rows) : (attach n rows).Own κ chainId where
  config := h.config
  pool := by
    intro pool' hpool'
    obtain ⟨pool, hpool, rfl⟩ := Option.map_eq_some_iff.mp hpool'
    exact ⟨(h.pool pool hpool).pending, hrows⟩

theorem chainRows_detach {directory : DataDirectory} {n : NodeRuntime} (h : n.Own κ chainId)
    (hrows : MempoolStore.ChainRows κ chainId directory.mempoolRows) :
    MempoolStore.ChainRows κ chainId (detach directory n).mempoolRows := by
  rw [detach]
  cases hpool : n.mempoolStore with
  | none => exact hrows
  | some pool => exact (h.pool pool hpool).rows

theorem chainRows_addTransaction {directory : DataDirectory} {chainIo : OpenIo}
    {mempoolIo : MempoolOpenIo} {file : Option Bytes} {databaseOk : Bool}
    (hrows : MempoolStore.ChainRows κ chainId directory.mempoolRows)
    (hfile : (Entry.mempoolAdd chainIo mempoolIo file databaseOk).Own κ chainId) :
    MempoolStore.ChainRows κ chainId
      (addTransaction κ directory chainIo mempoolIo file databaseOk).1.mempoolRows := by
  rw [addTransaction]
  cases hopened : openStores κ directory chainIo mempoolIo with
  | none => exact hrows
  | some stores =>
      obtain ⟨chain, mempool⟩ := stores
      have hown : mempool.Own κ chainId := own_openStores hrows hopened
      dsimp only
      split
      · rename_i loaded hloaded
        obtain ⟨bytes, hbytes, hdecoded⟩ := Option.map_eq_some_iff.mp hloaded
        exact (hown.add (SignedTransaction.serialize_of_deserialize κ hdecoded).2
          (hfile bytes loaded hbytes hdecoded) databaseOk).rows
      · exact hown.rows

/-- What a handler of the node does to the host. -/
theorem Sound.handle {h : Host} (hs : h.Sound κ) {task : Task} {io : Nat → StorageIo}
    (htask : ∀ n, NodeRuntime.Offers κ n (task.run io n).1) : (h.handle task io).Sound κ := by
  rw [Host.handle]
  cases hnode : h.node with
  | none =>
      intro n hn
      exact hs n hn
  | some node =>
      intro n hn
      cases hn
      exact (sound_attach (hs node hnode) _).offers (htask _)

theorem Own.handle {h : Host} (ho : h.Own κ chainId) {task : Task} {io : Nat → StorageIo}
    (htask : ∀ n, NodeRuntime.Offers κ n (task.run io n).1) : (h.handle task io).Own κ chainId := by
  rw [Host.handle]
  cases hnode : h.node with
  | none => exact ho
  | some node =>
      have hnext := (own_attach (ho.node node hnode) ho.table).offers (htask _)
      refine ⟨chainRows_detach hnext ho.table, fun n hn => ?_⟩
      cases hn
      exact hnext

/-- One entry keeps the stores sound. -/
theorem sound_step {h : Host} (hs : h.Sound κ) (e : Entry) : (h.step κ e).Sound κ := by
  cases e with
  | mempoolAdd chainIo mempoolIo file databaseOk => exact hs
  | start config io =>
      rw [step]
      cases hnode : h.node with
      | some node => exact hs
      | none =>
          dsimp only
          split
          · exact hs
          · rename_i node hstart
            intro n hn
            cases hn
            exact (NodeRuntime.initializeNode_stores hstart).1.offers
              (NodeRuntime.offers_startNetwork κ node)
  | stop =>
      intro n hn
      cases hn
  | submitSignedTransaction encoded io =>
      rw [step]
      split
      · exact hs
      · rename_i t hdecoded
        exact hs.handle fun n => NodeRuntime.offers_submitSignedTransaction
          (SignedTransaction.serialize_of_deserialize κ hdecoded).2 io
  | transaction peerId payload submission io =>
      exact hs.handle fun n => NodeRuntime.offers_handleTransaction κ n peerId payload submission io

/-- One entry that brings nothing foreign leaves nothing foreign. -/
theorem own_step {h : Host} (ho : h.Own κ chainId) {e : Entry} (he : e.Own κ chainId) :
    (h.step κ e).Own κ chainId := by
  cases e with
  | mempoolAdd chainIo mempoolIo file databaseOk =>
      exact ⟨chainRows_addTransaction ho.table he, ho.node⟩
  | start config io =>
      rw [step]
      cases hnode : h.node with
      | some node => exact ho
      | none =>
          dsimp only
          split
          · exact ho
          · rename_i node hstart
            obtain ⟨-, hconfig, hpool⟩ := NodeRuntime.initializeNode_stores hstart
            have hown : node.Own κ chainId := by
              refine ⟨by rw [hconfig]; exact he, fun pool hp => ?_⟩
              obtain ⟨state, hopened⟩ := hpool pool hp
              exact MempoolStore.own_openStore ho.table hopened
            refine ⟨chainRows_detach hown ho.table, fun n hn => ?_⟩
            cases hn
            exact hown.offers (NodeRuntime.offers_startNetwork κ node)
  | stop =>
      refine ⟨ho.table, fun n hn => ?_⟩
      cases hn
  | submitSignedTransaction encoded io =>
      rw [step]
      split
      · exact ho
      · rename_i t hdecoded
        exact ho.handle fun n => NodeRuntime.offers_submitSignedTransaction
          (SignedTransaction.serialize_of_deserialize κ hdecoded).2 io
  | transaction peerId payload submission io =>
      exact ho.handle fun n => NodeRuntime.offers_handleTransaction κ n peerId payload submission io

theorem own_run (entries : List Entry) : ∀ {h : Host}, (∀ e ∈ entries, e.Own κ chainId) →
    h.Own κ chainId → (h.run κ entries).Own κ chainId := by
  induction entries with
  | nil => intro h _ ho; exact ho
  | cons e entries ih =>
      intro h hentries ho
      obtain ⟨he, hrest⟩ := List.forall_mem_cons.mp hentries
      exact ih hrest (own_step ho he)

end Host

/-! ## What `create_block` refuses -/

/-- A selection is refused for its chain ids only. -/
theorem validateTransactions_select_iff {m : Mempool} (h : m.Inv κ) :
    validateTransactions κ (m.select κ maximumTransactionsPerBlock) chainId = .none ↔
      ∀ t ∈ m.select κ maximumTransactionsPerBlock, t.chainId = chainId := by
  constructor
  · intro hvalid t ht
    exact validateTransactions_chainId hvalid t ht
  · intro hchain
    have hlength : (m.select κ maximumTransactionsPerBlock).length
        ≤ maximumTransactionsPerBlock := Mempool.length_selectLoop _ _
    exact validateTransactions_of_nodup hlength hchain (h.ids_select _)

/-- A block can be built on the tip: there is a next height, and the id is not the one that
stands for no parent. -/
structure Extendable (κ : Crypto) (tip : Block) : Prop where
  height : tip.height ≠ maxU64
  id : (tip.id κ).isZero = false

theorem Extendable.next_ne_zero {tip : Block} (h : Extendable κ tip) : tip.height + 1 ≠ 0 := by
  intro hzero
  have hnext := toNat_add_of_lt (b := 1) (toNat_lt_of_ne_max h.height)
  rw [hzero] at hnext
  exact absurd hnext (Nat.succ_ne_zero _).symm

section created
variable {reward : Address} (hreward : reward.hash.isZero = false)

include hreward

/-- The template of a node. -/
theorem NodeRuntime.template_iff {n : NodeRuntime} (hn : n.Sound κ) {chain : ChainStore}
    (hchain : n.chainStore = some chain) (htip : Extendable κ chain.blockchain.tip) :
    (∃ b, createTemplate κ chain.blockchain.tip reward (n.selectedTransactions κ) = .ok b) ↔
      ∀ t ∈ n.selectedTransactions κ, t.chainId = n.config.chainId := by
  obtain ⟨bs, hbs⟩ := hn.chain chain hchain
  have hid : chain.blockchain.tip.chainId = n.config.chainId := by
    rw [hbs]
    exact (Blockchain.inv_replay κ n.config.chainId bs).chainId_tip
  have hsupported : SupportedChain n.config.chainId := by
    rw [RuntimeConfig.chainId, networkParameters]
    split <;> decide
  have hbody : validateTransactions κ (n.selectedTransactions κ) n.config.chainId = .none ↔
      ∀ t ∈ n.selectedTransactions κ, t.chainId = n.config.chainId := by
    rw [selectedTransactions]
    cases hpool : n.mempoolStore with
    | none => exact ⟨fun _ t ht => absurd ht List.not_mem_nil, fun _ => rfl⟩
    | some pool => exact validateTransactions_select_iff (hn.pool pool hpool)
  rw [← hbody, createTemplate, Block.createBlock_isOk_iff]
  show SupportedChain chain.blockchain.tip.chainId ∧ chain.blockchain.tip.height + 1 ≠ 0 ∧
    (chain.blockchain.tip.id κ).isZero = false ∧ reward.hash.isZero = false ∧
    validateTransactions κ (n.selectedTransactions κ) chain.blockchain.tip.chainId = .none ↔ _
  rw [hid]
  exact ⟨fun h => h.2.2.2.2, fun h => ⟨hsupported, htip.next_ne_zero, htip.id, hreward, h⟩⟩

/-- The candidate of the command. -/
theorem candidate_iff {directory : DataDirectory} {chainIo : OpenIo} {mempoolIo : MempoolOpenIo}
    {chain : ChainStore} {pool : MempoolStore}
    (hopened : openStores κ directory chainIo mempoolIo = some (chain, pool))
    (htip : Extendable κ chain.blockchain.tip) {timestamp : UInt64}
    (htime : chain.blockchain.tip.timestamp < timestamp) :
    (∃ b, createBlockCandidate κ directory chainIo mempoolIo reward timestamp = .ok b) ↔
      ∀ t ∈ pool.mempool.select κ maximumTransactionsPerBlock, t.chainId = coreChainId := by
  rw [openStores] at hopened
  split at hopened
  · cases hopened
  rename_i opened hchain
  split at hopened
  · cases hopened
  rename_i mempool hmempool
  cases hopened
  rw [← validateTransactions_select_iff (MempoolStore.inv_openStore hmempool).1,
    createBlockCandidate, hchain]
  dsimp only
  rw [if_neg htip.height, if_neg (UInt64.not_le.mpr htime), hmempool]
  dsimp only
  constructor
  · rintro ⟨b, hb⟩
    split at hb
    · cases hb
    · rename_i created hcreated
      exact (Block.createBlock_isOk_iff.mp ⟨created, hcreated⟩).2.2.2.2
  · intro hbody
    have hsupported : SupportedChain coreChainId := by decide
    obtain ⟨b, hb⟩ : ∃ b, createBlock κ (candidateFields κ chain.blockchain.tip reward timestamp
        (pool.mempool.select κ maximumTransactionsPerBlock)) = .ok b :=
      Block.createBlock_isOk_iff.mpr ⟨hsupported, htip.next_ne_zero, htip.id, hreward, hbody⟩
    rw [hb]
    exact ⟨b, rfl⟩

end created

/-- Whatever is done to a data directory: `create_block` makes a block of what is selected,
for the node and for the command, unless a selected transaction is of another network; and
if neither the table at the beginning nor a file of `mempool add` brings one in, it always
does. -/
theorem admissions_extend (κ : Crypto) (chainId : UInt32) (directory : DataDirectory)
    (entries : List Entry) (reward : Address) (hreward : reward.hash.isZero = false) :
    let h := Host.run κ ⟨directory, none⟩ entries
    ((∀ n chain, h.node = some n → n.chainStore = some chain →
        Extendable κ chain.blockchain.tip →
        ((∃ b, createTemplate κ chain.blockchain.tip reward (n.selectedTransactions κ) = .ok b) ↔
          ∀ t ∈ n.selectedTransactions κ, t.chainId = n.config.chainId)) ∧
      ∀ chainIo mempoolIo chain pool timestamp,
        openStores κ h.directory chainIo mempoolIo = some (chain, pool) →
        Extendable κ chain.blockchain.tip → chain.blockchain.tip.timestamp < timestamp →
        ((∃ b, createBlockCandidate κ h.directory chainIo mempoolIo reward timestamp = .ok b) ↔
          ∀ t ∈ pool.mempool.select κ maximumTransactionsPerBlock, t.chainId = coreChainId)) ∧
    (MempoolStore.ChainRows κ chainId directory.mempoolRows →
      (∀ e ∈ entries, e.Own κ chainId) →
      (∀ n chain, h.node = some n → n.chainStore = some chain →
        Extendable κ chain.blockchain.tip →
        ∃ b, createTemplate κ chain.blockchain.tip reward (n.selectedTransactions κ) = .ok b) ∧
      (chainId = coreChainId → ∀ chainIo mempoolIo chain pool timestamp,
        openStores κ h.directory chainIo mempoolIo = some (chain, pool) →
        Extendable κ chain.blockchain.tip → chain.blockchain.tip.timestamp < timestamp →
        ∃ b, createBlockCandidate κ h.directory chainIo mempoolIo reward timestamp = .ok b)) := by
  intro h
  have hsound : h.Sound κ :=
    Along.invariant (I := Host.Sound κ) (fun _ e _ hs => Host.sound_step hs e) Runs.along_true
      (fun n hn => by cases hn)
  refine ⟨⟨fun n chain hn hc htip => NodeRuntime.template_iff hreward (hsound n hn) hc htip,
    fun chainIo mempoolIo chain pool timestamp hopened htip htime =>
      candidate_iff hreward hopened htip htime⟩, fun hrows hentries => ?_⟩
  have hown : h.Own κ chainId := Host.own_run entries hentries
    ⟨hrows, fun n hn => by cases hn⟩
  refine ⟨fun n chain hn hc htip => ?_, fun hcore chainIo mempoolIo chain pool timestamp hopened
    htip htime => ?_⟩
  · refine (NodeRuntime.template_iff hreward (hsound n hn) hc htip).mpr fun t ht => ?_
    rw [(hown.node n hn).config]
    exact (hown.node n hn).selected t ht
  · refine (candidate_iff hreward hopened htip htime).mpr fun t ht => ?_
    rw [← hcore]
    exact (own_openStores hown.table hopened).pending t (Mempool.mem_of_mem_select ht)

/-! ## A directory with one mined block -/

/-- A block on the genesis block of the development network. -/
def minedDevelopment : Block where
  chainId := 1
  height := 1
  previousBlockHash := (genesisBlock reference 1).id reference
  transactionRoot := calculateTransactionRoot reference []
  rewardRecipient := some (Address.fromPublicKey reference minerKey)
  timestamp := 1
  difficultyTarget := development.difficultyTarget
  miningNonce := 23003484
  transactions := []
  bounded := Nat.zero_le _

def developmentDirectory : DataDirectory where
  blocksFile := some ([genesisBlock reference 1, minedDevelopment].flatMap (encodeRecord reference))

theorem developmentPayment_validated :
    validateFields ⟨⟨List.Vector.replicate 32 9⟩, 2500000000, 10, 0, 1⟩ = .none := by
  decide +kernel

/-- Its miner pays on the network of the chain. -/
def developmentPayment : SignedTransaction where
  chainId := 1
  senderPublicKey := minerKey
  recipient := ⟨List.Vector.replicate 32 9⟩
  amount := 2500000000
  fee := 10
  accountNonce := 0
  signature := referenceTag (serializeUnsigned 1 minerKey
    ⟨List.Vector.replicate 32 9⟩ 2500000000 10 0)
    minerKey
  validated := developmentPayment_validated

/-- With a payment of the chain in the pool the command makes its candidate. -/
theorem admissions_extend_development :
    let h := Host.run reference ⟨developmentDirectory, none⟩
      [.mempoolAdd {} {} (some developmentPayment.serialize) true]
    (openStores reference h.directory {} {}).map (fun stores => stores.2.mempool.transactions)
        = some [developmentPayment] ∧
      ∃ b, createBlockCandidate reference h.directory {} {}
        (Address.fromPublicKey reference minerKey) 2 = .ok b := by
  intro h
  have hfacts : (openStores reference h.directory {} {}).map (fun stores =>
        (stores.2.mempool.transactions, decide (stores.1.blockchain.tip.height ≠ maxU64),
          (stores.1.blockchain.tip.id reference).isZero,
          decide (stores.1.blockchain.tip.timestamp < 2)))
        = some ([developmentPayment], true, false, true) ∧
      (Address.fromPublicKey reference minerKey).hash.isZero = false ∧
      deserializeTransaction reference developmentPayment.serialize = .ok developmentPayment := by
    decide +kernel
  obtain ⟨hopened, hreward, hdecoded⟩ := hfacts
  obtain ⟨⟨chain, pool⟩, hstores, hvalues⟩ := Option.map_eq_some_iff.mp hopened
  simp only [Prod.mk.injEq, decide_eq_true_eq] at hvalues
  obtain ⟨hpool, hheight, hid, htime⟩ := hvalues
  refine ⟨?_, ?_⟩
  · rw [hstores, Option.map_some, hpool]
  have hentries : ∀ e ∈ [Entry.mempoolAdd {} {} (some developmentPayment.serialize) true],
      e.Own reference coreChainId := by
    intro e he
    rw [List.mem_singleton.mp he]
    intro bytes t hbytes ht
    cases hbytes
    rw [hdecoded] at ht
    cases ht
    rfl
  exact ((admissions_extend reference coreChainId developmentDirectory _ _ hreward).2
    (fun row hrow => absurd hrow List.not_mem_nil) hentries).2 rfl {} {} chain pool 2 hstores
    ⟨hheight, hid⟩ htime

/-- The command takes a payment that the same miner has signed for the other network, and
no candidate can be made any more. -/
theorem foreign_payment_blocks :
    let added := addTransaction reference developmentDirectory {} {} (some minerPayment.serialize)
      true
    added.2 = true ∧
    createBlockCandidate reference added.1 {} {} (Address.fromPublicKey reference minerKey) 2
      = .error (.create .invalidTransaction) := by
  decide +kernel

end BBC
