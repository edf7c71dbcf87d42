/-
# `BBC.App.Lifetimes` — a data directory over many processes

A directory outlives the processes that work on it:

    start       `bbc node`: a full node, a miner, or both, of either network
    move        one section of one handler of the node that runs
    crash       the process ends, at any moment between two sections
    chain init, chain add, mempool add

The commands are run while no node is.  `Holds` says which log is in the directory and
whether the process has it in memory; every event keeps it, with a log that is the old one
or longer.  So a directory keeps its network and every block that was ever stored in it,
and its tip is never lower than it was (`log_over_lifetimes`).
-/
import BBC.App.Commands

namespace BBC

open NodeRuntime (DataDirectory StartIo SignedCall OnDisk Storeless Startable initializeNode)
open Sections (Move System)

variable {κ : Crypto} {chainId : UInt32}

/-! ## Logs -/

namespace ChainStore

theorem Inv.eq_of_blocksFile {s s' : ChainStore} (h : s.Inv κ chainId) (h' : s'.Inv κ chainId)
    (hfile : s.blocksFile = s'.blocksFile) : s = s' := by
  have hopen := h.reopen
  rw [hfile, h'.reopen] at hopen
  exact (Except.ok.inj hopen).symm

theorem Inv.chainId_unique {s s' : ChainStore} {c c' : UInt32} (h : s.Inv κ c) (h' : s'.Inv κ c')
    (hfile : s.blocksFile = s'.blocksFile) : c = c' := by
  have hfirst : ∀ {s : ChainStore} {c : UInt32}, s.Inv κ c →
      ∃ size, readRecord κ {} 0 s.blocksFile 0 = .ok (genesisBlock κ c, size) := by
    intro s c h
    obtain ⟨bs, hacc, hreplay⟩ := h.replayed
    have hstored : s.blockchain.storedBlocks = genesisBlock κ c :: bs := by
      rw [hreplay, Blockchain.storedBlocks_replay, hacc]
    have hgenesis := h.wellFormed (genesisBlock κ c) (by rw [hstored]; exact List.mem_cons_self)
    have hdrop : s.blocksFile.drop 0
        = encodeRecord κ (genesisBlock κ c) ++ bs.flatMap (encodeRecord κ) := by
      rw [List.drop_zero, h.log, hstored, List.flatMap_cons]
    exact ⟨_, readRecord_of_drop rfl rfl hgenesis hdrop⟩
  obtain ⟨size, hread⟩ := hfirst h
  obtain ⟨size', hread'⟩ := hfirst h'
  rw [hfile, hread'] at hread
  have hblock : genesisBlock κ c' = genesisBlock κ c := congrArg Prod.fst (Except.ok.inj hread)
  exact (congrArg Block.chainId hblock).symm

theorem Inv.height_le {s s' : ChainStore} (h : s.Inv κ chainId) (h' : s'.Inv κ chainId)
    (hlonger : s.blockchain.storedBlocks <+: s'.blockchain.storedBlocks) :
    s.blockchain.tip.height ≤ s'.blockchain.tip.height := by
  have hinv : ∀ {s : ChainStore}, s.Inv κ chainId → s.blockchain.Inv κ chainId := by
    intro s h
    obtain ⟨bs, -, hreplay⟩ := h.replayed
    rw [hreplay]
    exact Blockchain.inv_replay κ chainId bs
  have hlt := (hinv h).tipIndex_lt
  have hblock : s'.blockchain.block s.blockchain.tipIndex = s.blockchain.tip := by
    rw [(hinv h).tip_eq, Blockchain.block, Blockchain.block]
    obtain ⟨rest, hrest⟩ := hlonger
    rw [← hrest, List.getD_append _ _ _ _ hlt]
  have hle := (hinv h').height_le_tip (hlt.trans_le hlonger.length_le)
  rw [hblock] at hle
  exact UInt64.le_iff_toNat_le.mpr hle

end ChainStore

/-! ## The directory and its process -/

/-- A data directory, and the process of the node that runs on it if one does. -/
structure Site where
  directory : DataDirectory
  node : Option (System NodeRuntime StorageIo Output) := none

namespace Site

/-- What happens to it. -/
inductive Event (κ : Crypto) where
  | start (config : RuntimeConfig) (io : StartIo)
  | move (next : Move (SignedCall κ) StorageIo)
  | crash
  | chainInit (io : StartIo)
  | chainAdd (io : AddBlockIo) (file : Option Bytes)
  | mempoolAdd (chainIo : OpenIo) (mempoolIo : MempoolOpenIo) (file : Option Bytes)
      (databaseOk : Bool)

/-- A log that could not be written is cut back. -/
def Event.Truncates : Event κ → Prop
  | .move (.advance _ io) => io.append.resizeOk = true
  | .chainAdd io _ => io.append.resizeOk = true
  | _ => True

/-- A command works on the directory while no node does. -/
def command (s : Site) (work : DataDirectory → DataDirectory) : Site :=
  match s.node with
  | some _ => s
  | none => { s with directory := work s.directory }

/-- One event. -/
def step (κ : Crypto) (s : Site) : Event κ → Site
  | .start config io =>
      match s.node with
      | some _ => s
      | none =>
          match initializeNode κ config s.directory io with
          | none => s
          | some n => ⟨Host.detach s.directory n, some ⟨n.startNetwork κ, []⟩⟩
  | .move next =>
      match s.node with
      | none => s
      | some system =>
          let system := system.move SignedCall.task next
          ⟨Host.detach s.directory system.state, some system⟩
  | .crash => { s with node := none }
  | .chainInit io => s.command fun directory => (initializeChainStore κ directory io).1
  | .chainAdd io file => s.command fun directory => (addBlockToStore κ directory io file).1
  | .mempoolAdd chainIo mempoolIo file databaseOk =>
      s.command fun directory =>
        (BBC.addTransaction κ directory chainIo mempoolIo file databaseOk).1

/-- Every rest of a handler keeps the configuration, and the files those of the node. -/
def Careful (κ : Crypto) (chainId : UInt32) (system : System NodeRuntime StorageIo Output) : Prop :=
  ∀ p ∈ system.threads,
    (∀ config, p.Keeps NodeRuntime.StorageIo.Truncates fun n => n.config = config) ∧
    p.Keeps NodeRuntime.StorageIo.Truncates Storeless ∧
      ∀ base, p.Keeps NodeRuntime.StorageIo.Truncates (OnDisk κ chainId base)

/-- What a process has in memory: the stores if it is a full node, and none otherwise. -/
def Loaded (κ : Crypto) (chain : ChainStore) (n : NodeRuntime) : Prop :=
  n.config.hasRole .fullNode = false ∧ Storeless n ∨
    n.config.hasRole .fullNode = true ∧ n.chainStore = some chain ∧
      ∃ pool, n.mempoolStore = some pool ∧ pool.Faithful κ

/-- The log of `chain` is in the directory, and its process has loaded it. -/
structure Holds (κ : Crypto) (chainId : UInt32) (s : Site) (chain : ChainStore) : Prop where
  log : chain.Inv κ chainId
  file : s.directory.blocksFile = some chain.blocksFile
  process : ∀ system, s.node = some system → Careful κ chainId system ∧ Loaded κ chain system.state

/-- The log after an event: this one or a longer one. -/
def Grown (κ : Crypto) (chainId : UInt32) (chain : ChainStore) (s : Site) : Prop :=
  ∃ next, s.Holds κ chainId next ∧
    chain.blockchain.storedBlocks <+: next.blockchain.storedBlocks

theorem Holds.grown {s : Site} {chain : ChainStore} (h : s.Holds κ chainId chain) :
    Grown κ chainId chain s := ⟨chain, h, List.prefix_rfl⟩

/-! ## The process -/

theorem Holds.alone {s s' : Site} {chain : ChainStore} (h : s.Holds κ chainId chain)
    (hfile : s'.directory.blocksFile = s.directory.blocksFile) (hnode : s'.node = none) :
    s'.Holds κ chainId chain where
  log := h.log
  file := hfile.trans h.file
  process := by
    intro system hsystem
    rw [hnode] at hsystem
    cases hsystem

theorem stable_config (config : RuntimeConfig) :
    NodeRuntime.Stable κ NodeRuntime.StorageIo.Truncates (SignedTransaction.Verified κ)
      fun n => n.config = config where
  congr h hn := h.config.trans hn
  append _ _ hn := (NodeRuntime.config_appendSection _ _ _).1.trans hn
  verified ht := ht
  add _ _ hn := by
    rw [NodeRuntime.addSection]
    split
    · exact hn
    · exact hn

theorem keeps_config (config : RuntimeConfig) (c : SignedCall κ) :
    c.task.Keeps NodeRuntime.StorageIo.Truncates fun n => n.config = config :=
  (stable_config config).keeps_call c.call c.signed fun _ _ _ hn => hn

theorem careful_move {system : System NodeRuntime StorageIo Output}
    (h : Careful κ chainId system) (next : Move (SignedCall κ) StorageIo) :
    Careful κ chainId (system.move SignedCall.task next) := by
  intro p hp
  refine ⟨fun config => ?_, ?_, fun base => ?_⟩
  · exact System.keeps_threads (keeps_config config) (fun p hp => (h p hp).1 config) next p hp
  · exact System.keeps_threads NodeRuntime.keeps_storeless (fun p hp => (h p hp).2.1) next p hp
  · exact System.keeps_threads NodeRuntime.keeps_onDisk (fun p hp => (h p hp).2.2 base) next p hp

theorem opened_initializeNode {config : RuntimeConfig} (hrole : config.hasRole .fullNode = true)
    {directory : DataDirectory} {file : Bytes} (hfile : directory.blocksFile = some file)
    {io : StartIo} {n : NodeRuntime} (h : initializeNode κ config directory io = some n) :
    ∃ chain pool, n.chainStore = some chain ∧ n.mempoolStore = some pool ∧
      ChainStore.openStore κ config.chainId io.chain (some file) = .ok chain ∧
      pool.Faithful κ := by
  rw [initializeNode] at h
  by_cases hreward : config.hasRole .miner = true ∧ config.rewardAddress.isNone = true
  · rw [if_pos hreward] at h
    cases h
  rw [if_neg hreward, if_neg (not_not.mpr hrole)] at h
  simp only [hfile] at h
  split at h
  · cases h
  rename_i chain hchain
  split at h
  · cases h
  rename_i pool hpool
  cases h
  exact ⟨chain, pool, rfl, rfl, hchain, MempoolStore.faithful_openStore hpool⟩

theorem storeless_initializeNode {config : RuntimeConfig}
    (hrole : ¬ config.hasRole .fullNode = true) {directory : DataDirectory} {io : StartIo}
    {n : NodeRuntime} (h : initializeNode κ config directory io = some n) : Storeless n := by
  rw [initializeNode] at h
  by_cases hreward : config.hasRole .miner = true ∧ config.rewardAddress.isNone = true
  · rw [if_pos hreward] at h
    cases h
  rw [if_neg hreward, if_pos hrole] at h
  cases h
  exact ⟨rfl, rfl⟩

theorem startNetwork_stores (n : NodeRuntime) :
    (n.startNetwork κ).config = n.config ∧ (n.startNetwork κ).chainStore = n.chainStore ∧
      (n.startNetwork κ).mempoolStore = n.mempoolStore := by
  rw [NodeRuntime.startNetwork]
  split
  · exact ⟨rfl, rfl, rfl⟩
  · exact ⟨rfl, rfl, rfl⟩

/-- A full node that starts on the log is of its network, and has it in memory. -/
theorem chain_initializeNode (hlaw : κ.SignatureLaw)
    (hgenesis : (genesisBlock κ 1).id κ ≠ (genesisBlock κ 2).id κ) {directory : DataDirectory}
    {chain : ChainStore} (hlog : chain.Inv κ chainId)
    (hfile : directory.blocksFile = some chain.blocksFile) {config : RuntimeConfig}
    (hrole : config.hasRole .fullNode = true) {io : StartIo} {n : NodeRuntime}
    (h : initializeNode κ config directory io = some n) :
    config.chainId = chainId ∧ n.chainStore = some chain ∧
      ∃ pool, n.mempoolStore = some pool ∧ pool.Faithful κ := by
  obtain ⟨opened, pool, hc, hp, hopen, htable⟩ := opened_initializeNode hrole hfile h
  obtain ⟨hopened, hsame⟩ := ChainStore.inv_openStore hlaw hgenesis
    (NodeRuntime.supportedChain_config config) hopen
  have hnetwork : config.chainId = chainId := hopened.chainId_unique hlog hsame
  rw [hnetwork] at hopened
  rw [hopened.eq_of_blocksFile hlog hsame] at hc
  exact ⟨hnetwork, hc, pool, hp, htable⟩

theorem Holds.start (hlaw : κ.SignatureLaw)
    (hgenesis : (genesisBlock κ 1).id κ ≠ (genesisBlock κ 2).id κ) {s : Site} {chain : ChainStore}
    (h : s.Holds κ chainId chain) {config : RuntimeConfig} {io : StartIo} {n : NodeRuntime}
    (hstart : initializeNode κ config s.directory io = some n) :
    (⟨Host.detach s.directory n, some ⟨n.startNetwork κ, []⟩⟩ : Site).Holds κ chainId chain := by
  obtain ⟨hsame, hchain, hpool⟩ := startNetwork_stores (κ := κ) n
  rw [(NodeRuntime.fresh_initializeNode hstart).1] at hsame
  by_cases hrole : config.hasRole .fullNode = true
  · obtain ⟨-, hc, pool, hp, htable⟩ := chain_initializeNode hlaw hgenesis h.log h.file hrole hstart
    refine ⟨h.log, ?_, ?_⟩
    · rw [Host.detach, hc]
    · intro system hsystem
      cases hsystem
      refine ⟨fun p hp => absurd hp List.not_mem_nil, Or.inr ⟨?_, hchain.trans hc, pool,
        hpool.trans hp, htable⟩⟩
      rw [hsame]
      exact hrole
  · obtain ⟨hc, hp⟩ := storeless_initializeNode hrole hstart
    refine ⟨h.log, ?_, ?_⟩
    · rw [Host.detach, hc]
      exact h.file
    · intro system hsystem
      cases hsystem
      refine ⟨fun p hp => absurd hp List.not_mem_nil,
        Or.inl ⟨?_, hchain.trans hc, hpool.trans hp⟩⟩
      rw [hsame]
      exact Bool.not_eq_true _ ▸ hrole

theorem Holds.move {s : Site} {chain : ChainStore} (h : s.Holds κ chainId chain)
    {next : Move (SignedCall κ) StorageIo} (htruncates : (Event.move next).Truncates) :
    Grown κ chainId chain (s.step κ (.move next)) := by
  rw [step]
  cases hnode : s.node with
  | none => exact h.grown
  | some system =>
      have hio : ∀ k io, next = .advance k io → NodeRuntime.StorageIo.Truncates io := by
        rintro k io rfl
        exact htruncates
      obtain ⟨hcareful, hloaded⟩ := h.process system hnode
      have hconfig := (System.keeps_move (keeps_config system.state.config) rfl
        (fun p hp => (hcareful p hp).1 _) hio).1
      rcases hloaded with ⟨hrole, hbare⟩ | ⟨hrole, hc, pool, hp, htable⟩
      · -- a process without the stores leaves the files alone
        obtain ⟨hchain, hpool⟩ := (System.keeps_move NodeRuntime.keeps_storeless hbare
          (fun p hp => (hcareful p hp).2.1) hio).1
        rw [← hconfig] at hrole
        refine ⟨chain, ⟨h.log, ?_, ?_⟩, List.prefix_rfl⟩
        · dsimp only
          rw [Host.detach, hchain]
          exact h.file
        · intro moved hmoved
          cases hmoved
          exact ⟨careful_move hcareful next, Or.inl ⟨hrole, hchain, hpool⟩⟩
      · have hdisk : OnDisk κ chainId chain.blockchain.storedBlocks system.state :=
          ⟨chain, pool, hc, hp, h.log, List.prefix_rfl, htable⟩
        obtain ⟨grown, nextPool, hgrown, hnext, hlog, hlonger, hfaithful⟩ :=
          (System.keeps_move NodeRuntime.keeps_onDisk hdisk
            (fun p hp => (hcareful p hp).2.2 _) hio).1
        rw [← hconfig] at hrole
        refine ⟨grown, ⟨hlog, ?_, ?_⟩, hlonger⟩
        · dsimp only
          rw [Host.detach, hgrown]
        · intro moved hmoved
          cases hmoved
          exact ⟨careful_move hcareful next, Or.inr ⟨hrole, hgrown, nextPool, hnext, hfaithful⟩⟩

/-! ## The commands -/

theorem Holds.command {s : Site} {chain : ChainStore} (h : s.Holds κ chainId chain)
    (work : DataDirectory → DataDirectory)
    (hwork : ∃ next : ChainStore, next.Inv κ chainId ∧
      (work s.directory).blocksFile = some next.blocksFile ∧
      chain.blockchain.storedBlocks <+: next.blockchain.storedBlocks) :
    Grown κ chainId chain (s.command work) := by
  rw [Site.command]
  cases hnode : s.node with
  | some system => exact h.grown
  | none =>
      obtain ⟨next, hlog, hfile, hlonger⟩ := hwork
      refine ⟨next, ⟨hlog, hfile, ?_⟩, hlonger⟩
      intro system hsystem
      cases hsystem

theorem blocksFile_initializeChainStore {directory : DataDirectory} {file : Bytes}
    (h : directory.blocksFile = some file) (io : StartIo) :
    (initializeChainStore κ directory io).1 = directory := by
  have hexisting : (io.files.existing || directory.blocksFile.isSome) = true := by
    rw [h]
    exact Bool.or_true _
  have hfails : ∃ e, ChainStore.initializeStore κ coreChainId
      { io.files with existing := io.files.existing || directory.blocksFile.isSome } io.chain
        = .error e := by
    rw [ChainStore.initializeStore, hexisting]
    by_cases hexists : ¬ io.files.existsOk = true
    · rw [if_pos hexists]
      exact ⟨_, rfl⟩
    · rw [if_neg hexists, if_pos rfl]
      exact ⟨_, rfl⟩
  obtain ⟨e, he⟩ := hfails
  rw [initializeChainStore, he]

theorem blocksFile_addTransaction (directory : DataDirectory) (chainIo : OpenIo)
    (mempoolIo : MempoolOpenIo) (file : Option Bytes) (databaseOk : Bool) :
    (BBC.addTransaction κ directory chainIo mempoolIo file databaseOk).1.blocksFile
      = directory.blocksFile := by
  rw [BBC.addTransaction]
  split
  · rfl
  · split
    · rfl
    · rfl

/-- `chain add` of any file leaves the log, or one with one block more. -/
theorem log_addBlockToStore {directory : DataDirectory} {chain : ChainStore}
    (hlaw : κ.SignatureLaw) (hgenesis : (genesisBlock κ 1).id κ ≠ (genesisBlock κ 2).id κ)
    (hlog : chain.Inv κ chainId) (hfile : directory.blocksFile = some chain.blocksFile)
    {io : AddBlockIo} (htruncates : io.append.resizeOk = true) (file : Option Bytes) :
    ∃ next : ChainStore, next.Inv κ chainId ∧
      (addBlockToStore κ directory io file).1.blocksFile = some next.blocksFile ∧
      chain.blockchain.storedBlocks <+: next.blockchain.storedBlocks := by
  have hunchanged : ∃ next : ChainStore, next.Inv κ chainId ∧
      directory.blocksFile = some next.blocksFile ∧
      chain.blockchain.storedBlocks <+: next.blockchain.storedBlocks :=
    ⟨chain, hlog, hfile, List.prefix_rfl⟩
  rw [addBlockToStore]
  cases hopen : ChainStore.openStore κ coreChainId io.chain directory.blocksFile with
  | error e => exact hunchanged
  | ok opened =>
      dsimp only
      cases hload : loadBlock κ io.file file with
      | error e => exact hunchanged
      | ok block =>
          -- the directory is of the network of the commands
          rw [hfile] at hopen
          obtain ⟨hopened, hsame⟩ := ChainStore.inv_openStore hlaw hgenesis
            (by decide : SupportedChain coreChainId) hopen
          have hnetwork : coreChainId = chainId := hopened.chainId_unique hlog hsame
          subst hnetwork
          have heq := hopened.eq_of_blocksFile hlog hsame
          subst heq
          obtain ⟨encoded, -, hdecoded⟩ := decoded_of_loadSized hload
          have hblock := Block.wellFormed_of_deserializeBlock hdecoded
          have hnext := hlog.append hblock htruncates
          have hlonger : opened.blockchain.storedBlocks
              <+: (opened.append κ block io.append).1.blockchain.storedBlocks := by
            rcases ChainStore.append_cases κ opened block io.append htruncates with
              ⟨hsame, -⟩ | ⟨hvalue, -, hgrown, -⟩
            · rw [hsame]
            · rw [hgrown]
              dsimp only
              rw [Blockchain.storedBlocks_append hvalue]
              exact List.prefix_append _ _
          refine ⟨(opened.append κ block io.append).1, hnext, ?_, hlonger⟩
          dsimp only
          split
          · rfl
          split
          · rfl
          split
          · rfl
          · rfl

/-! ## Runs -/

theorem Holds.step (hlaw : κ.SignatureLaw)
    (hgenesis : (genesisBlock κ 1).id κ ≠ (genesisBlock κ 2).id κ) {s : Site} {chain : ChainStore}
    (h : s.Holds κ chainId chain) (e : Event κ) (htruncates : e.Truncates) :
    Grown κ chainId chain (s.step κ e) := by
  cases e with
  | start config io =>
      rw [Site.step]
      cases hnode : s.node with
      | some system => exact h.grown
      | none =>
          cases hstart : initializeNode κ config s.directory io with
          | none => exact h.grown
          | some n => exact ⟨chain, h.start hlaw hgenesis hstart, List.prefix_rfl⟩
  | move next => exact h.move htruncates
  | crash =>
      have halone : ({ s with node := none } : Site).Holds κ chainId chain := h.alone rfl rfl
      exact halone.grown
  | chainInit io =>
      rw [Site.step]
      refine h.command _ ⟨chain, h.log, ?_, List.prefix_rfl⟩
      rw [blocksFile_initializeChainStore h.file]
      exact h.file
  | chainAdd io file =>
      rw [Site.step]
      exact h.command _ (log_addBlockToStore hlaw hgenesis h.log h.file htruncates file)
  | mempoolAdd chainIo mempoolIo file databaseOk =>
      rw [Site.step]
      refine h.command _ ⟨chain, h.log, ?_, List.prefix_rfl⟩
      rw [blocksFile_addTransaction]
      exact h.file

theorem Holds.run (hlaw : κ.SignatureLaw)
    (hgenesis : (genesisBlock κ 1).id κ ≠ (genesisBlock κ 2).id κ) (events : List (Event κ)) :
    ∀ {s : Site} {chain : ChainStore}, s.Holds κ chainId chain → (∀ e ∈ events, e.Truncates) →
      Grown κ chainId chain (Runs.run (Site.step κ) s events) := by
  induction events with
  | nil => intro s chain h _; exact h.grown
  | cons e events ih =>
      intro s chain h hall
      obtain ⟨htruncates, hrest⟩ := List.forall_mem_cons.mp hall
      obtain ⟨next, hnext, hlonger⟩ := h.step hlaw hgenesis e htruncates
      obtain ⟨last, hlast, hgrown⟩ := ih hnext hrest
      exact ⟨last, hlast, hlonger.trans hgrown⟩

/-- An undisturbed start of a full node of the network succeeds, whatever rows the pool has. -/
theorem Holds.startable {s : Site} {chain : ChainStore} (h : s.Holds κ chainId chain)
    {config : RuntimeConfig} (hconfig : Startable chainId config) :
    (initializeNode κ config s.directory {}).isSome = true := by
  have hreward : ¬ (config.hasRole .miner = true ∧ config.rewardAddress.isNone = true) := by
    rintro ⟨hminer, hnone⟩
    have hsome := hconfig.rewarded hminer
    rw [Option.isNone_iff_eq_none.mp hnone] at hsome
    cases hsome
  have hopen : ChainStore.openStore κ config.chainId {} (some chain.blocksFile) = .ok chain := by
    rw [hconfig.network]
    exact h.log.reopen
  rw [initializeNode, if_neg hreward, if_neg (not_not.mpr hconfig.fullNode)]
  simp only [h.file, hopen]
  have hpool : ∃ pool, MempoolStore.openStore κ {} s.directory.mempoolRows chain.blockchain.state
      = .ok pool := by
    rw [MempoolStore.openStore, if_neg (by simp), if_neg (by simp)]
    dsimp only
    rw [MempoolStore.rewrite_of_inv (MempoolStore.inv_loadRows _ (Mempool.Inv.new _)).1]
    exact ⟨_, rfl⟩
  obtain ⟨pool, hpool⟩ := hpool
  rw [hpool]
  rfl

/-- A directory whose log opens for a network, and any history of it: nodes of both networks
are started, run, in any interleaving of their handlers, and end; commands work on it in
between, and any of it can fail, as long as a log that could not be written is cut back.  Then
the log opens at every moment as that of the same network, it has every block that was ever
in it, in the old order, and its tip is never lower than it was.  A full node that runs has
this log in memory, a miner alone has none; one of the other network does not start, and
one of this network does unless its start is disturbed. -/
theorem log_over_lifetimes (κ : Crypto) (hlaw : κ.SignatureLaw)
    (hgenesis : (genesisBlock κ 1).id κ ≠ (genesisBlock κ 2).id κ) (chainId : UInt32)
    (hchain : SupportedChain chainId) (file : Bytes) (rows : List MempoolRow) (io : OpenIo)
    (store : ChainStore) (hopen : ChainStore.openStore κ chainId io (some file) = .ok store)
    (early late : List (Event κ)) (htruncates : ∀ e ∈ early ++ late, e.Truncates) :
    let now := Runs.run (Site.step κ) ⟨⟨some file, rows⟩, none⟩ early
    let later := Runs.run (Site.step κ) now late
    ∃ before after : ChainStore,
      ChainStore.openStore κ chainId {} now.directory.blocksFile = .ok before ∧
      ChainStore.openStore κ chainId {} later.directory.blocksFile = .ok after ∧
      before.blockchain.storedBlocks <+: after.blockchain.storedBlocks ∧
      before.blockchain.tip.height ≤ after.blockchain.tip.height ∧
      (∀ system, later.node = some system → system.state.chainStore
        = if system.state.config.hasRole .fullNode then some after else none) ∧
      (∀ config io n, config.hasRole .fullNode = true →
        initializeNode κ config later.directory io = some n →
          config.chainId = chainId ∧ n.chainStore = some after) ∧
      ∀ config, Startable chainId config →
        (initializeNode κ config later.directory {}).isSome = true := by
  intro now later
  obtain ⟨hlog, hsame⟩ := ChainStore.inv_openStore hlaw hgenesis hchain hopen
  have hinit : (⟨⟨some file, rows⟩, none⟩ : Site).Holds κ chainId store := by
    refine ⟨hlog, congrArg some hsame.symm, ?_⟩
    intro system hsystem
    cases hsystem
  obtain ⟨before, hnow, -⟩ := hinit.run hlaw hgenesis early
    fun e he => htruncates e (List.mem_append_left _ he)
  obtain ⟨after, hlater, hlonger⟩ := hnow.run hlaw hgenesis late
    fun e he => htruncates e (List.mem_append_right _ he)
  refine ⟨before, after, ?_, ?_, hlonger, hnow.log.height_le hlater.log hlonger, ?_, ?_, ?_⟩
  · rw [hnow.file]
    exact hnow.log.reopen
  · rw [hlater.file]
    exact hlater.log.reopen
  · intro system hsystem
    rcases (hlater.process system hsystem).2 with ⟨hrole, hbare⟩ | ⟨hrole, hc, -⟩
    · rw [hrole]
      exact hbare.1
    · rw [hrole]
      exact hc
  · intro config io n hrole hstart
    obtain ⟨hnetwork, hc, -⟩ :=
      chain_initializeNode hlaw hgenesis hlater.log hlater.file hrole hstart
    exact ⟨hnetwork, hc⟩
  · intro config hconfig
    exact hlater.startable hconfig

/-- A node takes a block from a peer and ends. -/
def minedHistory : List (Event reference) :=
  [.start NodeRuntime.developmentFullNode {},
    .move (.start ⟨.block 1 minedDevelopment.serialize, fun _ h => by cases h⟩),
    .move (.advance 0 {}), .move (.advance 0 {}), .crash]

/-- The block comes again by a command, a payment of its miner, and the node is started. -/
def resumedHistory : List (Event reference) :=
  [.chainAdd {} (some minedDevelopment.serialize),
    .mempoolAdd {} {} (some developmentPayment.serialize) true,
    .start NodeRuntime.developmentFullNode {}]

/-- The directory of `chain init`, and the log after the first process. -/
theorem minedHistory_log :
    (ChainStore.openStore reference 1 {}
        (some (encodeRecord reference (genesisBlock reference 1)))).isOk = true ∧
      (genesisBlock reference 1).id reference ≠ (genesisBlock reference 2).id reference ∧
      (Runs.run (Site.step reference)
        ⟨⟨some (encodeRecord reference (genesisBlock reference 1)), []⟩, none⟩
          minedHistory).directory.blocksFile
        = some ([genesisBlock reference 1, minedDevelopment].flatMap (encodeRecord reference)) := by
  decide +kernel

/-- The block stays, and the other network's node is refused. -/
theorem log_over_lifetimes_development :
    let file := encodeRecord reference (genesisBlock reference 1)
    let now := Runs.run (Site.step reference) ⟨⟨some file, []⟩, none⟩ minedHistory
    let later := Runs.run (Site.step reference) now resumedHistory
    now.directory.blocksFile
        = some ([genesisBlock reference 1, minedDevelopment].flatMap (encodeRecord reference)) ∧
    ∃ before after : ChainStore,
      ChainStore.openStore reference 1 {} now.directory.blocksFile = .ok before ∧
      ChainStore.openStore reference 1 {} later.directory.blocksFile = .ok after ∧
      before.blockchain.storedBlocks <+: after.blockchain.storedBlocks ∧
      (∀ system, later.node = some system → system.state.chainStore
        = if system.state.config.hasRole .fullNode then some after else none) ∧
      initializeNode reference NodeRuntime.regtestFullNode later.directory {} = none := by
  obtain ⟨hopens, hgenesis, hwritten⟩ := minedHistory_log
  cases hopen : ChainStore.openStore reference 1 {}
      (some (encodeRecord reference (genesisBlock reference 1))) with
  | error e =>
      rw [hopen] at hopens
      cases hopens
  | ok store =>
      have htruncates : ∀ e ∈ minedHistory ++ resumedHistory, e.Truncates := by
        intro e he
        simp only [minedHistory, resumedHistory, List.mem_append, List.mem_cons, List.not_mem_nil,
          or_false] at he
        rcases he with (rfl | rfl | rfl | rfl | rfl) | rfl | rfl | rfl <;> simp [Event.Truncates]
      obtain ⟨before, after, hnow, hlater, hlonger, -, hloaded, hnetwork, -⟩ :=
        log_over_lifetimes reference reference_signatureLaw hgenesis 1 (by decide) _ [] {} store
          hopen minedHistory resumedHistory htruncates
      refine ⟨hwritten, before, after, hnow, hlater, hlonger, hloaded, ?_⟩
      rw [Option.eq_none_iff_forall_ne_some]
      intro n hn
      exact absurd (hnetwork NodeRuntime.regtestFullNode {} n (by decide) hn).1 (by decide)

end Site

end BBC
