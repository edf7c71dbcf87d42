/-
# `BBC.App.Restart` — what a node finds when it starts again

A full node keeps two files, and a process that ends anywhere between two sections leaves
them as they are:

    chain/blocks.dat       the log of the stored blocks
    mempool/mempool.db     the rows of the pool

`OnDisk` says that the files are those of the node's own stores.  Every section of every
handler keeps it, whatever the storage does, as long as a log that could not be written is
cut back.  A node that is started on such files has the chain of the node before it; its
pool is the old one, offered again to the state of the active chain.

The one moment between two sections at which the files are not those of a store is inside
the write of a record (`crash_while_appending`).
-/
import BBC.App.Admissions
import BBC.Storage.LogLanguage

namespace BBC

open ByteCodec (subspan)
open Sections (Program Move System)

variable {κ : Crypto} {chainId : UInt32}

/-! ## Reading with and without disturbance -/

namespace ChainStore

theorem readRecord_undisturbed {io : OpenIo} {index offset : Nat} {file : Bytes} {r : Block × Nat}
    (h : readRecord κ io index file offset = .ok r) :
    readRecord κ {} index file offset = .ok r := by
  rw [readRecord] at h ⊢
  by_cases hsize : file.length - offset < recordHeaderSize + recordChecksumSize
  · rw [if_pos hsize] at h
    cases h
  rw [if_neg hsize] at h ⊢
  by_cases hheader : io.headerOk index = true
  swap
  · rw [if_pos hheader] at h
    cases h
  rw [if_neg (not_not.mpr hheader)] at h
  rw [if_neg (not_not.mpr rfl)]
  by_cases hmagic : subspan file offset 4 ≠ recordMagic
      ∨ subspan file (offset + 4) 4 ≠ [recordVersion, 0, 0, 0]
  · rw [if_pos hmagic] at h
    cases h
  rw [if_neg hmagic] at h ⊢
  dsimp only at h ⊢
  split at h
  · cases h
  rename_i hpayload
  rw [if_neg hpayload]
  split at h
  · cases h
  rename_i hroom
  rw [if_neg hroom]
  by_cases hread : io.payloadOk index = true
  swap
  · rw [if_pos hread] at h
    cases h
  rw [if_neg (not_not.mpr hread)] at h
  rw [if_neg (not_not.mpr rfl)]
  exact h

theorem scan_undisturbed {io : OpenIo} {file : Bytes} (fuel : Nat) :
    ∀ {offset : Nat} {chain : Blockchain} {records : List (Nat × Nat)}
      {out : Blockchain × List (Nat × Nat)},
      scan κ chainId io file fuel offset chain records = .ok out →
        scan κ chainId {} file fuel offset chain records = .ok out := by
  induction fuel with
  | zero => intro offset chain records out h; exact h
  | succ fuel ih =>
      intro offset chain records out h
      rw [scan] at h ⊢
      by_cases hlt : offset < file.length
      swap
      · rw [if_pos hlt] at h ⊢
        exact h
      rw [if_neg (not_not.mpr hlt)] at h ⊢
      cases hread : readRecord κ io records.length file offset with
      | error e =>
          rw [hread] at h
          cases h
      | ok r =>
          rw [hread] at h
          rw [readRecord_undisturbed hread]
          dsimp only at h ⊢
          cases hreplay : replayRecord κ chainId chain records.isEmpty r.1 with
          | error e =>
              rw [hreplay] at h
              cases h
          | ok next =>
              rw [hreplay] at h
              exact ih h

/-- Disturbance can keep a log from opening, and nothing else. -/
theorem openStore_undisturbed {io : OpenIo} {file : Bytes} {s : ChainStore}
    (h : openStore κ chainId io (some file) = .ok s) :
    openStore κ chainId {} (some file) = .ok s := by
  rw [openStore] at h ⊢
  by_cases hsize : ¬ io.sizeOk = true ∨ file.length > 2 ^ 64 - 1
  · rw [if_pos hsize] at h
    cases h
  rw [if_neg hsize] at h
  rw [if_neg (not_or.mpr ⟨not_not.mpr rfl, (not_or.mp hsize).2⟩)]
  split at h
  · cases h
  rw [if_neg (not_not.mpr rfl)]
  cases hscan : scan κ chainId io file file.length 0 (Blockchain.new κ chainId) [] with
  | error e =>
      rw [hscan] at h
      cases h
  | ok out =>
      rw [hscan] at h
      rw [scan_undisturbed _ hscan]
      dsimp only at h ⊢
      split at h
      · cases h
      rename_i hrecords
      rw [if_neg hrecords]
      split at h
      · cases h
      · rename_i hdatabase
        cases h
        obtain ⟨hok, -⟩ := le_of_rebuildDatabase (not_not.mp hdatabase)
        rw [hok] at hdatabase
        rw [if_neg hdatabase]

/-- So the log of a store opens as that store or not at all. -/
theorem Inv.eq_of_openStore {s s' : ChainStore} (h : s.Inv κ chainId) {io : OpenIo}
    (hopen : openStore κ chainId io (some s.blocksFile) = .ok s') : s' = s := by
  have hagain := openStore_undisturbed hopen
  rw [h.reopen] at hagain
  exact (Except.ok.inj hagain).symm

end ChainStore

/-! ## The stores of a node and their files -/

namespace Blockchain

theorem storedBlocks_append {c : Blockchain} {b : Block}
    (h : (c.append κ b).2.hasValue = true) :
    (c.append κ b).1.storedBlocks = c.storedBlocks ++ [b] := by
  have hone := storedBlocks_appendAll (κ := κ) [b] c
  rw [accepted, if_pos h] at hone
  exact hone

end Blockchain

namespace NodeRuntime

/-- The node holds the blocks `base`, and the two files hold what the node does. -/
def OnDisk (κ : Crypto) (chainId : UInt32) (base : List Block) (n : NodeRuntime) : Prop :=
  ∃ chain pool, n.chainStore = some chain ∧ n.mempoolStore = some pool ∧
    chain.Inv κ chainId ∧ base <+: chain.blockchain.storedBlocks ∧ pool.Faithful κ

variable {base : List Block}

theorem OnDisk.congr {n m : NodeRuntime} (h : n.OnDisk κ chainId base)
    (hchain : m.chainStore = n.chainStore) (hpool : m.mempoolStore = n.mempoolStore) :
    m.OnDisk κ chainId base := by
  obtain ⟨chain, pool, hc, hp, hrest⟩ := h
  exact ⟨chain, pool, hchain.trans hc, hpool.trans hp, hrest⟩

theorem OnDisk.appendSection {n : NodeRuntime} (h : n.OnDisk κ chainId base) {block : Block}
    (hblock : block.WellFormed κ) {io : StorageIo} (hio : io.append.resizeOk = true) :
    (n.appendSection κ block io).1.OnDisk κ chainId base := by
  obtain ⟨chain, pool, hc, hp, hlog, hbase, htable⟩ := h
  rw [NodeRuntime.appendSection, hc]
  dsimp only
  have hnext := hlog.append hblock hio
  rcases ChainStore.append_cases κ chain block io.append hio with
    ⟨hsame, hnone⟩ | ⟨hvalue, hresult, hgrown, -⟩
  · rw [if_neg (by rw [hnone]; exact fun hand => Bool.false_ne_true hand.1), hsame]
    exact ⟨chain, pool, rfl, hp, hlog, hbase, htable⟩
  · have hblockchain : (chain.append κ block io.append).1.blockchain
        = (chain.blockchain.append κ block).1 := by
      rw [hgrown]
    have hlonger : base <+: (chain.append κ block io.append).1.blockchain.storedBlocks := by
      rw [hblockchain, Blockchain.storedBlocks_append hvalue]
      exact hbase.trans (List.prefix_append _ _)
    split
    · rw [updateMempoolAfterChainChange]
      simp only [hp]
      refine ⟨_, _, rfl, rfl, hnext, hlonger, (htable.reconcileReorganization ?_ _ _).1⟩
      -- a detached block is a stored one, so it has been decoded
      rw [hresult]
      intro d hd
      obtain ⟨bs, -, hreplay⟩ := hlog.replayed
      have hinv : chain.blockchain.Inv κ chainId := by
        rw [hreplay]
        exact Blockchain.inv_replay κ chainId bs
      exact hlog.wellFormed d
        (Blockchain.mem_of_mem_detachedBlocks hinv (Blockchain.hasValue_iff.mp hvalue) hd)
    · exact ⟨_, pool, rfl, hp, hnext, hlonger, htable⟩

theorem OnDisk.addSection {n : NodeRuntime} (h : n.OnDisk κ chainId base) {t : SignedTransaction}
    (ht : t.Verified κ) (io : StorageIo) : (n.addSection κ t io).1.OnDisk κ chainId base := by
  obtain ⟨chain, pool, hc, hp, hlog, hbase, htable⟩ := h
  rw [NodeRuntime.addSection, hc, hp]
  exact ⟨chain, _, rfl, rfl, hlog, hbase, (htable.add ht _).1⟩

/-- A log that could not be written is cut back. -/
def StorageIo.Truncates (io : StorageIo) : Prop := io.append.resizeOk = true

theorem stable_onDisk :
    Stable κ StorageIo.Truncates (SignedTransaction.Verified κ) (OnDisk κ chainId base) where
  congr h hn := hn.congr h.chain h.pool
  append hblock hio hn := hn.appendSection hblock hio
  verified ht := ht
  add ht _ hn := hn.addSection ht _

/-- A process without the stores never gets them. -/
def Storeless (n : NodeRuntime) : Prop := n.chainStore = none ∧ n.mempoolStore = none

theorem stable_storeless :
    Stable κ StorageIo.Truncates (SignedTransaction.Verified κ) Storeless where
  congr h hn := ⟨h.chain.trans hn.1, h.pool.trans hn.2⟩
  append _ _ hn := by
    rw [NodeRuntime.appendSection, hn.1]
    exact hn
  verified ht := ht
  add _ _ hn := by
    rw [NodeRuntime.addSection, hn.1]
    exact hn

/-- A handler as it is started: the RPC decodes a transaction before it submits it. -/
structure SignedCall (κ : Crypto) where
  call : Call
  signed : ∀ t, call = .submit t → t.Verified κ

/-- The handler that it runs. -/
def SignedCall.task (c : SignedCall κ) : Task := c.call.task κ

theorem keeps_onDisk (c : SignedCall κ) :
    c.task.Keeps StorageIo.Truncates (OnDisk κ chainId base) :=
  stable_onDisk.keeps_call c.call c.signed fun _ _ _ hn => hn.congr rfl rfl

theorem keeps_storeless (c : SignedCall κ) : c.task.Keeps StorageIo.Truncates Storeless :=
  stable_storeless.keeps_call c.call c.signed fun _ _ _ hn => hn

/-! ## The next start -/

end NodeRuntime

namespace MempoolStore

/-- The pool of some transactions, offered in turn to a state. -/
def offered (κ : Crypto) (state : ChainState) (ts : List SignedTransaction) : MempoolStore :=
  let pool := (⟨state, []⟩ : Mempool).addAll κ ts
  ⟨pool, rowsOf κ pool⟩

theorem Faithful.load {s : MempoolStore} (h : s.Faithful κ) (state : ChainState) :
    openStore κ {} s.rows state = .ok (offered κ state s.mempool.transactions) ∧
      ∀ io s', openStore κ io s.rows state = .ok s' →
        s' = offered κ state s.mempool.transactions := by
  have hload : s.rows.foldl (loadRow κ) ⟨state, []⟩
      = (⟨state, []⟩ : Mempool).addAll κ s.mempool.transactions := by
    rw [h.rows, rowsOf, loadRows_rowsOf _ h.verified]
  have hinv : ((⟨state, []⟩ : Mempool).addAll κ s.mempool.transactions).Inv κ :=
    (Mempool.Inv.new state).addAll _
  constructor
  · rw [openStore, if_neg (by simp), if_neg (by simp)]
    dsimp only
    rw [hload, rewrite_of_inv hinv]
    rfl
  · intro io s' hopen
    rw [openStore] at hopen
    split_ifs at hopen
    dsimp only at hopen
    rw [hload] at hopen
    split at hopen
    · cases hopen
    · rename_i hrewrite
      cases hopen
      rw [rows_of_rewrite hinv hrewrite]
      rfl

/-- On its own state it is the pool itself. -/
theorem Faithful.offered_self {s : MempoolStore} (h : s.Faithful κ) :
    offered κ s.mempool.chainState s.mempool.transactions = s := by
  have hpool : (⟨s.mempool.chainState, []⟩ : Mempool).addAll κ s.mempool.transactions = s.mempool :=
    h.replays
  rw [offered, hpool, ← h.rows]

end MempoolStore

namespace NodeRuntime

variable {base : List Block}

/-- A full node of the network that has what it needs to start. -/
structure Startable (chainId : UInt32) (config : RuntimeConfig) : Prop where
  fullNode : config.hasRole .fullNode = true
  rewarded : config.hasRole .miner = true → config.rewardAddress.isSome = true
  network : config.chainId = chainId

/-- A node on the files of a chain and a pool. -/
def restarted (κ : Crypto) (config : RuntimeConfig) (chain : ChainStore) (pool : MempoolStore) :
    NodeRuntime where
  config := config
  chainStore := some chain
  mempoolStore := some (MempoolStore.offered κ chain.blockchain.state pool.mempool.transactions)

/-- A start on these files gives that node, or fails because it was disturbed. -/
theorem initializeNode_files {config : RuntimeConfig} (hconfig : Startable chainId config)
    {chain : ChainStore} (hlog : chain.Inv κ chainId) {pool : MempoolStore}
    (htable : pool.Faithful κ) :
    initializeNode κ config ⟨some chain.blocksFile, pool.rows⟩ {}
        = some (restarted κ config chain pool) ∧
      ∀ io n, initializeNode κ config ⟨some chain.blocksFile, pool.rows⟩ io = some n →
        n = restarted κ config chain pool := by
  have hreward : ¬ (config.hasRole .miner = true ∧ config.rewardAddress.isNone = true) := by
    rintro ⟨hminer, hnone⟩
    have hsome := hconfig.rewarded hminer
    rw [Option.isNone_iff_eq_none.mp hnone] at hsome
    cases hsome
  obtain ⟨hload, hany⟩ := htable.load chain.blockchain.state
  constructor
  · have hopen : ChainStore.openStore κ config.chainId {} (some chain.blocksFile) = .ok chain := by
      rw [hconfig.network]
      exact hlog.reopen
    rw [initializeNode, if_neg hreward, if_neg (not_not.mpr hconfig.fullNode)]
    dsimp only
    rw [hopen]
    dsimp only
    rw [hload]
    rfl
  · intro io n h
    rw [initializeNode, if_neg hreward, if_neg (not_not.mpr hconfig.fullNode)] at h
    dsimp only at h
    cases hopen : ChainStore.openStore κ config.chainId io.chain (some chain.blocksFile) with
    | error e =>
        rw [hopen] at h
        cases h
    | ok opened =>
        rw [hopen] at h
        rw [hconfig.network] at hopen
        have hsame := hlog.eq_of_openStore hopen
        subst hsame
        dsimp only at h
        cases hpool : MempoolStore.openStore κ io.mempool pool.rows opened.blockchain.state with
        | error e =>
            rw [hpool] at h
            cases h
        | ok reopened =>
            rw [hpool, hany _ _ hpool] at h
            cases h
            rfl

theorem detach_onDisk {n : NodeRuntime} {chain : ChainStore} {pool : MempoolStore}
    (hc : n.chainStore = some chain) (hp : n.mempoolStore = some pool)
    (directory : DataDirectory) :
    Host.detach directory n = ⟨some chain.blocksFile, pool.rows⟩ := by
  rw [Host.detach, hc, hp]

theorem OnDisk.startNetwork {n : NodeRuntime} (h : n.OnDisk κ chainId base) :
    (n.startNetwork κ).OnDisk κ chainId base := by
  refine h.congr ?_ ?_
  · unfold NodeRuntime.startNetwork
    split <;> rfl
  · unfold NodeRuntime.startNetwork
    split <;> rfl

end NodeRuntime

namespace ChainStore

theorem inv_openStore (hlaw : κ.SignatureLaw)
    (hgenesis : (genesisBlock κ 1).id κ ≠ (genesisBlock κ 2).id κ)
    (hchain : SupportedChain chainId) {io : OpenIo} {file : Bytes} {s : ChainStore}
    (h : openStore κ chainId io (some file) = .ok s) :
    s.Inv κ chainId ∧ s.blocksFile = file := by
  obtain ⟨bs, hobtainable, hacc, hfile, rfl⟩ := log_of_openStore hchain hgenesis h
  have hagain := openStore_undisturbed h
  refine ⟨inv_storeOf hchain (fun b hb => (hobtainable b hb).wellFormed hlaw) hacc ?_, hfile.symm⟩
  rw [openStore] at hagain
  split at hagain
  · cases hagain
  split at hagain
  · cases hagain
  split at hagain
  · cases hagain
  dsimp only at hagain
  split_ifs at hagain with hempty hdatabase
  rw [← Except.ok.inj hagain]
  exact not_not.mp hdatabase

/-- A log with a part of one more record does not open. -/
theorem Inv.torn {s : ChainStore} (h : s.Inv κ chainId) {b : Block} (hb : b.WellFormed κ)
    (happend : (s.append κ b {}).2.hasValue = true) {k : Nat} (hpos : 0 < k)
    (hlt : k < (encodeRecord κ b).length) (io : OpenIo) :
    ∀ s', openStore κ chainId io (some (s.blocksFile ++ (encodeRecord κ b).take k)) ≠ .ok s' := by
  intro s' hopen
  have hnext : (s.append κ b {}).1.Inv κ chainId := h.append hb rfl
  rcases append_cases κ s b {} rfl with ⟨-, hnone⟩ | ⟨hvalue, -, hgrown, -⟩
  · rw [hnone] at happend
    cases happend
  obtain ⟨bs, hacc, hreplay⟩ := h.replayed
  have hstored : s.blockchain.storedBlocks = genesisBlock κ chainId :: bs := by
    rw [hreplay, Blockchain.storedBlocks_replay, hacc]
  have hwell : ∀ d ∈ bs ++ [b], d.WellFormed κ := by
    intro d hd
    rcases List.mem_append.mp hd with hd | hd
    · exact h.wellFormed d (by rw [hstored]; exact List.mem_cons_of_mem _ hd)
    · rw [List.mem_singleton.mp hd]
      exact hb
  have hall : Blockchain.accepted κ (Blockchain.new κ chainId) (bs ++ [b]) = bs ++ [b] := by
    have hrun : (Blockchain.new κ chainId).appendAll κ bs = s.blockchain := hreplay.symm
    rw [accepted_append, hacc, hrun, Blockchain.accepted, if_pos hvalue]
    rfl
  have hlength : (s.blocksFile ++ (encodeRecord κ b).take k).length ≤ 2 ^ 64 - 1 := by
    have hwhole := hnext.length_le
    rw [hgrown, List.length_append] at hwhole
    rw [List.length_append, List.length_take]
    omega
  have hfile : s.blocksFile ++ (encodeRecord κ b).take k
      = ((genesisBlock κ chainId :: (bs ++ [b])).take (bs.length + 1)).flatMap (encodeRecord κ)
        ++ (encodeRecord κ b).take k := by
    rw [List.take_succ_cons, List.take_left, ← hstored, h.log]
  have htorn := openStore_torn h.supported hwell hall hlength (i := bs.length + 1) (d := b)
    (by rw [List.getElem?_cons_succ, List.getElem?_concat_length]) hpos hlt hfile
  rw [openStore_undisturbed hopen] at htorn
  cases htorn

end ChainStore

namespace NodeRuntime

theorem onDisk_initializeNode (hlaw : κ.SignatureLaw)
    (hgenesis : (genesisBlock κ 1).id κ ≠ (genesisBlock κ 2).id κ) {config : RuntimeConfig}
    (hrole : config.hasRole .fullNode = true) (hchain : SupportedChain config.chainId)
    {directory : DataDirectory} {io : StartIo} {n : NodeRuntime}
    (h : initializeNode κ config directory io = some n) : n.OnDisk κ config.chainId [] := by
  obtain ⟨chain, pool, -, hc, hp, -, -, hpool⟩ := stores_initializeNode hrole h
  refine ⟨chain, pool, hc, hp, ?_, List.nil_prefix, MempoolStore.faithful_openStore hpool⟩
  rw [initializeNode] at h
  by_cases hreward : config.hasRole .miner = true ∧ config.rewardAddress.isNone = true
  · rw [if_pos hreward] at h
    cases h
  rw [if_neg hreward, if_neg (not_not.mpr hrole)] at h
  dsimp only at h
  split at h
  · cases h
  rename_i opened hopened
  split at h
  · cases h
  cases h
  cases hc
  split at hopened
  · exact (ChainStore.inv_openStore hlaw hgenesis hchain hopened).1
  · exact ChainStore.Inv.initializeStore hopened

theorem supportedChain_config (config : RuntimeConfig) : SupportedChain config.chainId := by
  rw [RuntimeConfig.chainId, networkParameters]
  split
  · decide
  · decide

/-- A full node runs, in any interleaving of its handlers, and its process ends.  If it ends
between two sections, the next start finds the chain, and the pool offered again to the state
of the active chain.  If it ends while the record of a block is written, the next start
depends on the bytes that have reached the file: with none of them it is that node, with all
of them the one with the block, and with a part of them it is refused, however often it is
tried. -/
theorem crash_while_appending (κ : Crypto) (hlaw : κ.SignatureLaw)
    (hgenesis : (genesisBlock κ 1).id κ ≠ (genesisBlock κ 2).id κ) (config : RuntimeConfig)
    (hconfig : Startable config.chainId config) (directory : DataDirectory) (io : StartIo)
    (start : NodeRuntime) (hstart : initializeNode κ config directory io = some start)
    (moves : List (Move (SignedCall κ) StorageIo))
    (htruncates : ∀ k io, Move.advance k io ∈ moves → io.append.resizeOk = true) :
    let n := (System.run SignedCall.task ⟨start.startNetwork κ, []⟩ moves).state
    ∃ chain pool, n.chainStore = some chain ∧ n.mempoolStore = some pool ∧
      initializeNode κ config (Host.detach directory n) {} = some (restarted κ config chain pool) ∧
      ∀ block : Block, block.WellFormed κ → (chain.append κ block {}).2.hasValue = true → ∀ k : Nat,
        let torn : DataDirectory :=
          ⟨some (chain.blocksFile ++ (encodeRecord κ block).take k), pool.rows⟩
        (k = 0 → initializeNode κ config torn {} = some (restarted κ config chain pool)) ∧
        (0 < k → k < (encodeRecord κ block).length →
          ∀ io, initializeNode κ config torn io = none) ∧
        ((encodeRecord κ block).length ≤ k →
          initializeNode κ config torn {}
            = some (restarted κ config (chain.append κ block {}).1 pool)) := by
  intro n
  have hinit : (start.startNetwork κ).OnDisk κ config.chainId [] :=
    (onDisk_initializeNode hlaw hgenesis hconfig.fullNode (supportedChain_config config)
      hstart).startNetwork
  have hn : n.OnDisk κ config.chainId [] :=
    System.keeps keeps_onDisk moves hinit (fun _ hp => absurd hp List.not_mem_nil) htruncates
  obtain ⟨chain, pool, hc, hp, hlog, -, htable⟩ := hn
  have hwhole := (initializeNode_files hconfig hlog htable).1
  refine ⟨chain, pool, hc, hp, ?_, ?_⟩
  · rw [detach_onDisk hc hp]
    exact hwhole
  intro block hblock hvalue k torn
  refine ⟨?_, ?_, ?_⟩
  · rintro rfl
    have htorn : torn = ⟨some chain.blocksFile, pool.rows⟩ := by
      show (⟨some (chain.blocksFile ++ _), _⟩ : DataDirectory) = _
      rw [List.take_zero, List.append_nil]
    rw [htorn]
    exact hwhole
  · intro hpos hlt io
    have hclosed := hlog.torn hblock hvalue hpos hlt io.chain
    have hrefused : ∃ e, ChainStore.openStore κ config.chainId io.chain
        (some (chain.blocksFile ++ (encodeRecord κ block).take k)) = .error e := by
      cases hopen : ChainStore.openStore κ config.chainId io.chain
          (some (chain.blocksFile ++ (encodeRecord κ block).take k)) with
      | error e => exact ⟨e, rfl⟩
      | ok s => exact absurd hopen (hclosed s)
    obtain ⟨e, he⟩ := hrefused
    rw [initializeNode]
    by_cases hreward : config.hasRole .miner = true ∧ config.rewardAddress.isNone = true
    · rw [if_pos hreward]
    rw [if_neg hreward, if_neg (not_not.mpr hconfig.fullNode)]
    dsimp only [torn]
    rw [he]
  · intro hle
    have hgrown : (chain.append κ block {}).1.blocksFile
        = chain.blocksFile ++ (encodeRecord κ block).take k := by
      rw [List.take_of_length_le hle]
      rcases ChainStore.append_cases κ chain block {} rfl with ⟨-, hnone⟩ | ⟨-, -, hnext, -⟩
      · rw [hnone] at hvalue
        cases hvalue
      · rw [hnext]
    have hafter : (chain.append κ block {}).1.Inv κ config.chainId := hlog.append hblock rfl
    have hnext := (initializeNode_files hconfig hafter htable).1
    rw [hgrown] at hnext
    exact hnext

/-- A node takes the first block and the payment of its miner. -/
def arrivedMoves : List (Move (SignedCall reference) StorageIo) :=
  [.start ⟨.block 1 minedFirst.serialize, fun _ h => by cases h⟩, .advance 0 {}, .advance 0 {},
    .start ⟨.submit minerPayment, fun _ h => by
      cases h
      exact PoolDatabase.obtainable_minerPayment.verified reference reference_signatureLaw⟩,
    .advance 1 {}, .advance 1 {}]

theorem wellFormed_minedPayment : minedPayment.WellFormed reference where
  supported := by decide
  validated := validateTransactions_of_nodup minedPayment.bounded
    (List.forall_mem_singleton.mpr rfl) (List.nodup_singleton _)
  root := rfl
  verified := List.forall_mem_singleton.mpr
    (PoolDatabase.obtainable_minerPayment.verified reference reference_signatureLaw)
  shape := Or.inr ⟨by decide, by decide +kernel, _, rfl, by decide +kernel⟩

/-- The run, evaluated, and the block that confirms the payment. -/
theorem arrived :
    let m : System NodeRuntime StorageIo Output :=
      ⟨NodeRuntime.startNetwork reference
        { config := regtestFullNode
          chainStore := some ChainStore.genesisStore
          mempoolStore := some ⟨⟨{}, []⟩, []⟩ }, []⟩
    let n := (m.run SignedCall.task arrivedMoves).state
    (n.chainStore.map fun chain => (chain.blockchain.tip,
      (chain.append reference minedPayment {}).2.hasValue)) = some (minedFirst, true) ∧
      (n.mempoolStore.map fun pool => pool.mempool.transactions) = some [minerPayment] := by
  decide +kernel

theorem crash_while_appending_mined :
    ∃ start, initializeNode reference regtestFullNode {} {} = some start ∧
      let n := (System.run SignedCall.task ⟨start.startNetwork reference, []⟩ arrivedMoves).state
      ∃ chain pool, n.chainStore = some chain ∧ n.mempoolStore = some pool ∧
        chain.blockchain.tip = minedFirst ∧ pool.mempool.transactions = [minerPayment] ∧
        (∀ io, initializeNode reference regtestFullNode
          ⟨some (chain.blocksFile ++ (encodeRecord reference minedPayment).take 100), pool.rows⟩ io
            = none) ∧
        ∃ next, initializeNode reference regtestFullNode
          ⟨some (chain.blocksFile ++ (encodeRecord reference minedPayment).take 370), pool.rows⟩ {}
            = some next ∧
          next.chainStore = some (chain.append reference minedPayment {}).1 := by
  have hstart := initializeNode_regtestFullNode
  refine ⟨_, hstart, ?_⟩
  obtain ⟨chain, pool, hc, hp, -, hcrash⟩ := crash_while_appending reference
    reference_signatureLaw (by decide +kernel) regtestFullNode
    ⟨by decide, fun h => absurd h (by decide), rfl⟩ {} {} _ hstart arrivedMoves (by
      intro k io hmem
      simp only [arrivedMoves, List.mem_cons, List.not_mem_nil, or_false, reduceCtorEq, false_or,
        Move.advance.injEq] at hmem
      rcases hmem with ⟨-, rfl⟩ | ⟨-, rfl⟩ | ⟨-, rfl⟩ | ⟨-, rfl⟩ <;> rfl)
  obtain ⟨hchain, hpool⟩ := arrived
  rw [hc, Option.map_some, Option.some.injEq, Prod.mk.injEq] at hchain
  rw [hp, Option.map_some, Option.some.injEq] at hpool
  have hlength : (encodeRecord reference minedPayment).length = 370 := by decide +kernel
  have hcrash := hcrash minedPayment wellFormed_minedPayment hchain.2
  refine ⟨chain, pool, hc, hp, hchain.1, hpool, ?_, ?_⟩
  · exact (hcrash 100).2.1 (by decide) (by rw [hlength]; decide)
  · exact ⟨_, (hcrash 370).2.2 (Nat.le_of_eq hlength), rfl⟩

end NodeRuntime

end BBC
