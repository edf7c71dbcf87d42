/-
# `BBC.App.MinedFile` — the way of a block through the commands

    bbc block candidate    a block file on the tip, with the selection of the pool
    bbc block mine         the same block with a nonce that solves it, in another file
    bbc chain add          the log with one record more, and the pool without the block

`src/app/block_commands.cpp` and `src/app/chain_commands.cpp`.  Each is a process of its own,
and all that goes from one to the next is the file.  A block that has come this way is the
new tip, and the pool has lost what is in it and nothing else (`mined_file_extends`).
-/
import BBC.App.Commands
import BBC.Consensus.NonceSearch
import BBC.Storage.Confirmed

namespace BBC

open NewFiles (CreateIo Created create create_done)
open NodeRuntime (DataDirectory)
open ParentTree (path getLast?_path)

variable {κ : Crypto} {chainId : UInt32}

/-! ## A child of the tip -/

namespace Blockchain

theorem Inv.extended {c : Blockchain} (h : c.Inv κ chainId) {b : Block} {next : ChainState}
    (ha : c.Accepts κ b c.tipIndex next) :
    (c.append κ b).1.blocks = c.blocks ++ [b] ∧ (c.append κ b).1.state = next ∧
      (c.append κ b).2.detachedBlocks = [] ∧ (c.append κ b).2.activeChainChanged = true := by
  have hlt : c.tip.height < b.height := by
    rw [UInt64.lt_iff_toNat_lt, ha.height_toNat, ← h.tip_eq]
    exact Nat.lt_succ_self _
  have htree := h.toTree.store ha h.chainId_tip
  have hn : c.storedBlocks.length < (c.store κ b c.tipIndex next).storedBlocks.length := by
    rw [length_store]
    exact Nat.lt_succ_self _
  have hpos : 0 < c.storedBlocks.length := Nat.zero_lt_of_lt h.tipIndex_lt
  have hblocks : (c.append κ b).1.blocks = c.blocks ++ [b] := by
    have hbranch : (c.append κ b).1.blocks
        = (c.store κ b c.tipIndex next).branch c.storedBlocks.length := by
      rw [append_of_accepts ha, h.choose_of_lt ha hlt]
      rfl
    have hparent : (c.store κ b c.tipIndex next).parent c.storedBlocks.length = c.tipIndex := by
      rw [parent, h.node_new]
    rw [hbranch, htree.branch_of_pos hpos hn, hparent, block_store_self,
      h.branch_store h.tipIndex_lt, ← h.blocks_eq_branch]
  have hstate : (c.append κ b).1.state = next := by
    have hnode : (c.append κ b).1.state
        = ((c.store κ b c.tipIndex next).node c.storedBlocks.length).state := by
      rw [append_of_accepts ha, h.choose_of_lt ha hlt]
      show ((c.store κ b c.tipIndex next).node ((path _ _).getLastD 0)).state = _
      rw [List.getLastD_eq_getLast?, getLast?_path htree.descends hn]
      rfl
    rw [hnode, h.node_new]
  refine ⟨hblocks, hstate, ?_, ?_⟩
  · obtain ⟨k, hswitched⟩ := h.switched ha hlt
    have hkept := hswitched.longest c.blocks List.prefix_rfl (by
      rw [hblocks]
      exact List.prefix_append _ _)
    have hlength := hkept.length_le
    have hold := congrArg List.length hswitched.old
    rw [List.length_append] at hold
    exact List.eq_nil_of_length_eq_zero (by omega)
  · rw [h.activeChainChanged_append ha]
    exact decide_eq_true hlt

end Blockchain

namespace ChainStore

/-- With room in the index an undisturbed `append` stores what the chain accepts. -/
theorem Inv.append_of_room {s : ChainStore} (h : s.Inv κ chainId) {b : Block}
    (hvalue : (s.blockchain.append κ b).2.hasValue = true)
    (hroom : s.blocksFile.length + (encodeRecord κ b).length ≤ maxSqliteInt) :
    (s.append κ b {}).2 = { chainResult := (s.blockchain.append κ b).2 } ∧
      (s.append κ b {}).1.blockchain = (s.blockchain.append κ b).1 := by
  obtain ⟨bs, hacc, hreplay⟩ := h.replayed
  have hstored : s.blockchain.storedBlocks = genesisBlock κ chainId :: bs := by
    rw [hreplay, Blockchain.storedBlocks_replay, hacc]
  have hall : Blockchain.accepted κ (Blockchain.new κ chainId) (bs ++ [b]) = bs ++ [b] := by
    have hrun : (Blockchain.new κ chainId).appendAll κ bs = s.blockchain := hreplay.symm
    rw [accepted_append, hacc, hrun, Blockchain.accepted, if_pos hvalue]
    rfl
  have hlog : (genesisBlock κ chainId :: (bs ++ [b])).flatMap (encodeRecord κ)
      = s.blocksFile ++ encodeRecord κ b := by
    rw [h.log, hstored, ← List.cons_append, List.flatMap_append]
    simp
  have hnext : (⟨s.blocksFile ++ encodeRecord κ b, (s.blockchain.append κ b).1,
      s.records ++ [(s.blocksFile.length, (encodeRecord κ b).length)]⟩ : ChainStore)
        = storeOf κ chainId (bs ++ [b]) := by
    rw [storeOf, ChainStore.mk.injEq]
    refine ⟨hlog.symm, ?_, ?_⟩
    · rw [Blockchain.replay_concat, ← hreplay]
    · rw [← List.cons_append, locations_append, ← hstored, ← h.records, ← h.log, Nat.zero_add]
      rfl
  have hdatabase : (storeOf κ chainId (bs ++ [b])).rebuildDatabase κ true = .none := by
    refine rebuildDatabase_storeOf hall fun p hp => ?_
    have hle := le_of_mem_locations _ (List.of_mem_zip hp).2
    rw [hlog, List.length_append, Nat.zero_add] at hle
    omega
  have hsize : ¬ (¬ ({} : AppendIo).sizeOk = true ∨ s.blocksFile.length > 2 ^ 64 - 1) := by
    rw [maxSqliteInt] at hroom
    rintro (hnot | hbig)
    · exact hnot rfl
    · omega
  rw [ChainStore.append, if_neg (not_not.mpr hvalue), if_neg hsize, if_neg (not_not.mpr rfl)]
  dsimp only
  rw [hnext, if_pos hdatabase, ← hnext]
  exact ⟨rfl, rfl⟩

end ChainStore

/-! ## The commands with their files -/

/-- Why a command leaves no block file. -/
inductive BlockFileError where
  | candidate (error : CandidateError)
  | load (error : FileError BlockError)
  | mining (error : ProofOfWorkError)
  | save (error : FileError BlockError)
  deriving DecidableEq

/-- What the outside world does to one `block candidate`. -/
structure CandidateIo where
  chain : OpenIo := {}
  mempool : MempoolOpenIo := {}
  save : CreateIo := {}

/-- What the outside world does to one `block mine`. -/
structure MineIo where
  /-- The first look at the destination succeeds. -/
  existsOk : Bool := true
  load : LoadIo := {}
  save : CreateIo := {}

/-- `save_block` at a destination, and what the command makes of it. -/
def saveCreated (io : CreateIo) (destination : Option Bytes) (block : Block) :
    Option Bytes × Except BlockFileError Block :=
  let saved := create io destination block.serialize
  match saveError saved.2 with
  | some e => (saved.1, .error (.save e))
  | none => (saved.1, .ok block)

/-- The table as the opened pool has rewritten it. -/
def candidateDirectory (κ : Crypto) (directory : DataDirectory) (io : CandidateIo)
    (timestamp : UInt64) : DataDirectory :=
  match ChainStore.openStore κ coreChainId io.chain directory.blocksFile with
  | .error _ => directory
  | .ok chain =>
      if chain.blockchain.tip.height = maxU64 then directory
      else if timestamp ≤ chain.blockchain.tip.timestamp then directory
      else
        match MempoolStore.openStore κ io.mempool directory.mempoolRows chain.blockchain.state with
        | .error _ => directory
        | .ok mempool => { directory with mempoolRows := mempool.rows }

/-- `create_block_candidate` with its file. -/
def createCandidateFile (κ : Crypto) (directory : DataDirectory) (io : CandidateIo)
    (reward : Address) (timestamp : UInt64) (destination : Option Bytes) :
    Option Bytes × Except BlockFileError Block :=
  match createBlockCandidate κ directory io.chain io.mempool reward timestamp with
  | .error e => (destination, .error (.candidate e))
  | .ok block => saveCreated io.save destination block

/-- `mine_block_file`. -/
def mineBlockFile (κ : Crypto) (io : MineIo) (file : Option Bytes) (destination : Option Bytes)
    (maximumAttempts : UInt64) : Option Bytes × Except BlockFileError Block :=
  if ¬ io.existsOk then (destination, .error (.save .ioError))
  else if destination.isSome then (destination, .error (.save .fileAlreadyExists))
  else
    match loadBlock κ io.load file with
    | .error e => (destination, .error (.load e))
    | .ok candidate =>
        match (mineBlock κ candidate maximumAttempts).value with
        | .error e => (destination, .error (.mining e))
        | .ok mined => saveCreated io.save destination mined

/-! ## What each command has done when it succeeds -/

theorem saveCreated_ok {io : CreateIo} {destination : Option Bytes} {block b : Block}
    (h : (saveCreated io destination block).2 = .ok b) :
    b = block ∧ (saveCreated io destination block).1 = some b.serialize := by
  rw [saveCreated] at h ⊢
  cases hcreated : (create io destination block.serialize).2 with
  | done =>
      rw [hcreated] at h
      cases h
      rw [saveError]
      exact ⟨rfl, (create_done hcreated).2⟩
  | alreadyExists =>
      rw [hcreated] at h
      cases h
  | failed =>
      rw [hcreated] at h
      cases h

theorem openStores_undisturbed {directory : DataDirectory} {chainIo : OpenIo}
    {mempoolIo : MempoolOpenIo} {chain : ChainStore} {pool : MempoolStore}
    (hchain : ChainStore.openStore κ coreChainId chainIo directory.blocksFile = .ok chain)
    (hpool : MempoolStore.openStore κ mempoolIo directory.mempoolRows chain.blockchain.state
      = .ok pool) : openStores κ directory {} {} = some (chain, pool) := by
  cases hfile : directory.blocksFile with
  | none =>
      rw [hfile] at hchain
      cases hchain
  | some file =>
      rw [hfile] at hchain
      have hload : MempoolStore.openStore κ {} directory.mempoolRows chain.blockchain.state
          = .ok pool := by
        have hinv := MempoolStore.inv_loadRows (κ := κ) directory.mempoolRows
          (Mempool.Inv.new chain.blockchain.state)
        rw [MempoolStore.openStore] at hpool ⊢
        rw [if_neg (by simp), if_neg (by simp)]
        split_ifs at hpool
        dsimp only at hpool ⊢
        split at hpool
        · cases hpool
        · rename_i rows hrows
          cases hpool
          rw [MempoolStore.rewrite_of_inv hinv.1, MempoolStore.rows_of_rewrite hinv.1 hrows]
      rw [openStores, hfile, ChainStore.openStore_undisturbed hchain]
      dsimp only
      rw [hload]

theorem createCandidateFile_ok {directory : DataDirectory} {io : CandidateIo} {reward : Address}
    {timestamp : UInt64} {destination : Option Bytes} {candidate : Block} {chain : ChainStore}
    {pool : MempoolStore} (hopened : openStores κ directory {} {} = some (chain, pool))
    (h : (createCandidateFile κ directory io reward timestamp destination).2 = .ok candidate) :
    (createCandidateFile κ directory io reward timestamp destination).1
        = some candidate.serialize ∧
      candidateDirectory κ directory io timestamp = { directory with mempoolRows := pool.rows } ∧
      chain.blockchain.tip.timestamp < timestamp ∧
      createBlock κ (candidateFields κ chain.blockchain.tip reward timestamp
        (pool.mempool.select κ maximumTransactionsPerBlock)) = .ok candidate := by
  rw [createCandidateFile] at h ⊢
  cases hcreated : createBlockCandidate κ directory io.chain io.mempool reward timestamp with
  | error e =>
      rw [hcreated] at h
      cases h
  | ok block =>
      rw [hcreated] at h
      dsimp only at h ⊢
      obtain ⟨rfl, hfile⟩ := saveCreated_ok h
      refine ⟨hfile, ?_⟩
      rw [createBlockCandidate] at hcreated
      rw [candidateDirectory]
      cases hchain : ChainStore.openStore κ coreChainId io.chain directory.blocksFile with
      | error e =>
          rw [hchain] at hcreated
          cases hcreated
      | ok found =>
          rw [hchain] at hcreated
          dsimp only at hcreated ⊢
          by_cases hheight : found.blockchain.tip.height = maxU64
          · rw [if_pos hheight] at hcreated
            cases hcreated
          rw [if_neg hheight] at hcreated ⊢
          by_cases htime : timestamp ≤ found.blockchain.tip.timestamp
          · rw [if_pos htime] at hcreated
            cases hcreated
          rw [if_neg htime] at hcreated ⊢
          cases hpool : MempoolStore.openStore κ io.mempool directory.mempoolRows
              found.blockchain.state with
          | error e =>
              rw [hpool] at hcreated
              cases hcreated
          | ok loaded =>
              rw [hpool] at hcreated
              rw [openStores_undisturbed hchain hpool] at hopened
              cases hopened
              dsimp only at hcreated ⊢
              refine ⟨rfl, UInt64.not_le.mp htime, ?_⟩
              split at hcreated
              · cases hcreated
              · rename_i created hblock
                cases hcreated
                exact hblock

theorem mineBlockFile_ok {io : MineIo} {candidate mined : Block} (hwell : candidate.WellFormed κ)
    {destination : Option Bytes} {maximumAttempts : UInt64}
    (h : (mineBlockFile κ io (some candidate.serialize) destination maximumAttempts).2
      = .ok mined) :
    (mineBlockFile κ io (some candidate.serialize) destination maximumAttempts).1
        = some mined.serialize ∧
      (mineBlock κ candidate maximumAttempts).value = .ok mined := by
  rw [mineBlockFile] at h ⊢
  by_cases hexists : ¬ io.existsOk = true
  · rw [if_pos hexists] at h
    cases h
  rw [if_neg hexists] at h ⊢
  by_cases hsome : destination.isSome = true
  · rw [if_pos hsome] at h
    cases h
  rw [if_neg hsome] at h ⊢
  cases hload : loadBlock κ io.load (some candidate.serialize) with
  | error e =>
      rw [hload] at h
      cases h
  | ok loaded =>
      have hsame : loaded = candidate := by
        obtain ⟨encoded, hencoded, hdecoded⟩ := decoded_of_loadSized hload
        cases hencoded
        rw [Block.deserialize_serialize hwell] at hdecoded
        exact (Except.ok.inj hdecoded).symm
      subst hsame
      rw [hload] at h
      dsimp only at h ⊢
      cases hmined : (mineBlock κ loaded maximumAttempts).value with
      | error e =>
          rw [hmined] at h
          cases h
      | ok b =>
          rw [hmined] at h
          dsimp only at h ⊢
          obtain ⟨rfl, hfile⟩ := saveCreated_ok h
          exact ⟨hfile, rfl⟩

/-! ## The block -/

theorem withMiningNonce_of_mineBlock {candidate mined : Block} {maximumAttempts : UInt64}
    (h : (mineBlock κ candidate maximumAttempts).value = .ok mined) :
    ∃ nonce, mined = candidate.withMiningNonce nonce := by
  rw [mineBlock] at h
  split at h
  · cases h
  split at h
  · cases h
  obtain ⟨nonce, hmined, -⟩ := mineLoop_ok _ h
  exact ⟨nonce, hmined⟩

theorem withMiningNonce_body (b : Block) (nonce : UInt64) :
    (b.withMiningNonce nonce).transactions = b.transactions ∧
      (b.withMiningNonce nonce).rewardRecipient = b.rewardRecipient := by
  unfold Block.withMiningNonce
  split
  · exact ⟨rfl, rfl⟩
  · exact ⟨rfl, rfl⟩

theorem accepts_candidate {c : Blockchain} (hc : c.Inv κ coreChainId) {b : Block}
    {reward : Address} {timestamp : UInt64} {body : List SignedTransaction}
    (hb : Built (candidateFields κ c.tip reward timestamp body) b)
    (htime : c.tip.timestamp < timestamp) {next : ChainState}
    (hcollision : ∀ q ∈ c.storedBlocks,
      κ.sha256 q.serializeHeader = κ.sha256 b.serializeHeader →
        q.serializeHeader = b.serializeHeader)
    (hgenesis : b.isGenesis = false) (hpow : validateProofOfWork κ b = .none)
    (happlied : applyBlockState κ c.state b = .ok next) : c.Accepts κ b c.tipIndex next := by
  have hheight : b.height = c.tip.height + 1 := hb.height
  have hroom : c.tip.height ≠ maxU64 := by
    intro hmax
    refine hb.height_ne ?_
    rw [hheight, hmax]
    unfold maxU64
    rfl
  have hnext : b.height.toNat = c.tip.height.toNat + 1 := by
    rw [hheight]
    exact toNat_add_of_lt (b := 1) (toNat_lt_of_ne_max hroom)
  exact {
    notGenesis := hgenesis
    chainId := hb.chainId.trans hc.chainId_tip.symm
    fresh := by
      cases hi : c.indexById[b.id κ]? with
      | none => rfl
      | some i =>
          -- a stored block is not as high
          obtain ⟨hlt, hid⟩ := (hc.index _ _).mp hi
          have hsame := height_eq_of_serializeHeader (hcollision _ (Blockchain.block_mem hlt) hid)
          have hle := hc.height_le_tip hlt
          rw [hsame] at hle
          omega
    parent := (hc.index _ _).mpr
      ⟨hc.tipIndex_lt, by rw [← hc.tip_eq]; exact hb.previousBlockHash.symm⟩
    heightRoom := by
      rw [← hc.tip_eq]
      exact hroom
    height := by
      rw [← hc.tip_eq]
      exact hheight
    timestamp := by
      have hstamp : b.timestamp = timestamp := hb.timestamp
      rw [← hc.tip_eq, hstamp]
      exact htime
    proofOfWork := hpow
    transition := by
      rw [← hc.state]
      exact happlied }

/-! ## From the pool to the chain -/

/-- `chain add` of a block on the tip that has the selection of the pool. -/
theorem addBlockToStore_extends {chain : ChainStore} (hlog : chain.Inv κ coreChainId)
    (hc : chain.blockchain.Inv κ coreChainId) {pool : MempoolStore} (htable : pool.Faithful κ)
    (hcurrent : pool.mempool.chainState = chain.blockchain.state) {block : Block}
    (hblock : block.WellFormed κ) {next : ChainState}
    (ha : chain.blockchain.Accepts κ block chain.blockchain.tipIndex next)
    (hroom : chain.blocksFile.length + (encodeRecord κ block).length ≤ maxSqliteInt) {k : Nat}
    (hbody : block.transactions = pool.mempool.select κ k)
    (happlied : applyBlockState κ chain.blockchain.state block = .ok next)
    (hnonces : ∀ address, nonceOf next.accounts address ≠ maxU64.toNat) :
    let added := addBlockToStore κ ⟨some chain.blocksFile, pool.rows⟩ {} (some block.serialize)
    added.2 = .stored true .none ∧
    ∃ after rest, openStores κ added.1 {} {} = some (after, rest) ∧
      after.blockchain.blocks = chain.blockchain.blocks ++ [block] ∧
      rest.mempool.transactions
        = pool.mempool.transactions.filter fun t => t ∉ block.transactions := by
  intro added
  obtain ⟨hblocks, hstate, hdetached, hchanged⟩ := hc.extended ha
  have hvalue : (chain.blockchain.append κ block).2.hasValue = true :=
    Blockchain.hasValue_iff.mpr (Blockchain.append_error_none_iff.mpr ⟨_, _, ha⟩)
  obtain ⟨hresult, hgrown⟩ := hlog.append_of_room hvalue hroom
  have hafter : (chain.append κ block {}).1.Inv κ coreChainId := hlog.append hblock rfl
  have hrest : (pool.reconcileReorganization κ next [] true).1.mempool
      = ⟨next, pool.mempool.transactions.filter fun t => t ∉ block.transactions⟩ := by
    rw [MempoolStore.reconcileReorganization_fst]
    exact htable.inv.addAll_select hbody (by rw [hcurrent]; exact happlied) hnonces
  have hreported : (pool.reconcileReorganization κ next [] true).2.error = .none :=
    (MempoolStore.reconcileReorganization_report (κ := κ) pool next [] htable.inv.nodup).1
  have hpool : MempoolStore.openStore κ {} pool.rows chain.blockchain.state = .ok pool := by
    rw [← hcurrent]
    exact htable.reopen.1
  have hadded : added = (⟨some (chain.append κ block {}).1.blocksFile,
      (pool.reconcileReorganization κ next [] true).1.rows⟩, .stored true .none) := by
    show addBlockToStore κ _ {} _ = _
    rw [addBlockToStore]
    dsimp only
    rw [hlog.reopen]
    dsimp only
    rw [loadBlock_serialize hblock]
    dsimp only
    rw [hresult, if_neg (not_not.mpr rfl), if_neg (not_not.mpr hvalue), hpool]
    dsimp only
    rw [hgrown, hstate, hdetached, hchanged, hreported]
  have hnobody : ∀ d ∈ ([] : List Block), d.WellFormed κ := fun d hd => absurd hd List.not_mem_nil
  have htableNext := (htable.reconcileReorganization hnobody next true).1.reopen.1
  rw [hrest] at htableNext
  have hpoolNext : MempoolStore.openStore κ {} (pool.reconcileReorganization κ next [] true).1.rows
      (chain.append κ block {}).1.blockchain.state
      = .ok (pool.reconcileReorganization κ next [] true).1 := by
    rw [hgrown, hstate]
    exact htableNext
  rw [hadded]
  refine ⟨rfl, (chain.append κ block {}).1, (pool.reconcileReorganization κ next [] true).1,
    openStores_undisturbed hafter.reopen hpoolNext, ?_, ?_⟩
  · rw [hgrown, hblocks]
  · rw [hrest]

theorem settled_openStores (hlaw : κ.SignatureLaw)
    (hgenesis : (genesisBlock κ 1).id κ ≠ (genesisBlock κ 2).id κ) {directory : DataDirectory}
    {chain : ChainStore} {pool : MempoolStore}
    (h : openStores κ directory {} {} = some (chain, pool)) :
    chain.Inv κ coreChainId ∧ directory.blocksFile = some chain.blocksFile ∧ pool.Faithful κ ∧
      pool.mempool.chainState = chain.blockchain.state := by
  rw [openStores] at h
  cases hfile : directory.blocksFile with
  | none =>
      rw [hfile] at h
      cases h
  | some file =>
      rw [hfile] at h
      cases hchain : ChainStore.openStore κ coreChainId {} (some file) with
      | error e =>
          rw [hchain] at h
          cases h
      | ok opened =>
          rw [hchain] at h
          dsimp only at h
          cases hpool : MempoolStore.openStore κ {} directory.mempoolRows
              opened.blockchain.state with
          | error e =>
              rw [hpool] at h
              cases h
          | ok loaded =>
              rw [hpool] at h
              cases h
              obtain ⟨hlog, hsame⟩ := ChainStore.inv_openStore hlaw hgenesis
                (by decide : SupportedChain coreChainId) hchain
              exact ⟨hlog, congrArg some hsame.symm, MempoolStore.faithful_openStore hpool,
                (MempoolStore.inv_openStore hpool).2⟩

/-- A candidate is made on a directory, mined in its file and added to the directory, each
by its own command and wherever its files go.  Short of a collision, and while there is room
for one more subsidy and one more record, the block is stored and is the new tip; it has the
selection of the pool and pays the given address, and the pool has exactly the transactions
that are not in it, in the old order. -/
theorem mined_file_extends (κ : Crypto) (hlaw : κ.SignatureLaw)
    (hgenesis : (genesisBlock κ 1).id κ ≠ (genesisBlock κ 2).id κ) (directory : DataDirectory)
    (chain : ChainStore) (pool : MempoolStore)
    (hopened : openStores κ directory {} {} = some (chain, pool)) (candidateIo : CandidateIo)
    (mineIo : MineIo) (reward : Address) (timestamp maximumAttempts : UInt64)
    (candidateOut minedOut : Option Bytes) (candidate mined : Block) :
    let made := createCandidateFile κ directory candidateIo reward timestamp candidateOut
    let solved := mineBlockFile κ mineIo made.1 minedOut maximumAttempts
    let added := addBlockToStore κ (candidateDirectory κ directory candidateIo timestamp) {}
      solved.1
    made.2 = .ok candidate → solved.2 = .ok mined →
    (chain.blockchain.tip.height.toNat + 1) * blockSubsidy.toNat ≤ 2 ^ 64 - 1 →
    chain.blocksFile.length + (encodeRecord κ mined).length ≤ maxSqliteInt →
    (∀ q ∈ chain.blockchain.storedBlocks,
      κ.sha256 q.serializeHeader = κ.sha256 mined.serializeHeader →
        q.serializeHeader = mined.serializeHeader) →
    mined.transactions = pool.mempool.select κ maximumTransactionsPerBlock ∧
    mined.rewardRecipient = some reward ∧ mined.timestamp = timestamp ∧
    added.2 = .stored true .none ∧
    ∃ after rest, openStores κ added.1 {} {} = some (after, rest) ∧
      after.blockchain.blocks = chain.blockchain.blocks ++ [mined] ∧
      rest.mempool.transactions
        = pool.mempool.transactions.filter fun t => t ∉ mined.transactions := by
  intro made solved added hmade hsolved hheight hroom hcollision
  obtain ⟨hlog, hfile, htable, hcurrent⟩ := settled_openStores hlaw hgenesis hopened
  have hc : chain.blockchain.Inv κ coreChainId := by
    obtain ⟨bs, -, hreplay⟩ := hlog.replayed
    rw [hreplay]
    exact Blockchain.inv_replay κ coreChainId bs
  -- the candidate
  obtain ⟨hmadeFile, hdirectory, htime, hcreated⟩ := createCandidateFile_ok hopened hmade
  have hwell : candidate.WellFormed κ := Block.wellFormed_of_createBlock
    (fun t ht => htable.verified t (Mempool.mem_of_mem_select ht)) hcreated
  obtain ⟨_, -, -, -, -, hfields⟩ := Block.createBlock_ok hcreated
  -- the block that comes out of its file
  obtain ⟨hsolvedFile, hmined⟩ : solved.1 = some mined.serialize ∧
      (mineBlock κ candidate maximumAttempts).value = .ok mined := by
    have hfrom : solved
        = mineBlockFile κ mineIo (some candidate.serialize) minedOut maximumAttempts :=
      congrArg (fun file => mineBlockFile κ mineIo file minedOut maximumAttempts) hmadeFile
    rw [hfrom] at hsolved ⊢
    exact mineBlockFile_ok hwell hsolved
  obtain ⟨-, -, -, hnotGenesis, hpow⟩ := mineBlock_ok hmined
  obtain ⟨nonce, hnonce⟩ := withMiningNonce_of_mineBlock hmined
  obtain ⟨hbody, hreward⟩ := withMiningNonce_body candidate nonce
  have hbuilt := (built_of_createBlock hcreated).withMiningNonce nonce
  have hminedWell := hwell.withMiningNonce nonce
  rw [← hnonce] at hbody hreward hbuilt hminedWell
  rw [hfields] at hbody hreward
  dsimp only [candidateFields] at hbody hreward
  -- it applies to the active state
  obtain ⟨next, happlied⟩ := htable.inv.applies_select hc hcurrent hheight (Nat.le_refl _)
    hnotGenesis hreward hbody
  have hnonces : ∀ address, nonceOf next.accounts address ≠ maxU64.toNat := by
    intro address
    have hused := (applyBlockState_nonces happlied address).2
    have hle := hc.nonceOf_state_le address
    have hfew := length_noncesOf_le (κ := κ) address mined.transactions
    have hbound := mined.bounded
    rw [blockSubsidy_toNat] at hheight
    simp only [maximumTransactionsPerBlock] at hle hbound
    rw [maxU64_toNat]
    omega
  have ha := accepts_candidate hc hbuilt htime hcollision hnotGenesis hpow happlied
  have hadded : added
      = addBlockToStore κ ⟨some chain.blocksFile, pool.rows⟩ {} (some mined.serialize) := by
    show addBlockToStore κ (candidateDirectory κ directory candidateIo timestamp) {} solved.1 = _
    rw [hdirectory, hsolvedFile, hfile]
  rw [hadded]
  exact ⟨hbody, hreward, hbuilt.timestamp, addBlockToStore_extends hlog hc htable hcurrent
    hminedWell ha hroom hbody happlied hnonces⟩

/-- A chain of one block, and its miner's payment in the pool. -/
def pendingDirectory : DataDirectory :=
  { developmentDirectory with
    mempoolRows := [((developmentPayment.id reference).toList, developmentPayment.serialize)] }

theorem confirmingBlock_bounded : [developmentPayment].length ≤ maximumTransactionsPerBlock := by
  decide

/-- The candidate on it; at this timestamp its first nonce is a solution. -/
def confirmingBlock : Block where
  chainId := 1
  height := 2
  previousBlockHash := minedDevelopment.id reference
  transactionRoot := calculateTransactionRoot reference [developmentPayment]
  rewardRecipient := some (Address.fromPublicKey reference minerKey)
  timestamp := 26524043
  difficultyTarget := development.difficultyTarget
  miningNonce := 0
  transactions := [developmentPayment]
  bounded := confirmingBlock_bounded

/-- The three commands on this directory, evaluated. -/
theorem confirmingBlock_mined :
    let made := createCandidateFile reference pendingDirectory {}
      (Address.fromPublicKey reference minerKey) 26524043 none
    made.2 = .ok confirmingBlock ∧
      (mineBlockFile reference {} made.1 none 1).2 = .ok confirmingBlock ∧
      (openStores reference pendingDirectory {} {}).map (fun stores =>
        (stores.1.blockchain.storedBlocks, stores.1.blockchain.blocks,
          stores.1.blockchain.tip.height, stores.1.blocksFile.length,
          stores.2.mempool.transactions))
        = some ([genesisBlock reference 1, minedDevelopment],
            [genesisBlock reference 1, minedDevelopment], 1, 418, [developmentPayment]) ∧
      (encodeRecord reference confirmingBlock).length = 370 ∧
      ([genesisBlock reference 1, minedDevelopment, confirmingBlock].map
        (Block.id reference)).Nodup ∧
      (genesisBlock reference 1).id reference ≠ (genesisBlock reference 2).id reference := by
  decide +kernel

/-- The payment is confirmed by the block that is made of the pool, and leaves it. -/
theorem mined_file_extends_development :
    let made := createCandidateFile reference pendingDirectory {}
      (Address.fromPublicKey reference minerKey) 26524043 none
    let solved := mineBlockFile reference {} made.1 none 1
    let added := addBlockToStore reference
      (candidateDirectory reference pendingDirectory {} 26524043) {} solved.1
    solved.2 = .ok confirmingBlock ∧
    ∃ after rest, openStores reference added.1 {} {} = some (after, rest) ∧
      after.blockchain.blocks = [genesisBlock reference 1, minedDevelopment, confirmingBlock] ∧
      rest.mempool.transactions = [] := by
  obtain ⟨hmade, hsolved, hopens, hlength, hids, hgenesis⟩ := confirmingBlock_mined
  obtain ⟨⟨chain, pool⟩, hopened, hfound⟩ := Option.map_eq_some_iff.mp hopens
  simp only [Prod.mk.injEq] at hfound
  obtain ⟨hstored, hblocks, htip, hfile, hpool⟩ := hfound
  have hheight : (chain.blockchain.tip.height.toNat + 1) * blockSubsidy.toNat ≤ 2 ^ 64 - 1 := by
    rw [htip, blockSubsidy_toNat]
    decide
  have hroom : chain.blocksFile.length + (encodeRecord reference confirmingBlock).length
      ≤ maxSqliteInt := by
    rw [hfile, hlength]
    decide
  have hcollision : ∀ q ∈ chain.blockchain.storedBlocks,
      reference.sha256 q.serializeHeader = reference.sha256 confirmingBlock.serializeHeader →
        q.serializeHeader = confirmingBlock.serializeHeader := by
    intro q hq heq
    rw [hstored] at hq
    have hstored' : q ∈ [genesisBlock reference 1, minedDevelopment, confirmingBlock] :=
      List.mem_append_left [confirmingBlock] hq
    rw [List.inj_on_of_nodup_map hids hstored' (by simp) heq]
  obtain ⟨-, -, -, -, after, rest, hagain, hafter, hrest⟩ := mined_file_extends reference
    reference_signatureLaw hgenesis pendingDirectory chain pool hopened {} {} _ 26524043 1
    none none confirmingBlock confirmingBlock hmade hsolved hheight hroom hcollision
  rw [hblocks] at hafter
  rw [hpool] at hrest
  refine ⟨hsolved, after, rest, hagain, hafter, ?_⟩
  rw [hrest, List.filter_eq_nil_iff]
  intro t ht
  have hconfirmed : t ∈ confirmingBlock.transactions := ht
  simpa using hconfirmed

end BBC
