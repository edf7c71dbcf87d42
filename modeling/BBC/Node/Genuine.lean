/-
# `BBC.Node.Genuine` — what the stores hold has been checked

A block enters the chain and a transaction enters the pool through a decoder or, for a
transaction of the node's own wallet, through `sign_transaction`.  `Genuine` says that
the blocks of the chain are well formed and that the pending signatures verify; every
handler keeps it, whatever the storage does.
-/
import BBC.Chain.ArrivalOrder
import BBC.Chain.Locator
import BBC.Node.InStep
import BBC.Storage.PersistentPool

namespace BBC

variable {κ : Crypto} {chainId : UInt32}

namespace Blockchain

/-- The stored blocks of a chain grown from decoded blocks. -/
theorem wellFormed_storedBlocks (hsupported : SupportedChain chainId) {bs : List Block}
    (hbs : ∀ b ∈ bs, b.WellFormed κ) :
    ∀ b ∈ (replay κ chainId bs).storedBlocks, b.WellFormed κ := by
  intro b hb
  rw [storedBlocks_replay] at hb
  rcases List.mem_cons.mp hb with rfl | hb
  · exact Block.wellFormed_genesis hsupported
  · exact hbs b ((accepted_sublist bs _).subset hb)

/-- A detached block is a stored one. -/
theorem mem_of_mem_detachedBlocks {c : Blockchain} (h : c.Inv κ chainId) {b d : Block}
    (hnone : (c.append κ b).2.error = .none) (hd : d ∈ (c.append κ b).2.detachedBlocks) :
    d ∈ c.storedBlocks := by
  obtain ⟨p, next, ha⟩ := append_error_none_iff.mp hnone
  rw [append_of_accepts ha, choose] at hd
  split at hd
  · exact absurd hd List.not_mem_nil
  obtain ⟨i, hi, rfl⟩ := List.mem_map.mp hd
  have hactive : i ∈ c.activeIndices := List.mem_of_mem_drop hi
  rw [h.activeIndices] at hactive
  have hlt := h.toTree.lt_of_mem_path h.tipIndex_lt hactive
  rw [block_store_of_lt κ c b p next hlt, block, List.getD_eq_getElem _ _ hlt]
  exact List.getElem_mem hlt

end Blockchain

namespace NodeRuntime

/-! ## The invariant -/

/-- The chain has grown from decoded blocks, and the pool holds verified transactions. -/
structure Vouched (κ : Crypto) (chainId : UInt32) (chain : ChainStore) (pool : MempoolStore) :
    Prop where
  replayed : ∃ bs, (∀ b ∈ bs, b.WellFormed κ) ∧ chain.blockchain = Blockchain.replay κ chainId bs
  pending : ∀ t ∈ pool.mempool.transactions, t.Verified κ

/-- The node is a full node whose stores are vouched for. -/
def Genuine (κ : Crypto) (chainId : UInt32) (n : NodeRuntime) : Prop :=
  ∃ chain pool, n.chainStore = some chain ∧ n.mempoolStore = some pool ∧
    Vouched κ chainId chain pool

/-- Only the two stores matter. -/
theorem Genuine.congr {n m : NodeRuntime} (h : n.Genuine κ chainId)
    (hchain : m.chainStore = n.chainStore) (hpool : m.mempoolStore = n.mempoolStore) :
    m.Genuine κ chainId := by
  obtain ⟨chain, pool, hc, hp, hv⟩ := h
  exact ⟨chain, pool, hchain.trans hc, hpool.trans hp, hv⟩

/-! ## The two sections that change a store -/

theorem Genuine.appendSection (hsupported : SupportedChain chainId) {n : NodeRuntime}
    (h : n.Genuine κ chainId) {block : Block} (hblock : block.WellFormed κ) (io : StorageIo) :
    (n.appendSection κ block io).1.Genuine κ chainId := by
  obtain ⟨chain, pool, hc, hp, ⟨bs, hwell, hbs⟩, hpending⟩ := h
  rw [NodeRuntime.appendSection, hc]
  dsimp only
  rcases chain.blockchain_append κ block io.append with ⟨hsame, hnone⟩ | ⟨hnext, hresult, hv⟩
  · rw [if_neg (by rw [hnone]; exact fun hand => Bool.false_ne_true hand.1)]
    exact ⟨_, pool, rfl, hp, ⟨bs, hwell, hsame.trans hbs⟩, hpending⟩
  · have hreplayed : ∃ ds, (∀ b ∈ ds, b.WellFormed κ) ∧
        (chain.append κ block io.append).1.blockchain = Blockchain.replay κ chainId ds := by
      refine ⟨bs ++ [block], ?_, by rw [hnext, Blockchain.replay_concat, hbs]⟩
      intro b hb
      rcases List.mem_append.mp hb with hb | hb
      · exact hwell b hb
      · rw [List.mem_singleton.mp hb]
        exact hblock
    split
    · rw [updateMempoolAfterChainChange]
      simp only [hp]
      refine ⟨_, _, rfl, rfl, hreplayed, MempoolStore.verified_reconcileReorganization hpending
        ?_ _ _⟩
      rw [hresult]
      intro d hd
      have hinv : chain.blockchain.Inv κ chainId := by
        rw [hbs]
        exact Blockchain.inv_replay κ chainId bs
      have hmem := Blockchain.mem_of_mem_detachedBlocks hinv (Blockchain.hasValue_iff.mp hv) hd
      rw [hbs] at hmem
      exact Blockchain.wellFormed_storedBlocks hsupported hwell d hmem
    · exact ⟨_, pool, rfl, hp, hreplayed, hpending⟩

theorem Genuine.addSection {n : NodeRuntime} (h : n.Genuine κ chainId) {t : SignedTransaction}
    (ht : t.Verified κ) (io : StorageIo) : (n.addSection κ t io).1.Genuine κ chainId := by
  obtain ⟨chain, pool, hc, hp, hreplayed, hpending⟩ := h
  rw [NodeRuntime.addSection, hc, hp]
  dsimp only
  rcases pool.add_cases κ t io.mempoolOk with ⟨hsame, -⟩ | ⟨hadd, -, -⟩
  · rw [hsame]
    exact ⟨chain, pool, rfl, rfl, hreplayed, hpending⟩
  · refine ⟨chain, _, rfl, rfl, hreplayed, ?_⟩
    rw [hadd]
    exact Mempool.verified_add hpending ht

/-! ## The start -/

theorem genuine_initializeNode {config : RuntimeConfig} {directory : DataDirectory} {io : StartIo}
    {n : NodeRuntime} (hrole : config.hasRole .fullNode = true)
    (h : initializeNode κ config directory io = some n) : n.Genuine κ config.chainId := by
  obtain ⟨chain, pool, bs, hc, hp, hwell, hbs, hpool⟩ := stores_initializeNode hrole h
  refine ⟨chain, pool, hc, hp, ⟨bs, hwell, hbs⟩, ?_⟩
  rw [MempoolStore.openStore] at hpool
  split_ifs at hpool
  dsimp only at hpool
  split at hpool
  · cases hpool
  · cases hpool
    exact MempoolStore.verified_loadRows _ fun t ht => absurd ht List.not_mem_nil

end NodeRuntime

end BBC
