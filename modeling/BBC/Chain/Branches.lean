/-
# `BBC.Chain.Branches` — what holds along every branch of the tree

A branch is read from Genesis down to a stored block, active or not.  Along each
one the account states are successive transitions, so what one transition does
(`BBC.Chain.Ledger`) adds up: the supply is the height times the subsidy, and
the nonces of every sender count up from zero without gap or repetition.
-/
import BBC.Chain.BlockTree
import BBC.Chain.Commitment
import BBC.Crypto.Reference

namespace BBC

namespace Blockchain

open ParentTree

variable {κ : Crypto} {chainId : UInt32} {c : Blockchain}

/-- The blocks from Genesis to the stored block `i`. -/
def branch (c : Blockchain) (i : Nat) : List Block := (path c.parent i).map c.block

/-- `apply_block_state` along a list of blocks, from the empty state. -/
def stateAlong (κ : Crypto) (bs : List Block) : Except StateTransitionResult ChainState :=
  bs.foldlM (applyBlockState κ) {}

/-- All transactions of a list of blocks, in chain order. -/
def transactionsOf (bs : List Block) : List SignedTransaction := bs.flatMap Block.transactions

namespace Tree

variable (h : c.Tree κ chainId)

include h

theorem branch_zero : c.branch 0 = [genesisBlock κ chainId] := by
  rw [branch, path_zero, List.map_singleton, h.rootBlock]

theorem branch_of_pos {i : Nat} (hpos : 0 < i) (hi : i < c.storedBlocks.length) :
    c.branch i = c.branch (c.parent i) ++ [c.block i] := by
  rw [branch, path_of_pos h.descends hpos hi, List.map_append]
  rfl

theorem length_branch {i : Nat} (hi : i < c.storedBlocks.length) :
    (c.branch i).length = (c.block i).height.toNat + 1 := by
  rw [branch, List.length_map, h.length_path hi]

/-- The state of a node is what its branch computes. -/
theorem stateAlong_branch :
    ∀ i, i < c.storedBlocks.length → stateAlong κ ((c.branch i).drop 1) = .ok (c.node i).state := by
  refine h.descends.induct ?_ ?_
  · rw [h.branch_zero, h.rootNode]
    rfl
  · intro i hpos hi ih
    have e := h.edge i hpos hi
    have hup : c.parent i < c.storedBlocks.length := Nat.lt_trans e.parent_lt hi
    have hlen := h.length_branch hup
    rw [h.branch_of_pos hpos hi, List.drop_append_of_le_length (by omega), stateAlong,
      List.foldlM_append, ← stateAlong, ih]
    show (applyBlockState κ (c.node (c.parent i)).state (c.block i) >>= pure) = _
    rw [e.transition]
    rfl

theorem height_branch {i k : Nat} {b : Block} (hi : i < c.storedBlocks.length)
    (hk : (c.branch i)[k]? = some b) : b.height.toNat = k := by
  rw [branch, List.getElem?_map] at hk
  obtain ⟨j, hj, rfl⟩ := Option.map_eq_some_iff.mp hk
  have hmem : j ∈ path c.parent i := List.mem_of_getElem? hj
  have hpos := h.getElem?_path_height hi hmem
  obtain ⟨hlt, hget⟩ := List.getElem?_eq_some_iff.mp hj
  obtain ⟨hlt', hget'⟩ := List.getElem?_eq_some_iff.mp hpos
  exact (path_nodup h.descends i hi).getElem_inj_iff.mp (hget'.trans hget.symm)

/-! ## Money -/

/-- The supply of a node's state is its height times the subsidy. -/
theorem supply_node :
    ∀ i, i < c.storedBlocks.length →
      supply (c.node i).state.accounts = (c.block i).height.toNat * blockSubsidy.toNat := by
  refine h.descends.induct ?_ ?_
  · rw [h.rootNode, h.height_root, Nat.zero_mul]
    exact supply_empty
  · intro i hpos hi ih
    have e := h.edge i hpos hi
    rw [applyBlockState_supply e.transition, ih, e.height, Nat.succ_mul]

/-! ## Nonces -/

/-- The nonces a sender has used on a branch are all those below its next one. -/
theorem noncesOf_branch (address : Hash256) :
    ∀ i, i < c.storedBlocks.length →
      noncesOf κ address (transactionsOf (c.branch i))
        = List.range (nonceOf (c.node i).state.accounts address) := by
  refine h.descends.induct ?_ ?_
  · rw [h.branch_zero, h.rootNode]
    exact (congrArg List.range (nonceOf_empty address)).symm
  · intro i hpos hi ih
    obtain ⟨hrange, hnext⟩ := applyBlockState_nonces (h.edge i hpos hi).transition address
    have htxs : transactionsOf (c.branch i)
        = transactionsOf (c.branch (c.parent i)) ++ (c.block i).transactions := by
      simp [transactionsOf, h.branch_of_pos hpos hi]
    have happend := List.range'_append_1 (s := 0)
      (m := nonceOf (c.node (c.parent i)).state.accounts address)
      (n := (noncesOf κ address (c.block i).transactions).length)
    rw [Nat.zero_add] at happend
    rw [htxs, noncesOf_append, ih, hrange, hnext, List.range_eq_range', List.range_eq_range',
      happend]

theorem noncesOf_branch_nodup (address : Hash256) {i : Nat} (hi : i < c.storedBlocks.length) :
    (noncesOf κ address (transactionsOf (c.branch i))).Nodup := by
  rw [h.noncesOf_branch address i hi]
  exact List.nodup_range

end Tree

/-! ## The active branch -/

namespace Inv

variable (h : c.Inv κ chainId)

include h

theorem blocks_eq_branch : c.blocks = c.branch c.tipIndex := by
  rw [h.blocks, h.activeIndices]
  rfl

theorem length_blocks : c.blocks.length = c.tip.height.toNat + 1 := by
  rw [h.blocks_eq_branch, h.tip_eq]
  exact h.length_branch h.tipIndex_lt

theorem height_of_getElem? {p : Nat} {b : Block} (hb : c.blocks[p]? = some b) :
    b.height.toNat = p := by
  rw [h.blocks_eq_branch] at hb
  exact h.height_branch h.tipIndex_lt hb

end Inv

/-! ## Every reachable chain -/

/-- The seven fields of a reachable chain describe one tree and one of its
branches, and a rejected `append` changes none of them. -/
theorem replay_representation (κ : Crypto) (chainId : UInt32) (bs : List Block) :
    let c := replay κ chainId bs
    (c.nodes.length = c.storedBlocks.length ∧ c.block 0 = genesisBlock κ chainId ∧
      c.node 0 = {} ∧
      ∀ i, 0 < i → i < c.storedBlocks.length →
        c.parent i < i ∧
        (c.block i).previousBlockHash = (c.block (c.parent i)).id κ ∧
        (c.block i).height.toNat = (c.block (c.parent i)).height.toNat + 1 ∧
        (c.block (c.parent i)).timestamp < (c.block i).timestamp ∧
        validateProofOfWork κ (c.block i) = .none ∧
        (c.node i).cumulativeWork = (c.block i).height ∧
        stateAlong κ ((c.branch i).drop 1) = .ok (c.node i).state) ∧
    (∀ blockId i, c.indexById[blockId]? = some i ↔
      i < c.storedBlocks.length ∧ (c.block i).id κ = blockId) ∧
    (IsPath c.parent c.tipIndex c.activeIndices ∧
      c.activeFlags.length = c.storedBlocks.length ∧
      (∀ i, i < c.storedBlocks.length →
        (c.activeFlags.getD i false = true ↔ i ∈ c.activeIndices)) ∧
      c.blocks = c.activeIndices.map c.block ∧
      c.blocks.length = c.tip.height.toNat + 1 ∧
      (∀ (height : Nat) (b : Block), c.blocks[height]? = some b → b.height.toNat = height) ∧
      c.tip = c.block c.tipIndex ∧
      c.state = (c.node c.tipIndex).state) ∧
    ∀ b, (c.append κ b).2.error ≠ .none → (c.append κ b).1 = c := by
  intro c
  have h : c.Inv κ chainId := inv_replay κ chainId bs
  refine ⟨⟨h.lengthNodes, h.rootBlock, h.rootNode, ?_⟩, h.index, ⟨?_, h.length_activeFlags, ?_,
    h.blocks, h.length_blocks, fun _ _ => h.height_of_getElem?, h.tip_eq, h.state⟩,
    fun b => append_eq_self_of_error⟩
  · intro i hpos hi
    have e := h.edge i hpos hi
    exact ⟨e.parent_lt, e.parentHash, e.height, e.timestamp, e.proofOfWork, e.work,
      h.stateAlong_branch i hi⟩
  · rw [h.activeIndices]
    exact isPath_path h.descends _ h.tipIndex_lt
  · intro i hi
    rw [h.activeFlags, List.getD_eq_getElem?_getD]
    simp [hi]

/-- On every branch of every reachable chain the balances add up to the height
times the subsidy, and no `uint64` operation of the transition wraps. -/
theorem replay_conservation (κ : Crypto) (chainId : UInt32) (bs : List Block) :
    let c := replay κ chainId bs
    (∀ i, i < c.storedBlocks.length →
      supply (c.node i).state.accounts = (c.block i).height.toNat * blockSubsidy.toNat) ∧
    supply c.state.accounts = c.tip.height.toNat * blockSubsidy.toNat ∧
    ∀ state b, applyBlockStateWith Arith.checked κ state b = some (applyBlockState κ state b) := by
  intro c
  have h : c.Inv κ chainId := inv_replay κ chainId bs
  refine ⟨h.supply_node, ?_, applyBlockStateWith_checked⟩
  rw [h.state, h.tip_eq]
  exact h.supply_node _ h.tipIndex_lt

/-- On every branch of every reachable chain each sender's nonces are `0, 1, …`
up to its next one, so no sender and nonce occur twice. -/
theorem replay_nonces (κ : Crypto) (chainId : UInt32) (bs : List Block) :
    let c := replay κ chainId bs
    ∀ i, i < c.storedBlocks.length →
      (∀ s : Address, noncesOf κ s.hash (transactionsOf (c.branch i))
        = List.range ((c.node i).state.account s).nextNonce.toNat) ∧
      ((transactionsOf (c.branch i)).map fun t => (t.sender κ, t.accountNonce)).Nodup := by
  intro c i hi
  have h : c.Inv κ chainId := inv_replay κ chainId bs
  exact ⟨fun s => h.noncesOf_branch s.hash i hi,
    nodup_map_of_noncesOf _ fun address => h.noncesOf_branch_nodup address hi⟩

/-- On every branch of every reachable chain, at a height that leaves room for one more
subsidy, a block with a recipient is rejected for the nonce, an exhausted nonce or the
balance of one of its senders: no overflow is ever reported. -/
theorem replay_no_overflow (κ : Crypto) (chainId : UInt32) (bs : List Block) :
    let c := replay κ chainId bs
    ∀ i, i < c.storedBlocks.length →
      ((c.block i).height.toNat + 1) * blockSubsidy.toNat ≤ 2 ^ 64 - 1 →
      ∀ (block : Block) (recipient : Address), block.isGenesis = false →
        block.rewardRecipient = some recipient →
          ∀ e, applyBlockState κ (c.node i).state block = .error e → e.error.Ordinary := by
  intro c i hi hroom block recipient hgenesis hrecipient e h
  have hinv : c.Inv κ chainId := inv_replay κ chainId bs
  have hsupply := hinv.supply_node i hi
  refine ordinary_applyBlockState hgenesis hrecipient ?_ h
  rw [hsupply]
  rw [Nat.succ_mul] at hroom
  omega

end Blockchain

/-! ## Mined blocks

Regtest blocks without transactions, with nonces that solve them under SHA-256. -/

/-- The public key of the miner of these blocks. -/
def minerKey : PublicKey := sha256 (List.replicate 32 1)

/-- An empty regtest block on `parent`. -/
def regtestBlock (parent : Block) (timestamp miningNonce : UInt64) : Block where
  chainId := regtest.chainId
  height := parent.height + 1
  previousBlockHash := parent.id reference
  transactionRoot := calculateTransactionRoot reference []
  rewardRecipient := some (Address.fromPublicKey reference minerKey)
  timestamp := timestamp
  difficultyTarget := regtest.difficultyTarget
  miningNonce := miningNonce
  transactions := []
  bounded := Nat.zero_le _

/-- Two siblings of height one, and two blocks on the first. -/
def minedFirst : Block := regtestBlock (genesisBlock reference 2) 1 899
def minedSibling : Block := regtestBlock (genesisBlock reference 2) 2 3957
def minedChild : Block := regtestBlock minedFirst 2 1439
def minedGrandchild : Block := regtestBlock minedChild 3 1202

theorem obtainable_regtestBlock {parent : Block} (hheight : parent.height + 1 ≠ 0)
    (hid : (parent.id reference).isZero = false) (timestamp miningNonce : UInt64) :
    (regtestBlock parent timestamp miningNonce).Obtainable reference := by
  have hchain : SupportedChain 2 := by decide
  have hreward : (Address.fromPublicKey reference minerKey).hash.isZero = false := by
    decide +kernel
  obtain ⟨b, hcreate⟩ : ∃ b, createBlock reference ⟨parent.height + 1, parent.id reference,
      Address.fromPublicKey reference minerKey, timestamp, regtest.difficultyTarget,
      miningNonce, [],
      2⟩ = .ok b :=
    Block.createBlock_isOk_iff.mpr ⟨hchain, hheight, hid, hreward, rfl⟩
  obtain ⟨hbody, -, -, -, -, rfl⟩ := Block.createBlock_ok hcreate
  exact .created (fun t ht => absurd ht List.not_mem_nil) hcreate

/-- A signed regtest payment. -/
def signedPayment (key : PublicKey) (recipient : Address) (amount fee accountNonce : UInt64)
    (hvalid : validateFields ⟨recipient, amount, fee, accountNonce, 2⟩ = .none) :
    SignedTransaction where
  chainId := 2
  senderPublicKey := key
  recipient := recipient
  amount := amount
  fee := fee
  accountNonce := accountNonce
  signature := referenceTag (serializeUnsigned 2 key recipient amount fee accountNonce) key
  validated := hvalid

/-- Two payments that the subsidy of the first block covers, and one that it does not. -/
def minerSpendings : List SignedTransaction :=
  let recipient : Address := ⟨List.Vector.replicate 32 9⟩
  [signedPayment minerKey recipient 2500000000 10 0 (by decide +kernel),
    signedPayment minerKey recipient 1000000000 5 1 (by decide +kernel),
    signedPayment minerKey recipient 2000000000 5 2 (by decide +kernel)]

theorem minerSpendings_bounded : minerSpendings.length ≤ maximumTransactionsPerBlock := by decide

/-- A block on the first one that spends too much. -/
def overspentBlock : Block where
  chainId := 2
  height := 2
  previousBlockHash := minedFirst.id reference
  transactionRoot := calculateTransactionRoot reference minerSpendings
  rewardRecipient := some ⟨List.Vector.replicate 32 9⟩
  timestamp := 2
  difficultyTarget := fixedDifficultyTarget 2
  miningNonce := 0
  transactions := minerSpendings
  bounded := minerSpendings_bounded

namespace Blockchain

/-- The third payment is what it is rejected for. -/
theorem replay_no_overflow_overspent :
    ∃ e, applyBlockState reference ((replay reference 2 [minedFirst]).node 1).state overspentBlock
        = .error e ∧
      e.error.Ordinary ∧ e = ⟨.insufficientBalance, some 2⟩ := by
  have hrejected : 1 < (replay reference 2 [minedFirst]).storedBlocks.length ∧
      (((replay reference 2 [minedFirst]).block 1).height.toNat + 1) * blockSubsidy.toNat
        ≤ 2 ^ 64 - 1 ∧
      applyBlockState reference ((replay reference 2 [minedFirst]).node 1).state overspentBlock
        = .error ⟨.insufficientBalance, some 2⟩ := by
    decide +kernel
  obtain ⟨hstored, hroom, hrejected⟩ := hrejected
  exact ⟨_, hrejected, replay_no_overflow reference 2 [minedFirst] 1 hstored hroom overspentBlock
    ⟨List.Vector.replicate 32 9⟩ (by decide) rfl _ hrejected, rfl⟩

end Blockchain

end BBC
