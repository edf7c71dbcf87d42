/-
# `BBC.Node.StaleWork` — a changed tip and the work on the old one

A node that is full node and miner works on a candidate while blocks come in.  Two
handlers append blocks:

    `handle_block`    BLOCK, BLOCK_SUBMIT    sets the flag, notes the tip for the miner
    `handle_blocks`   BLOCKS                 updates the advertised tip, and that is all

So the flag is set and the miner's view follows after a single block, and neither
happens after a batch: the mining thread goes on with a candidate whose parent is no
longer the tip.
-/
import BBC.Node.AdvertisedTip
import BBC.Node.Mining
import BBC.Node.SyncService
import BBC.Node.Wire

namespace BBC

open ByteCodec
open Sections (Program)

namespace NodeRuntime

variable {κ : Crypto} {chainId : UInt32} {n : NodeRuntime}

/-! ## The messages -/

/-- The messages whose handlers append blocks. -/
inductive BlockMessage where
  | block (payload : Bytes)
  | blockSubmit (payload : Bytes)
  | blocks (payload : Bytes)

/-- The handler of such a message. -/
def BlockMessage.task (κ : Crypto) (peerId : UInt64) : BlockMessage → Task
  | .block payload => handleBlock κ peerId payload false
  | .blockSubmit payload => handleBlock κ peerId payload true
  | .blocks payload => handleBlocks κ peerId payload

/-- The message is a batch of the synchronization. -/
def BlockMessage.IsBatch : BlockMessage → Prop
  | .block _ => False
  | .blockSubmit _ => False
  | .blocks _ => True

/-! ## A single block -/

theorem config_appendSection (n : NodeRuntime) (block : Block) (io : StorageIo) :
    (n.appendSection κ block io).1.config = n.config ∧
      (n.appendSection κ block io).1.mining = n.mining := by
  rw [appendSection]
  split
  · exact ⟨rfl, rfl⟩
  dsimp only
  split_ifs
  · rw [updateMempoolAfterChainChange]
    split
    · exact ⟨rfl, rfl⟩
    · exact ⟨rfl, rfl⟩
  · exact ⟨rfl, rfl⟩

theorem state_finishBlock (κ : Crypto) (n : NodeRuntime) (peerId : UInt64) (block : Block)
    (submission : Bool) (outcome : AppendOutcome) (io : Nat → StorageIo) :
    ((finishBlock κ peerId block submission outcome).run io n).1
      = if outcome.appended.hasValue = true ∧
            outcome.appended.chainResult.activeChainChanged = true then
          (n.noteTip outcome.activeTipHeight outcome.activeTipId).updateTip
            outcome.activeTipHeight outcome.activeTipId
        else n := by
  rw [finishBlock]
  by_cases hvalue : outcome.appended.hasValue = true
  · rw [if_neg (not_not.mpr hvalue)]
    by_cases hchanged : outcome.appended.chainResult.activeChainChanged = true
    · rw [if_neg (not_not.mpr hchanged), if_pos ⟨hvalue, hchanged⟩]
      rfl
    · rw [if_pos hchanged, if_neg fun h => hchanged h.2]
      rfl
  · rw [if_pos hvalue, if_neg fun h => hvalue h.1]
    rfl

/-- `handle_block` that changes the tip of a working miner. -/
theorem handleBlock_cancels (hgrown : n.Grown κ) (hminer : n.config.hasRole .miner = true)
    (hactive : n.mining.active = true) (peerId : UInt64) (payload : Bytes) (submission : Bool)
    (io : Nat → StorageIo)
    (hchanged : ((handleBlock κ peerId payload submission).run io n).1.activeTip κ
      ≠ n.activeTip κ) :
    ((handleBlock κ peerId payload submission).run io n).1.mining.cancelled = true ∧
      ((handleBlock κ peerId payload submission).run io n).1.known
        = ((handleBlock κ peerId payload submission).run io n).1.activeTip κ := by
  have htips := activeTip_appendSection (κ := κ) hgrown
  obtain ⟨store, pool, chainId, bs, hstore, -, -⟩ := hgrown
  cases hdecoded : deserializeBlock κ payload with
  | error e =>
      have hsame : ((handleBlock κ peerId payload submission).run io n).1 = n := by
        rw [handleBlock, hdecoded]
        rfl
      rw [hsame] at hchanged
      exact absurd rfl hchanged
  | ok block =>
      obtain ⟨hconfig, hmining⟩ := config_appendSection (κ := κ) n block (io 1)
      obtain ⟨hnew, hold⟩ := htips block (io 1)
      rw [run_handleBlock_of_some hstore hdecoded] at hchanged ⊢
      dsimp only at hchanged ⊢
      rw [state_finishBlock] at hchanged ⊢
      split_ifs at hchanged ⊢ with hcases
      · obtain ⟨htip, -⟩ := hnew hcases
        have hrole : (n.appendSection κ block (io 1)).1.config.hasRole .miner = true := by
          rw [hconfig]
          exact hminer
        constructor
        · rw [noteTip, if_pos hrole]
          show ((n.appendSection κ block (io 1)).1.mining.cancelled
            || (n.appendSection κ block (io 1)).1.mining.active) = true
          rw [hmining, hactive, Bool.or_true]
        · have hkept : ((n.appendSection κ block (io 1)).1.noteTip
              (n.appendSection κ block (io 1)).2.2.activeTipHeight
              (n.appendSection κ block (io 1)).2.2.activeTipId).config
                = (n.appendSection κ block (io 1)).1.config := by
            rw [noteTip, if_pos hrole]
          refine (known_noteTip _ _ _ hrole).trans (htip.trans (Eq.symm ?_))
          exact activeTip_congr (untouched_noteTip _ _ _).chain hkept
      · exact absurd (hold hcases) hchanged

/-! ## A batch -/

/-- The chain has grown, and its tip is the given one or higher. -/
def Risen (κ : Crypto) (chainId : UInt32) (tip : Block) (n : NodeRuntime) : Prop :=
  ∃ store bs, n.chainStore = some store ∧ store.blockchain = Blockchain.replay κ chainId bs ∧
    (store.blockchain.tip = tip ∨ tip.height < store.blockchain.tip.height)

theorem Risen.appendSection {tip : Block} (h : n.Risen κ chainId tip) (block : Block)
    (io : StorageIo) : (n.appendSection κ block io).1.Risen κ chainId tip := by
  obtain ⟨store, bs, hstore, hbs, htip⟩ := h
  obtain ⟨hchain, -, -⟩ := chainStore_appendSection (κ := κ) hstore block io
  have hinv : store.blockchain.Inv κ chainId := by
    rw [hbs]
    exact Blockchain.inv_replay κ chainId bs
  rcases store.blockchain_append κ block io.append with ⟨hsame, -⟩ | ⟨hnext, -, -⟩
  · exact ⟨_, bs, hchain, hsame.trans hbs, by rw [hsame]; exact htip⟩
  · refine ⟨_, bs ++ [block], hchain, by rw [hnext, Blockchain.replay_concat, hbs], ?_⟩
    rw [hnext]
    rcases hinv.tip_append block with hkept | ⟨hnew, hlt⟩
    · rw [hkept]
      exact htip
    · rw [hnew]
      rcases htip with htip | hhigher
      · rw [← htip]
        exact Or.inr hlt
      · exact Or.inr (UInt64.lt_trans hhigher hlt)

theorem stable_risen (tip : Block) :
    Stable κ (fun _ => True) (fun _ => True) (Risen κ chainId tip) where
  congr h hn := by
    obtain ⟨store, bs, hstore, hrest⟩ := hn
    exact ⟨store, bs, h.chain.trans hstore, hrest⟩
  append _ _ hn := hn.appendSection _ _
  verified _ := trivial
  add := by
    intro n io transaction _ _ hn
    obtain ⟨store, bs, hstore, hrest⟩ := hn
    refine ⟨store, bs, ?_, hrest⟩
    rw [addSection]
    split
    · exact hstore
    · exact hstore

theorem mining_handleBlocks (n : NodeRuntime) (peerId : UInt64) (payload : Bytes)
    (io : Nat → StorageIo) :
    ((handleBlocks κ peerId payload).run io n).1.mining = n.mining := by
  refine (keeps_handleBlocks_of (I := fun m => m.mining = n.mining) ?_ ?_ ?_ peerId payload).run
    (fun _ => trivial) rfl
  · intro m sync hm
    exact hm
  · intro m height tip hm
    exact hm
  · intro m block io hm
    exact (config_appendSection m block io).2.trans hm

/-- A batch that changes the tip raises it. -/
theorem higher_handleBlocks {store : ChainStore} {bs : List Block}
    (hstore : n.chainStore = some store)
    (hbs : store.blockchain = Blockchain.replay κ chainId bs) (peerId : UInt64)
    (payload : Bytes) (io : Nat → StorageIo)
    (hchanged : ((handleBlocks κ peerId payload).run io n).1.activeTip κ ≠ n.activeTip κ) :
    (n.activeTip κ).1 < (((handleBlocks κ peerId payload).run io n).1.activeTip κ).1 := by
  have hrisen : n.Risen κ chainId store.blockchain.tip := ⟨store, bs, hstore, hbs, Or.inl rfl⟩
  have hafter : ((handleBlocks κ peerId payload).run io n).1.Risen κ chainId
      store.blockchain.tip :=
    ((stable_risen store.blockchain.tip).keeps_handleBlocks peerId payload).run
      (fun _ => trivial) hrisen
  obtain ⟨store', bs', hstore', -, htip⟩ := hafter
  rw [activeTip, activeTip, startTip_of_some hstore, startTip_of_some hstore'] at hchanged ⊢
  rcases htip with hsame | hhigher
  · rw [hsame] at hchanged
    exact absurd rfl hchanged
  · exact hhigher

/-- The tip that the blocks of a response lead to. -/
def batchTip (κ : Crypto) (n : NodeRuntime) (payload : Bytes) (io : Nat → StorageIo) :
    UInt64 × Hash256 :=
  match n.chainStore, readBlocks κ payload with
  | some store, some blocks =>
      let tip := (store.absorb κ (absorbOps (fun k => io (k + 1)) blocks)).1.blockchain.tip
      (tip.height, tip.id κ)
  | _, _ => n.activeTip κ

theorem activeTip_handleBlocks {store : ChainStore} (hstore : n.chainStore = some store)
    (peerId : UInt64) (payload : Bytes) (io : Nat → StorageIo)
    (hchanged : ((handleBlocks κ peerId payload).run io n).1.activeTip κ ≠ n.activeTip κ) :
    ((handleBlocks κ peerId payload).run io n).1.activeTip κ = n.batchTip κ payload io := by
  by_cases hawaiting : n.Awaiting peerId payload
  · rw [run_handleBlocks_of_awaiting hawaiting] at hchanged ⊢
    cases hread : readBlocks κ payload with
    | none =>
        rw [hread] at hchanged
        exact absurd (activeTip_congr rfl rfl) hchanged
    | some blocks =>
        dsimp only
        obtain ⟨m, io', sent, -, hchain, -, hrun⟩ := run_applyBlocks_absorb κ n.config.chainId
          (finishBlocks κ peerId blocks) blocks (fun k => io (k + 1)) n.noteTaken store hstore
        have hafter : ((applyBlocks κ (finishBlocks κ peerId blocks) blocks).run
            (fun k => io (k + 1)) n.noteTaken).1.chainStore
              = some (store.absorb κ (absorbOps (fun k => io (k + 1)) blocks)).1 := by
          rw [hrun]
          split_ifs
          · exact (chainStore_finishBlocks m peerId blocks io').trans hchain
          · exact hchain
        rw [activeTip, startTip_of_some hafter, batchTip, hstore, hread]
  · rw [run_handleBlocks_of_not_awaiting hawaiting] at hchanged
    exact absurd rfl hchanged

/-! ## Both -/

/-- The condition: a single block; or the flag is set already, and the miner's view is the
tip to which the batch is going to lead. -/
def BlockMessage.Announced (κ : Crypto) (n : NodeRuntime) (io : Nat → StorageIo) :
    BlockMessage → Prop
  | .block _ => True
  | .blockSubmit _ => True
  | .blocks payload => n.mining.cancelled = true ∧ n.known = n.batchTip κ payload io

/-- A handler that changes the tip of a working miner sets the flag and moves the miner's
view exactly for announced messages; and if the view is not above the chain, these are
exactly the single blocks. -/
theorem tip_change_cancels (κ : Crypto) (n : NodeRuntime) (hgrown : n.Grown κ)
    (hminer : n.config.hasRole .miner = true) (hactive : n.mining.active = true)
    (peerId : UInt64) (message : BlockMessage) (io : Nat → StorageIo)
    (hchanged : ((message.task κ peerId).run io n).1.activeTip κ ≠ n.activeTip κ) :
    let after := ((message.task κ peerId).run io n).1
    (after.mining.cancelled = true ∧ after.known = after.activeTip κ
      ↔ message.Announced κ n io) ∧
    (n.mining.knownHeight ≤ (n.activeTip κ).1 →
      (after.mining.cancelled = true ∧ after.known = after.activeTip κ ↔ ¬ message.IsBatch)) := by
  cases message with
  | block payload =>
      have hboth := handleBlock_cancels hgrown hminer hactive peerId payload false io hchanged
      exact ⟨iff_of_true hboth trivial, fun _ => iff_of_true hboth id⟩
  | blockSubmit payload =>
      have hboth := handleBlock_cancels hgrown hminer hactive peerId payload true io hchanged
      exact ⟨iff_of_true hboth trivial, fun _ => iff_of_true hboth id⟩
  | blocks payload =>
      obtain ⟨store, pool, chainId, bs, hstore, -, hbs⟩ := hgrown
      have hmining := mining_handleBlocks (κ := κ) n peerId payload io
      have hknown : ((handleBlocks κ peerId payload).run io n).1.known = n.known := by
        rw [known, known, hmining]
      have hhigher := higher_handleBlocks hstore hbs peerId payload io hchanged
      have htip := activeTip_handleBlocks hstore peerId payload io hchanged
      show (((handleBlocks κ peerId payload).run io n).1.mining.cancelled = true ∧
        ((handleBlocks κ peerId payload).run io n).1.known
          = ((handleBlocks κ peerId payload).run io n).1.activeTip κ ↔ _) ∧ _
      constructor
      · rw [hmining, hknown, htip]
        exact Iff.rfl
      · intro hbelow
        refine iff_of_false ?_ (fun hsingle => hsingle trivial)
        rintro ⟨-, hview⟩
        -- the view was at most as high as the old tip
        replace hview : ((handleBlocks κ peerId payload).run io n).1.known
          = ((handleBlocks κ peerId payload).run io n).1.activeTip κ := hview
        rw [hknown] at hview
        rw [← hview] at hhigher
        exact absurd hhigher (UInt64.not_lt.mpr hbelow)

/-! ## A miner that goes on -/

/-- The full node that mines has started to mine on Genesis. -/
def miningNode : NodeRuntime :=
  ((fullMiner.startNetwork reference).startMining reference false false).1

/-- A peer that is one block ahead. -/
def oneAhead : PeerStatus where
  id := 3
  handshakeComplete := true
  services := fullNodeService
  remoteHeight := 1
  remoteTip := minedFirst.id reference

/-- It has asked that peer for its blocks. -/
def miningAndAsking : NodeRuntime :=
  ((maybeStartSync reference 3).run (fun _ => {}) (miningNode.greeted oneAhead)).1

/-- The first block above Genesis arrives in a batch. -/
def oneBlockBatch : BlockMessage := .blocks (encodeBlocks 1 syncStatusOk [minedFirst])

theorem stores_startMining {store : ChainStore} (hstore : n.chainStore = some store)
    (deferWork continuousCycle : Bool) :
    (n.startMining κ deferWork continuousCycle).1.chainStore = n.chainStore ∧
      (n.startMining κ deferWork continuousCycle).1.mempoolStore = n.mempoolStore := by
  rw [startMining]
  split
  · exact ⟨rfl, rfl⟩
  split_ifs
  · exact ⟨rfl, rfl⟩
  · exact ⟨rfl, rfl⟩
  · exact ⟨rfl, rfl⟩
  · exact ⟨rfl, rfl⟩
  · exact ⟨rfl, rfl⟩
  rw [hstore]
  dsimp only
  rw [startLocally]
  split
  · exact ⟨hstore, rfl⟩
  dsimp only
  split_ifs
  · exact ⟨hstore, rfl⟩
  · exact ⟨hstore, rfl⟩

theorem grown_miningNode : miningNode.Grown reference := by
  have hstart : (fullMiner.startNetwork reference).chainStore = some ChainStore.genesisStore := rfl
  have hempty : (fullMiner.startNetwork reference).mempoolStore = some ⟨⟨{}, []⟩, []⟩ := rfl
  have hgenesis : ChainStore.genesisStore.blockchain = Blockchain.replay reference 2 [] := by
    rw [ChainStore.genesisStore, Blockchain.replay, Blockchain.appendAll, List.foldl_nil]
  obtain ⟨hchain, hpool⟩ := stores_startMining (κ := reference) hstart false false
  rw [miningNode]
  exact ⟨_, _, 2, [], hchain.trans hstart, hpool.trans hempty, hgenesis⟩

/-- The batch changes the tip, and the work on Genesis goes on. -/
theorem batch_leaves_work :
    let after := ((oneBlockBatch.task reference 3).run (fun _ => {}) miningAndAsking).1
    initializeNode reference regtestFullMiner {} {} = some fullMiner ∧
    miningAndAsking.mining.active = true ∧
    miningAndAsking.mining.worker.map (fun worker => worker.candidate.previousBlockHash)
      = some ((genesisBlock reference 2).id reference) ∧
    miningAndAsking.activeTip reference = (0, (genesisBlock reference 2).id reference) ∧
    after.activeTip reference = (1, minedFirst.id reference) ∧
    after.mining.active = true ∧ after.mining.cancelled = false ∧
    after.known = (0, (genesisBlock reference 2).id reference) := by
  refine ⟨initializeNode_fullMiner, ?_⟩
  decide +kernel

/-- The same block in a `BLOCK` message is noticed. -/
theorem tip_change_cancels_relayed :
    let after := (((BlockMessage.block minedFirst.serialize).task reference 3).run (fun _ => {})
      miningNode).1
    after.activeTip reference ≠ miningNode.activeTip reference ∧
      after.mining.cancelled = true ∧ after.known = after.activeTip reference := by
  have hfacts : miningNode.config.hasRole .miner = true ∧ miningNode.mining.active = true ∧
      (((BlockMessage.block minedFirst.serialize).task reference 3).run (fun _ => {})
        miningNode).1.activeTip reference ≠ miningNode.activeTip reference ∧
      miningNode.mining.knownHeight ≤ (miningNode.activeTip reference).1 := by
    decide +kernel
  obtain ⟨hminer, hactive, hchanged, hbelow⟩ := hfacts
  have hboth := (tip_change_cancels reference miningNode grown_miningNode hminer hactive 3
    (.block minedFirst.serialize) (fun _ => {}) hchanged).2 hbelow
  exact ⟨hchanged, hboth.mpr id⟩

end NodeRuntime

end BBC
