/-
# `BBC.Node.SyncService` — a request answered, a response applied

The two handlers of the block synchronization as wholes, for any bytes that a peer may
send.  The server's answer is decided by the request and by its active chain alone; the
requester looks at the whole response before it touches its chain, and then takes the
blocks one after the other.
-/
import BBC.Node.SyncPayload

namespace BBC

open ByteCodec
open Sections (Program)

variable {κ : Crypto} {chainId : UInt32}

/-! ## Answering -/

/-- Behind Genesis the active blocks are blocks that were appended. -/
theorem Blockchain.mem_of_active_replay {bs : List Block} {p : Nat} {b : Block}
    (hb : (Blockchain.replay κ chainId bs).blocks[p + 1]? = some b) : b ∈ bs := by
  obtain ⟨j, hpos, hj, rfl, -⟩ := (Blockchain.inv_replay κ chainId bs).active_succ hb
  exact Blockchain.mem_of_replay hpos hj

/-- The served blocks lie behind Genesis. -/
theorem wellFormed_following {bs : List Block} (hbs : ∀ b ∈ bs, b.WellFormed κ)
    (entry : UInt64 × Hash256) (requested : Nat) :
    ∀ b ∈ following (Blockchain.replay κ chainId bs).blocks entry requested, b.WellFormed κ := by
  intro b hb
  obtain ⟨k, hk⟩ := List.mem_iff_getElem?.mp (List.mem_of_mem_take hb)
  rw [List.getElem?_drop, Nat.add_right_comm] at hk
  exact hbs b (Blockchain.mem_of_active_replay hk)

theorem length_following (blocks : List Block) (entry : UInt64 × Hash256) (requested : Nat) :
    (following blocks entry requested).length
      = min requested (blocks.length - (entry.1.toNat + 1)) := by
  rw [following, List.length_take, List.length_drop]

/-- The three answers to a request. -/
inductive Answered (κ : Crypto) (blocks : List Block) (payload : Bytes) : Byte → List Block → Prop
  | invalid : ¬ RequestValid payload → Answered κ blocks payload syncStatusInvalidRequest []
  | notFound : RequestValid payload →
      (∀ entry ∈ requestEntries payload, ¬ OnChain κ blocks entry) →
      Answered κ blocks payload syncStatusLocatorNotFound []
  | found {before after : List (UInt64 × Hash256)} {entry : UInt64 × Hash256} :
      RequestValid payload → requestEntries payload = before ++ entry :: after →
      (∀ other ∈ before, ¬ OnChain κ blocks other) → OnChain κ blocks entry →
      Answered κ blocks payload syncStatusOk (following blocks entry (requestedCount payload))

theorem answered_answerGetBlocks {c : Blockchain} (h : c.Inv κ chainId) (payload : Bytes) :
    Answered κ c.blocks payload (answerGetBlocks κ c.blocks payload).1
      (answerGetBlocks κ c.blocks payload).2 := by
  by_cases hvalid : RequestValid payload
  · rw [answerGetBlocks_of_valid hvalid]
    cases hfind : (requestEntries payload).find? fun entry => Matches κ c.blocks entry with
    | none =>
        refine .notFound hvalid fun entry hentry hon => ?_
        have := List.find?_eq_none.mp hfind entry hentry
        exact this (decide_eq_true (h.matches_iff.mpr hon))
    | some entry =>
        obtain ⟨hentry, before, after, hsplit, hbefore⟩ := List.find?_eq_some_iff_append.mp hfind
        refine .found hvalid hsplit ?_ (h.matches_iff.mp (of_decide_eq_true hentry))
        intro other hother hon
        have := hbefore other hother
        rw [decide_eq_true (h.matches_iff.mpr hon)] at this
        cases this
  · rw [answerGetBlocks_of_invalid hvalid]
    exact .invalid hvalid

/-- An answer carries a batch of well-formed blocks at most. -/
theorem Answered.batch {bs : List Block} (hbs : ∀ b ∈ bs, b.WellFormed κ) {payload : Bytes}
    {status : Byte} {served : List Block}
    (h : Answered κ (Blockchain.replay κ chainId bs).blocks payload status served) :
    served.length ≤ maximumBlocksPerSyncBatch ∧ ∀ b ∈ served, b.WellFormed κ := by
  cases h with
  | invalid => exact ⟨Nat.zero_le _, fun b hb => absurd hb List.not_mem_nil⟩
  | notFound => exact ⟨Nat.zero_le _, fun b hb => absurd hb List.not_mem_nil⟩
  | found hvalid =>
      refine ⟨?_, wellFormed_following hbs _ _⟩
      rw [length_following]
      exact Nat.le_trans (Nat.min_le_left _ _) hvalid.requested_le

/-- The status tells the three answers apart. -/
theorem Answered.status_iff {blocks : List Block} {payload : Bytes} {status : Byte}
    {served : List Block} (h : Answered κ blocks payload status served) :
    (status = syncStatusInvalidRequest ↔ ¬ RequestValid payload) ∧
      (status = syncStatusLocatorNotFound ↔ RequestValid payload ∧
        ∀ entry ∈ requestEntries payload, ¬ OnChain κ blocks entry) := by
  have hinvalid : syncStatusLocatorNotFound ≠ syncStatusInvalidRequest := by decide
  have hok : syncStatusOk ≠ syncStatusInvalidRequest ∧
      syncStatusOk ≠ syncStatusLocatorNotFound := by
    decide
  cases h with
  | invalid hnot => exact ⟨iff_of_true rfl hnot, iff_of_false hinvalid.symm fun h => hnot h.1⟩
  | notFound hvalid hnone =>
      exact ⟨iff_of_false hinvalid (not_not.mpr hvalid), iff_of_true rfl ⟨hvalid, hnone⟩⟩
  | @found before after entry hvalid hsplit _ hon =>
      refine ⟨iff_of_false hok.1 (not_not.mpr hvalid), iff_of_false hok.2 fun h => ?_⟩
      refine h.2 entry ?_ hon
      rw [hsplit]
      exact List.mem_append_right _ List.mem_cons_self

theorem Answered.served_nil {blocks : List Block} {payload : Bytes} {status : Byte}
    {served : List Block} (h : Answered κ blocks payload status served)
    (hstatus : status = syncStatusInvalidRequest ∨ status = syncStatusLocatorNotFound) :
    served = [] := by
  have hok : ¬ (syncStatusOk = syncStatusInvalidRequest ∨
      syncStatusOk = syncStatusLocatorNotFound) := by
    decide
  cases h with
  | invalid => rfl
  | notFound => rfl
  | found => exact absurd hstatus hok

/-- The first entry on the chain decides what is served. -/
theorem Answered.served_eq {blocks : List Block} {payload : Bytes} {status : Byte}
    {served : List Block} (h : Answered κ blocks payload status served)
    {before after : List (UInt64 × Hash256)} {entry : UInt64 × Hash256}
    (hvalid : RequestValid payload) (hsplit : requestEntries payload = before ++ entry :: after)
    (hbefore : ∀ other ∈ before, ¬ OnChain κ blocks other) (hon : OnChain κ blocks entry) :
    status = syncStatusOk ∧ served = following blocks entry (requestedCount payload) := by
  have hmem : entry ∈ requestEntries payload := by
    rw [hsplit]
    exact List.mem_append_right _ List.mem_cons_self
  cases h with
  | invalid hnot => exact absurd hvalid hnot
  | notFound _ hnone => exact absurd hon (hnone entry hmem)
  | @found before' after' entry' _ hsplit' hbefore' hon' =>
      -- neither of the two first entries can stand before the other
      obtain ⟨mid, rfl, hrest⟩ | ⟨mid, rfl, hrest⟩ :=
        List.append_eq_append_iff.mp (hsplit.symm.trans hsplit')
      · cases mid with
        | nil =>
            cases hrest
            exact ⟨rfl, rfl⟩
        | cons first mid =>
            cases hrest
            exact absurd hon (hbefore' entry (List.mem_append_right _ List.mem_cons_self))
      · cases mid with
        | nil =>
            cases hrest
            exact ⟨rfl, rfl⟩
        | cons first mid =>
            cases hrest
            exact absurd hon' (hbefore entry' (List.mem_append_right _ List.mem_cons_self))

namespace NodeRuntime

/-- `handle_get_blocks` sends its answer back. -/
theorem run_handleGetBlocks {n : NodeRuntime} {store : ChainStore}
    (hstore : n.chainStore = some store) (hnetwork : n.network.isSome = true) (peerId : UInt64)
    {payload : Bytes} (hsize : getBlocksPayloadMinimumSize ≤ payload.length)
    (io : Nat → StorageIo) :
    (handleGetBlocks κ peerId payload).run io n
      = (n, n.send peerId .blocks (encodeBlocks (readU64Le payload 0)
          (answerGetBlocks κ store.blockchain.blocks payload).1
          (answerGetBlocks κ store.blockchain.blocks payload).2)) := by
  rw [handleGetBlocks, Program.last, Program.run_step, hstore]
  dsimp only
  rw [if_neg (by simp [Option.isSome_iff_ne_none.mp hnetwork, hsize]), Program.run,
    List.append_nil]

/-- `handle_get_blocks` on any bytes: it reads inside them, leaves the node alone and sends
one response; status, blocks and size are as the protocol wants them, and the requester's
loop gets the blocks back. -/
theorem get_blocks_answered (κ : Crypto) (hlaw : κ.SignatureLaw) (chainId : UInt32)
    (bs : List Block) (hbs : ∀ b ∈ bs, b.Obtainable κ) (n : NodeRuntime) (store : ChainStore)
    (hstore : n.chainStore = some store)
    (hchain : store.blockchain = Blockchain.replay κ chainId bs)
    (hnetwork : n.network.isSome = true) (peerId : UInt64) (payload : Bytes)
    (hsize : getBlocksPayloadMinimumSize ≤ payload.length) (io : Nat → StorageIo) :
    ∃ status served,
      let active := store.blockchain.blocks
      let response := encodeBlocks (readU64Le payload 0) status served
      answerGetBlocksIn κ active payload = some (readU64Le payload 0, status, served) ∧
      (handleGetBlocks κ peerId payload).run io n = (n, n.send peerId .blocks response) ∧
      (status = syncStatusInvalidRequest ↔ ¬ RequestValid payload) ∧
      (status = syncStatusLocatorNotFound ↔ RequestValid payload ∧
        ∀ entry ∈ requestEntries payload, ¬ OnChain κ active entry) ∧
      (status = syncStatusInvalidRequest ∨ status = syncStatusLocatorNotFound → served = []) ∧
      (∀ before entry after, RequestValid payload →
        requestEntries payload = before ++ entry :: after →
        (∀ other ∈ before, ¬ OnChain κ active other) → OnChain κ active entry →
          status = syncStatusOk ∧
          served = (active.drop (entry.1.toNat + 1)).take (requestedCount payload) ∧
          served.length = min (requestedCount payload) (active.length - (entry.1.toNat + 1))) ∧
      readU64Le response 0 = readU64Le payload 0 ∧
      validPayloadSize .blocks response.length = true ∧
      decodeBlocks κ response (readU16Le response 9).toNat blocksPayloadMinimumSize
        = some (served, response.length) := by
  have hinv : store.blockchain.Inv κ chainId := by
    rw [hchain]
    exact Blockchain.inv_replay κ chainId bs
  have hanswered := answered_answerGetBlocks hinv payload
  have hwell : ∀ b ∈ bs, b.WellFormed κ := fun b hb => (hbs b hb).wellFormed hlaw
  obtain ⟨hcount, hserved⟩ : (answerGetBlocks κ store.blockchain.blocks payload).2.length
      ≤ maximumBlocksPerSyncBatch ∧
      ∀ b ∈ (answerGetBlocks κ store.blockchain.blocks payload).2, b.WellFormed κ := by
    rw [hchain] at hanswered ⊢
    exact hanswered.batch hwell
  obtain ⟨hinvalid, hnotFound⟩ := hanswered.status_iff
  obtain ⟨hid, -, hnumber, -⟩ := encodeBlocks_layout (readU64Le payload 0)
    (answerGetBlocks κ store.blockchain.blocks payload).1 hcount
  refine ⟨(answerGetBlocks κ store.blockchain.blocks payload).1,
    (answerGetBlocks κ store.blockchain.blocks payload).2, answerGetBlocksIn_eq κ _ hsize, ?_,
    hinvalid,
    hnotFound, hanswered.served_nil, ?_, hid, validPayloadSize_encodeBlocks _ _ hcount, ?_⟩
  · exact run_handleGetBlocks hstore hnetwork peerId hsize io
  · intro before entry after hvalid hsplit hbefore hon
    obtain ⟨hstatus, heq⟩ := hanswered.served_eq hvalid hsplit hbefore hon
    refine ⟨hstatus, heq, ?_⟩
    rw [heq]
    exact length_following _ _ _
  · rw [hnumber]
    exact decodeBlocks_encodeBlocks _ _ hcount hserved

/-! A node that has also stored the sibling of its first block is asked by one that is on the
sibling. -/

def forkedSync : ChainStore :=
  ⟨[], Blockchain.replay reference 2 [minedSibling, minedFirst, minedChild], []⟩

def forkedNode : NodeRuntime where
  config := regtestFullNode
  chainStore := some forkedSync
  network := some { tipHeight := 2, tipBlockId := minedChild.id reference }

def siblingRequest : Bytes :=
  encodeGetBlocks 7 [(1, minedSibling.id reference), (0, (genesisBlock reference 2).id reference)]

/-- The run of the chain and what is read of the request, evaluated. -/
theorem siblingRequest_read :
    locatorCount siblingRequest = 2 ∧ requestedCount siblingRequest = 4 ∧
      siblingRequest.length = 92 ∧
      requestEntries siblingRequest
        = [(1, minedSibling.id reference), (0, (genesisBlock reference 2).id reference)] ∧
      forkedSync.blockchain.blocks = [genesisBlock reference 2, minedFirst, minedChild] ∧
      forkedSync.blockchain.indexById[minedSibling.id reference]? = some 1 ∧
      minedFirst.id reference ≠ minedSibling.id reference ∧
      ∀ b ∈ [genesisBlock reference 2, minedFirst], (b.id reference).isZero = false := by
  decide +kernel

theorem requestValid_siblingRequest : RequestValid siblingRequest := by
  obtain ⟨hcount, hrequested, hlength, -⟩ := siblingRequest_read
  constructor
  · rw [hcount]
    decide
  · rw [hcount]
    decide
  · rw [hcount, hlength]
    rfl
  · rw [hrequested]
    decide
  · rw [hrequested]
    decide

theorem obtainable_forkedSync :
    ∀ b ∈ [minedSibling, minedFirst, minedChild], b.Obtainable reference := by
  obtain ⟨-, -, -, -, -, -, -, hids⟩ := siblingRequest_read
  have hgenesis := hids _ (List.mem_cons_self ..)
  have hfirst := hids minedFirst (List.mem_cons_of_mem _ (List.mem_singleton_self _))
  intro b hb
  simp only [List.mem_cons, List.not_mem_nil, or_false] at hb
  rcases hb with rfl | rfl | rfl
  · exact obtainable_regtestBlock (by decide) hgenesis 2 3957
  · exact obtainable_regtestBlock (by decide) hgenesis 1 899
  · exact obtainable_regtestBlock (by decide) hfirst 2 1439

/-- The first entry is of a stored block beside the active chain, so the second one counts. -/
theorem get_blocks_answered_sibling :
    RequestValid siblingRequest ∧
      (∃ i, forkedSync.blockchain.indexById[minedSibling.id reference]? = some i) ∧
      (handleGetBlocks reference 3 siblingRequest).run (fun _ => {}) forkedNode
        = (forkedNode, forkedNode.send 3 .blocks
            (encodeBlocks (readU64Le siblingRequest 0) syncStatusOk [minedFirst, minedChild])) := by
  obtain ⟨-, hrequested, hlength, hentries, hactive, hstored, hdistinct, -⟩ := siblingRequest_read
  obtain ⟨status, served, -, hrun, -, -, -, hfound, -⟩ := get_blocks_answered reference
    reference_signatureLaw 2 [minedSibling, minedFirst, minedChild] obtainable_forkedSync
    forkedNode forkedSync rfl (by rw [forkedSync]) rfl 3 siblingRequest
    (by rw [hlength]; decide) fun _ => {}
  have hmissed : ∀ other ∈ [(1, minedSibling.id reference)],
      ¬ OnChain reference forkedSync.blockchain.blocks other := by
    intro other hother
    rw [List.mem_singleton.mp hother, hactive]
    rintro ⟨b, hb, hheight, hid⟩
    simp only [List.mem_cons, List.not_mem_nil, or_false] at hb
    rcases hb with rfl | rfl | rfl
    · exact absurd hheight (by decide)
    · exact hdistinct hid
    · exact absurd hheight (by decide)
  obtain ⟨hstatus, hserved, -⟩ := hfound [_] _ [] requestValid_siblingRequest hentries hmissed
    ⟨genesisBlock reference 2, by rw [hactive]; exact List.mem_cons_self, rfl, rfl⟩
  rw [hactive, hrequested] at hserved
  rw [hrun, hstatus, hserved]
  exact ⟨requestValid_siblingRequest, ⟨1, hstored⟩, rfl⟩

/-! ## Applying -/

/-! What does not depend on the synchronization's own fields is kept by what follows the
loop; by the loop as well, if `append` and the advertised tip keep it. -/

section fields
variable {I : NodeRuntime → Prop} (hsync : ∀ n sync, I n → I { n with sync := sync })

include hsync

theorem keeps_failSync_of : failSync.Keeps (fun _ => True) I :=
  Program.keeps_last fun n _ _ hn => hsync n _ hn

theorem keeps_sendSyncRequest_of (peerId : UInt64) :
    (sendSyncRequest κ peerId).Keeps (fun _ => True) I := by
  refine Program.keeps_step (fun _ _ _ hn => hn) fun running => ?_
  split
  · exact Program.keeps_done
  refine Program.keeps_step (fun n _ _ hn => ?_) fun request => ?_
  · rw [takeSyncRequest]
    split
    · exact hn
    split
    · exact hn
    · exact hsync n _ hn
  cases request with
  | none => exact Program.keeps_done
  | some request =>
      refine Program.keeps_step (fun _ _ _ hn => hn) fun locator => ?_
      split
      · exact keeps_failSync_of hsync
      refine Program.keeps_step (fun _ _ _ hn => hn) fun sent => ?_
      split
      · exact Program.keeps_done
      · exact keeps_failSync_of hsync

theorem keeps_finishBlocks_of (peerId : UInt64) (blocks : List Block) :
    (finishBlocks κ peerId blocks).Keeps (fun _ => True) I := by
  refine Program.keeps_step (fun n _ _ hn => ?_) fun _ => ?_
  · dsimp only
    split
    · exact hn
    · exact hsync n _ hn
  refine Program.keeps_step (fun _ _ _ hn => hn) fun tip => ?_
  cases tip with
  | none => exact Program.keeps_done
  | some tip =>
      refine Program.keeps_step (fun n _ _ hn => ?_) fun verdict => ?_
      · rcases judgeSync_cases n tip.height (tip.id κ) with hjudge | hjudge | hjudge
        · rw [hjudge]
          exact hsync n _ hn
        · rw [hjudge]
          exact hn
        · rw [hjudge]
          exact hn
      cases verdict with
      | complete => exact Program.keeps_done
      | invalidTip => exact keeps_failSync_of hsync
      | continue_ =>
          dsimp only
          split
          · exact keeps_failSync_of hsync
          · exact keeps_sendSyncRequest_of hsync peerId

theorem keeps_handleBlocks_of (htip : ∀ n height tip, I n → I (n.updateTip height tip))
    (happend : ∀ n block io, I n → I (n.appendSection κ block io).1) (peerId : UInt64)
    (payload : Bytes) : (handleBlocks κ peerId payload).Keeps (fun _ => True) I := by
  refine Program.keeps_step (fun n _ _ hn => ?_) fun matched => ?_
  · rw [takeResponse]
    split
    · exact hn
    · exact hsync n _ hn
  split
  · exact Program.keeps_done
  split
  · exact keeps_failSync_of hsync
  rename_i blocks hread
  clear hread
  have hnext := keeps_finishBlocks_of (κ := κ) hsync peerId blocks
  generalize finishBlocks κ peerId blocks = next at hnext ⊢
  induction blocks with
  | nil => exact hnext
  | cons block rest ih =>
      refine Program.keeps_step (fun n io _ hn => ?_) fun outcome => ?_
      · rw [storeSection]
        split
        · exact hn
        · exact happend n block io hn
      split
      · exact keeps_failSync_of hsync
      refine Program.keeps_step (fun n _ _ hn => ?_) fun _ => ?_
      · cases outcome with
        | none => exact hn
        | some outcome =>
            rw [noteSynced]
            split
            · exact htip n _ _ hn
            · exact hn
      exact Program.keeps_step (fun n _ _ hn => hsync n _ hn) fun _ => ih

end fields

theorem chainStore_finishBlocks (n : NodeRuntime) (peerId : UInt64) (blocks : List Block)
    (io : Nat → StorageIo) :
    ((finishBlocks κ peerId blocks).run io n).1.chainStore = n.chainStore :=
  (keeps_finishBlocks_of (I := fun m => m.chainStore = n.chainStore) (fun _ _ hn => hn) peerId
    blocks).run (fun _ => trivial) rfl

/-- `handle_blocks` on any bytes: it reads inside them; a response that was not asked for
changes nothing; one that does not parse as a whole costs the synchronization and nothing
else; otherwise the store absorbs the blocks in their order. -/
theorem response_checked_first (κ : Crypto) (n : NodeRuntime) (peerId : UInt64) (payload : Bytes)
    (hsize : blocksPayloadMinimumSize ≤ payload.length) (io : Nat → StorageIo) :
    let after := (handleBlocks κ peerId payload).run io n
    readBlocksIn κ payload = some (readU64Le payload 0, readBlocks κ payload) ∧
    (¬ (n.sync.peer = some peerId ∧ n.sync.pendingRequest = some (readU64Le payload 0) ∧
        n.sync.state = .syncing) → after = (n, [])) ∧
    (∀ blocks, readBlocks κ payload = some blocks ↔
      payload.getD 8 0 = syncStatusOk ∧ blocks.length ≤ maximumBlocksPerSyncBatch ∧
        blocks.length = (readU16Le payload 9).toNat ∧
        Records κ (payload.drop blocksPayloadMinimumSize) blocks) ∧
    (n.Awaiting peerId payload → readBlocks κ payload = none →
      after = ({ n with sync := { n.sync with pendingRequest := none, state := .failed } }, [])) ∧
    (∀ store blocks, n.Awaiting peerId payload → n.chainStore = some store →
      readBlocks κ payload = some blocks →
        let absorbed := store.absorb κ (absorbOps (fun k => io (k + 1)) blocks)
        after.1.chainStore = some absorbed.1 ∧
        (absorbed.2 = false →
          after.1.sync.state = .failed ∧ after.1.sync.pendingRequest = none)) := by
  refine ⟨readBlocksIn_eq κ hsize, ?_, fun blocks => readBlocks_iff hsize, ?_, ?_⟩
  · intro hmismatch
    exact run_handleBlocks_of_not_awaiting
      (fun h => hmismatch ⟨h.peer, h.pending, h.state⟩) io
  · intro hawaiting hnone
    rw [run_handleBlocks_of_awaiting hawaiting, hnone]
    rfl
  · intro store blocks hawaiting hstore hread
    rw [run_handleBlocks_of_awaiting hawaiting, hread]
    dsimp only
    obtain ⟨m, io', sent, -, hchain, -, hrun⟩ := run_applyBlocks_absorb κ n.config.chainId
      (finishBlocks κ peerId blocks) blocks (fun k => io (k + 1)) n.noteTaken store hstore
    rw [hrun]
    cases hall : (store.absorb κ (absorbOps (fun k => io (k + 1)) blocks)).2 with
    | true =>
        rw [if_pos rfl]
        exact ⟨(chainStore_finishBlocks m peerId blocks io').trans hchain, fun h => by cases h⟩
    | false =>
        rw [if_neg Bool.false_ne_true]
        exact ⟨hchain, fun _ => ⟨rfl, rfl⟩⟩

/-! A node that has asked peer 3 gets one block, and then the same bytes and one more. -/

def askingNode : NodeRuntime where
  config := regtestFullNode
  chainStore := some ChainStore.genesisStore
  network := some { tipHeight := 0, tipBlockId := (genesisBlock reference 2).id reference }
  sync := { state := .syncing, peer := some 3, pendingRequest := some 7, nextRequest := 8 }

def oneBlockResponse : Bytes := encodeBlocks 7 syncStatusOk [minedFirst]

theorem response_checked_first_mined :
    askingNode.Awaiting 3 oneBlockResponse ∧
      ((handleBlocks reference 3 oneBlockResponse).run (fun _ => {}) askingNode).1.chainStore
        = some (ChainStore.genesisStore.append reference minedFirst {}).1 ∧
      (handleBlocks reference 3 (oneBlockResponse ++ [0])).run (fun _ => {}) askingNode
        = (askingNode.noteFailure, []) := by
  have hbytes : readU64Le oneBlockResponse 0 = 7 ∧ readU64Le (oneBlockResponse ++ [0]) 0 = 7 ∧
      blocksPayloadMinimumSize ≤ oneBlockResponse.length ∧
      blocksPayloadMinimumSize ≤ (oneBlockResponse ++ [0]).length ∧
      readBlocks reference oneBlockResponse = some [minedFirst] ∧
      readBlocks reference (oneBlockResponse ++ [0]) = none ∧
      (Blockchain.new reference 2).contains (minedFirst.id reference) = false ∧
      (ChainStore.genesisStore.append reference minedFirst {}).2.hasValue = true := by
    decide +kernel
  obtain ⟨hid, hid', hsize, hsize', hread, hread', hfresh, hvalue⟩ := hbytes
  have hawaiting : askingNode.Awaiting 3 oneBlockResponse :=
    ⟨rfl, rfl, hsize, rfl, by rw [hid]; rfl, rfl⟩
  have hawaiting' : askingNode.Awaiting 3 (oneBlockResponse ++ [0]) :=
    ⟨rfl, rfl, hsize', rfl, by rw [hid']; rfl, rfl⟩
  have hgood := (response_checked_first reference askingNode 3 oneBlockResponse hsize
    fun _ => {}).2.2.2.2 _ _ hawaiting rfl hread
  have hbad := (response_checked_first reference askingNode 3 (oneBlockResponse ++ [0]) hsize'
    fun _ => {}).2.2.2.1 hawaiting' hread'
  refine ⟨hawaiting, hgood.1.trans ?_, hbad⟩
  rw [absorbOps, absorbOps, ChainStore.absorb,
    if_neg (by rw [ChainStore.genesisStore]; exact Bool.eq_false_iff.mp hfresh), if_pos hvalue,
    ChainStore.absorb]

end NodeRuntime

end BBC
