/-
# `BBC.Node.Convergence` — a synchronization reaches the peer's chain

A requester that is behind asks a server, `maybe_start_sync` first and then one request for
each response, until its tip is the server's.  Nothing else happens, the server does not
move, and no storage operation fails.

    requester                                      server
    locator from its tip          GET_BLOCKS  →    first entry on the active chain: p
    p+1 … p+4 known or stored     ←  BLOCKS        the active blocks p+1 … p+4
    locator from p+4              GET_BLOCKS  →    the first entry matches: p+4
    …

The forks of the requester do not matter: Genesis is always in the locator, so there is a
matching point, every block behind it that is not stored is accepted
(`Blockchain.Catching.next`), and the cursor stands on the server's branch from the first
response on.  The requester's own tip stays below the target until the target is stored.
-/
import BBC.Node.SyncService
import BBC.Lib.Runs
import Mathlib.Logic.Function.Iterate

namespace BBC

open ByteCodec
open Sections (Program)
open ParentTree

variable {κ : Crypto} {chainId : UInt32}

/-! ## The first entry that matches -/

namespace Blockchain

variable {c d : Blockchain}

theorem Tree.locator_size (h : c.Tree κ chainId) {i : Nat} (hi : i < c.storedBlocks.length) :
    c.blockLocator κ ((c.block i).id κ) maximumBlockLocatorEntries ≠ [] ∧
      (c.blockLocator κ ((c.block i).id κ) maximumBlockLocatorEntries).length
        ≤ maximumBlockLocatorEntries := by
  constructor
  · obtain ⟨rest, hrest⟩ := h.blockLocator_head hi 31
    exact hrest ▸ List.cons_ne_nil _ _
  · rw [h.blockLocator_eq hi]
    exact Tree.length_locatorLoop _ _

section matching
variable (hc : c.Inv κ chainId) (hd : d.Inv κ chainId) {i : Nat}
  (hi : i < c.storedBlocks.length)

include hc hd hi

/-- Genesis is in every locator and on every chain, so some entry matches first; it is the entry
of a block that the two chains share. -/
theorem Coherent.first_match (hco : c.Coherent κ d) :
    ∃ j p, j < c.storedBlocks.length ∧ d.blocks[p]? = some (c.block j) ∧
      (c.entry κ j).1.toNat = p ∧
      (c.blockLocator κ ((c.block i).id κ) maximumBlockLocatorEntries).find?
        (fun entry => Matches κ d.blocks entry) = some (c.entry κ j) := by
  have hroot : c.entry κ 0 ∈ c.blockLocator κ ((c.block i).id κ) maximumBlockLocatorEntries := by
    rw [hc.blockLocator_eq hi]
    exact hc.root_mem_locatorLoop _ _ hi rfl (Or.inr (by decide))
  have hgenesis : Matches κ d.blocks (c.entry κ 0) := by
    refine hd.matches_iff.mpr ⟨d.block 0, ?_, ?_, ?_⟩
    · rw [hd.blocks_eq_branch, branch]
      exact List.mem_map_of_mem (hd.zero_mem_path hd.tipIndex_lt)
    · rw [entry, hc.rootBlock, hd.rootBlock]
    · rw [entry, hc.rootBlock, hd.rootBlock]
  cases hfind : (c.blockLocator κ ((c.block i).id κ) maximumBlockLocatorEntries).find?
      (fun entry => Matches κ d.blocks entry) with
  | none => exact absurd (decide_eq_true hgenesis) (List.find?_eq_none.mp hfind _ hroot)
  | some e =>
      have hmem := List.mem_of_find?_eq_some hfind
      rw [hc.blockLocator_eq hi] at hmem
      obtain ⟨j, hj, rfl⟩ := hc.mem_locatorLoop _ _ hi e hmem
      have hj := hc.lt_of_mem_path hi hj
      have hpasses := List.find?_some hfind
      obtain ⟨b, hb, hheight, hid⟩ := hd.matches_iff.mp (of_decide_eq_true hpasses)
      have hshared : c.block j = b := hco _ (block_mem hj) _ (hd.mem_of_active hb) hid.symm
      obtain ⟨p, hp⟩ := List.mem_iff_getElem?.mp hb
      refine ⟨j, p, hj, ?_, ?_, rfl⟩
      · rw [hshared]
        exact hp
      · rw [← hheight]
        exact hd.height_of_getElem? hp

omit hc in
theorem first_match_self (h : c.Tree κ chainId) {p : Nat} (hp : d.blocks[p]? = some (c.block i)) :
    (c.entry κ i).1.toNat = p ∧
      (c.blockLocator κ ((c.block i).id κ) maximumBlockLocatorEntries).find?
        (fun entry => Matches κ d.blocks entry) = some (c.entry κ i) := by
  obtain ⟨rest, hrest⟩ := h.blockLocator_head hi 31
  have hmatches : Matches κ d.blocks (c.entry κ i) :=
    hd.matches_iff.mpr ⟨c.block i, List.mem_of_getElem? hp, rfl, rfl⟩
  refine ⟨hd.height_of_getElem? hp, ?_⟩
  show (c.blockLocator κ ((c.block i).id κ) (31 + 1)).find? _ = _
  rw [hrest]
  exact List.find?_cons_of_pos (decide_eq_true hmatches)

end matching

end Blockchain

/-! ## Feeding a store -/

namespace ChainStore

/-- Without a storage failure the store does what its chain does. -/
theorem append_of_stored {s : ChainStore} {b : Block} {io : AppendIo}
    (h : (s.append κ b io).2.storageError = .none) :
    (s.append κ b io).1.blockchain = (s.blockchain.append κ b).1 ∧
      (s.append κ b io).2.hasValue = (s.blockchain.append κ b).2.hasValue ∧
      ((s.blockchain.append κ b).2.hasValue = false → (s.append κ b io).1 = s) := by
  unfold append at h ⊢
  dsimp only at h ⊢
  by_cases hv : (s.blockchain.append κ b).2.hasValue = true
  · rw [if_neg (not_not.mpr hv)] at h ⊢
    by_cases hsize : ¬ io.sizeOk = true ∨ s.blocksFile.length > 2 ^ 64 - 1
    · rw [if_pos hsize] at h
      cases h
    rw [if_neg hsize] at h ⊢
    by_cases hopen : ¬ io.openOk = true
    · rw [if_pos hopen] at h
      cases h
    rw [if_neg hopen] at h ⊢
    cases hwrite : io.shortWrite with
    | some n =>
        rw [hwrite] at h
        cases h
    | none =>
        rw [hwrite] at h
        dsimp only at h ⊢
        split at h
        · rename_i hrebuilt
          rw [if_pos hrebuilt]
          exact ⟨rfl, rfl, fun hfalse => absurd (hfalse.symm.trans hv) Bool.false_ne_true⟩
        · rename_i hrebuilt
          dsimp only at h
          split at h
          · exact absurd h hrebuilt
          · cases h
  · rw [if_pos hv]
    have hsame : (s.blockchain.append κ b).1 = s.blockchain := by
      rcases Blockchain.append_cases κ s.blockchain b with ⟨hsame, -⟩ | ⟨p, next, ha, -⟩
      · exact hsame
      · exact absurd (Blockchain.hasValue_iff.mpr
          (Blockchain.append_error_none_iff.mpr ⟨p, next, ha⟩)) hv
    exact ⟨hsame.symm, rfl, fun _ => rfl⟩

/-- Putting the blocks into the store one after the other meets no storage failure. -/
structure Unfailing (κ : Crypto) (s : ChainStore) (blocks : List Block) : Prop where
  along : Runs.Along (fun s b => (s.append κ b {}).1)
    (fun s b => (s.append κ b {}).2.storageError = .none) s blocks

instance (κ : Crypto) (s : ChainStore) (blocks : List Block) : Decidable (s.Unfailing κ blocks) :=
  decidable_of_iff _ ⟨Unfailing.mk, Unfailing.along⟩

theorem Unfailing.head {s : ChainStore} {b : Block} {rest : List Block}
    (h : s.Unfailing κ (b :: rest)) : (s.append κ b {}).2.storageError = .none := h.along.1

theorem Unfailing.tail {s : ChainStore} {b : Block} {rest : List Block}
    (h : s.Unfailing κ (b :: rest)) : (s.append κ b {}).1.Unfailing κ rest := ⟨h.along.2⟩

theorem Unfailing.of_known {s : ChainStore} {rest : List Block} (known : List Block)
    (hknown : ∀ b ∈ known, s.blockchain.contains (b.id κ) = true)
    (h : s.Unfailing κ (known ++ rest)) : s.Unfailing κ rest := by
  induction known with
  | nil => exact h
  | cons b known ih =>
      obtain ⟨hb, hknown⟩ := List.forall_mem_cons.mp hknown
      obtain ⟨-, -, hsame⟩ := append_of_stored h.head
      have htail := h.tail
      rw [hsame (Blockchain.append_of_contains hb).2] at htail
      exact ih hknown htail

theorem absorb_catching {d : Blockchain} (hd : d.Inv κ chainId) {limit : Nat}
    (batch : List Block) :
    ∀ {s : ChainStore} {p : Nat} {rest : List Block},
      Blockchain.Catching κ chainId d limit s.blockchain p →
      d.blocks.drop (p + 1) = batch ++ rest → s.Unfailing κ (batch ++ rest) →
      (s.absorb κ (NodeRuntime.absorbOps (fun _ => {}) batch)).2 = true ∧
        Blockchain.Catching κ chainId d limit
          (s.absorb κ (NodeRuntime.absorbOps (fun _ => {}) batch)).1.blockchain
          (p + batch.length) ∧
        (s.absorb κ (NodeRuntime.absorbOps (fun _ => {}) batch)).1.Unfailing κ rest := by
  induction batch with
  | nil => intro s p rest h _ hstored; exact ⟨rfl, h, hstored⟩
  | cons b batch ih =>
      intro s p rest h hdrop hstored
      have hb : d.blocks[p + 1]? = some b := by
        rw [← List.head?_drop, hdrop]
        rfl
      have hrest : d.blocks.drop (p + 1 + 1) = batch ++ rest := by
        rw [← List.drop_drop, hdrop]
        rfl
      obtain ⟨hknown, hnext⟩ := h.next hd hb
      obtain ⟨hchain, hvalue, hsame⟩ := append_of_stored hstored.head
      have hturn : ∀ next : ChainStore, next.blockchain = (s.blockchain.append κ b).1 →
          next.Unfailing κ (batch ++ rest) →
          (next.absorb κ (NodeRuntime.absorbOps (fun _ => {}) batch)).2 = true ∧
            Blockchain.Catching κ chainId d limit
              (next.absorb κ (NodeRuntime.absorbOps (fun _ => {}) batch)).1.blockchain
              (p + (b :: batch).length) ∧
            (next.absorb κ (NodeRuntime.absorbOps (fun _ => {}) batch)).1.Unfailing κ rest := by
        intro next hblockchain htail
        rw [← hblockchain] at hnext
        rw [List.length_cons, Nat.add_comm batch.length 1, ← Nat.add_assoc]
        exact ih hnext hrest htail
      rw [NodeRuntime.absorbOps, absorb]
      dsimp only
      cases hcontains : s.blockchain.contains (b.id κ) with
      | true =>
          obtain ⟨hkept, hrefused⟩ := Blockchain.append_of_contains hcontains
          rw [if_pos rfl]
          refine hturn s hkept.symm ?_
          have htail := hstored.tail
          rw [hsame hrefused] at htail
          exact htail
      | false =>
          have haccepted : (s.blockchain.append κ b).2.hasValue = true := by
            rcases hknown with hknown | haccepted
            · rw [hcontains] at hknown
              cases hknown
            · exact haccepted
          rw [if_neg Bool.false_ne_true, if_pos (hvalue.trans haccepted)]
          exact hturn _ hchain hstored.tail

end ChainStore

/-! ## The exchange -/

/-- The payloads of one type that a handler sends to a peer. -/
def sentTo (peerId : UInt64) (type : MessageType) (outputs : List Output) : List Bytes :=
  outputs.filterMap fun output =>
    match output with
    | .send receiver sent payload => if receiver = peerId ∧ sent = type then some payload else none
    | .broadcast _ _ _ => none

/-- Two nodes with a session, and the requests and responses on their way. -/
structure Exchange where
  requester : NodeRuntime
  server : NodeRuntime
  /-- The session as the requester names it, and as the server does. -/
  serverId : UInt64
  requesterId : UInt64
  requests : List Bytes := []
  responses : List Bytes := []

namespace Exchange

/-- The handshake is over and the requester looks at the advertised tip. -/
def greet (κ : Crypto) (e : Exchange) : Exchange :=
  let r := (NodeRuntime.maybeStartSync κ e.serverId).run (fun _ => {}) e.requester
  { e with requester := r.1, requests := e.requests ++ sentTo e.serverId .getBlocks r.2 }

/-- The next request is answered, or else the next response is applied. -/
def step (κ : Crypto) (e : Exchange) : Exchange :=
  match e.requests, e.responses with
  | request :: requests, responses =>
      let r := (NodeRuntime.handleGetBlocks κ e.requesterId request).run (fun _ => {}) e.server
      { e with
        server := r.1
        requests := requests
        responses := responses ++ sentTo e.requesterId .blocks r.2 }
  | [], response :: responses =>
      let r := (NodeRuntime.handleBlocks κ e.serverId response).run (fun _ => {}) e.requester
      { e with
        requester := r.1
        responses := responses
        requests := sentTo e.serverId .getBlocks r.2 }
  | [], [] => e

end Exchange

namespace NodeRuntime

variable {n m : NodeRuntime} {peerId : UInt64} {d : Blockchain} {limit p : Nat} {s : ChainStore}

/-! ## The requester -/

/-- The node is being fed the active blocks of `d` by a peer; it stores the one at `p`. -/
structure Chasing (κ : Crypto) (chainId : UInt32) (d : Blockchain) (limit : Nat)
    (peerId : UInt64) (n : NodeRuntime) (s : ChainStore) (p : Nat) : Prop where
  running : n.Running κ chainId
  chain : n.chainStore = some s
  catching : Blockchain.Catching κ chainId d limit s.blockchain p
  unfailing : s.Unfailing κ (d.blocks.drop (p + 1))
  reaches : n.reaches peerId = true
  peer : n.sync.peer = some peerId
  state : n.sync.state = .syncing
  targetHeight : n.sync.targetHeight = some d.tip.height
  targetTip : n.sync.targetTip = some (d.tip.id κ)

/-- A request is under way, and the server will find `p`. -/
def Asked (κ : Crypto) (d : Blockchain) (p : Nat) (n : NodeRuntime) (request : Bytes) : Prop :=
  ∃ requestId locator entry, n.sync.pendingRequest = some requestId ∧
    request = encodeGetBlocks requestId locator ∧ locator ≠ [] ∧
    locator.length ≤ maximumBlockLocatorEntries ∧
    locator.find? (fun entry => Matches κ d.blocks entry) = some entry ∧ entry.1.toNat = p

theorem run_sendSyncRequest_of_stored (hrunning : n.Running κ chainId)
    (hchain : n.chainStore = some s) (hinv : s.blockchain.Inv κ chainId)
    (hreaches : n.reaches peerId = true) {i : Nat} (hi : i < s.blockchain.storedBlocks.length)
    (hasking : n.Asking peerId ((s.blockchain.block i).id κ)) (io : Nat → StorageIo) :
    (sendSyncRequest κ peerId).run io n
      = (n.noteRequest, [.send peerId .getBlocks (encodeGetBlocks n.sync.nextRequest
          (s.blockchain.blockLocator κ ((s.blockchain.block i).id κ)
            maximumBlockLocatorEntries))]) := by
  rw [run_sendSyncRequest hrunning.network hchain hasking io]
  exact if_pos ⟨(hinv.locator_size hi).1, hreaches⟩

theorem sentTo_send (peerId : UInt64) (type : MessageType) (payload : Bytes) :
    sentTo peerId type [.send peerId type payload] = [payload] := by
  rw [sentTo, List.filterMap_cons]
  dsimp only
  rw [if_pos ⟨rfl, rfl⟩]
  rfl

/-- What the pool puts out is not part of the exchange. -/
theorem sentTo_rebroadcast (peerId : UInt64) (type : MessageType) {sent rest : List Output}
    (h : ∀ o ∈ sent, Rebroadcast o) :
    sentTo peerId type (sent ++ rest) = sentTo peerId type rest := by
  rw [sentTo, List.filterMap_append]
  have hnone : sent.filterMap (fun output =>
      match output with
      | .send receiver sent payload =>
          if receiver = peerId ∧ sent = type then some payload else none
      | .broadcast _ _ _ => none) = [] := by
    refine List.filterMap_eq_nil_iff.mpr ?_
    intro o ho
    obtain ⟨payload, rfl⟩ := h o ho
    rfl
  rw [hnone]
  rfl

theorem judgeSync_of_reached {height : UInt64} {tip : Hash256}
    (hheight : n.sync.targetHeight = some height) (htip : n.sync.targetTip = some tip) :
    n.judgeSync height tip
      = ({ n with sync := { n.sync with state := .complete } }, [], .complete) := by
  rw [judgeSync, hheight, htip]
  dsimp only
  rw [if_pos rfl, if_pos rfl]

theorem judgeSync_of_lt {height target : UInt64} (tip : Hash256) {targetTip : Hash256}
    (hheight : n.sync.targetHeight = some target) (htip : n.sync.targetTip = some targetTip)
    (hlt : height < target) : n.judgeSync height tip = (n, [], .continue_) := by
  rw [judgeSync, hheight, htip]
  dsimp only
  rw [if_neg (UInt64.ne_of_lt hlt), if_neg (UInt64.not_lt.mpr (UInt64.le_of_lt hlt))]

/-- The blocks that a request from `p` is answered with. -/
def batchAt (d : Blockchain) (p : Nat) : List Block :=
  (d.blocks.drop (p + 1)).take maximumBlocksPerSyncBatch

theorem length_batchAt (hd : d.Inv κ chainId) (p : Nat) :
    (batchAt d p).length = min maximumBlocksPerSyncBatch (d.tip.height.toNat - p) := by
  rw [batchAt, List.length_take, List.length_drop, hd.length_blocks]
  congr 1
  omega

theorem drop_batchAt (d : Blockchain) (p : Nat) :
    d.blocks.drop (p + 1) = batchAt d p ++ d.blocks.drop (p + (batchAt d p).length + 1) := by
  have hprefix := List.prefix_iff_eq_append.mp
    (List.take_prefix maximumBlocksPerSyncBatch (d.blocks.drop (p + 1)))
  rw [List.drop_drop, Nat.add_right_comm] at hprefix
  exact hprefix.symm

theorem Chasing.absorbed (h : Chasing κ chainId d limit peerId n s p) (hd : d.Inv κ chainId)
    (hwell : ∀ b ∈ batchAt d p, b.WellFormed κ) {requestId : UInt64}
    (hpending : n.sync.pendingRequest = some requestId) :
    ∃ m s' io sent, Chasing κ chainId d limit peerId m s' (p + (batchAt d p).length) ∧
      m.sync.pendingRequest = none ∧ (∀ o ∈ sent, Rebroadcast o) ∧
      (handleBlocks κ peerId (encodeBlocks requestId syncStatusOk (batchAt d p))).run
          (fun _ => {}) n
        = (((finishBlocks κ peerId (batchAt d p)).run io m).1,
            sent ++ ((finishBlocks κ peerId (batchAt d p)).run io m).2) := by
  have hcount : (batchAt d p).length ≤ maximumBlocksPerSyncBatch := by
    rw [length_batchAt hd]
    exact Nat.min_le_left _ _
  have hawaiting : n.Awaiting peerId (encodeBlocks requestId syncStatusOk (batchAt d p)) := by
    refine ⟨by rw [h.chain]; rfl, h.running.network, ?_, h.peer, ?_, h.state⟩
    · rw [length_encodeBlocks]
      exact Nat.le_add_right _ _
    · rw [(encodeBlocks_layout requestId syncStatusOk hcount).1]
      exact hpending
  obtain ⟨m, io, sent, hframe, hchain, hsent, hrun⟩ := run_applyBlocks_absorb κ chainId
    (finishBlocks κ peerId (batchAt d p)) (batchAt d p) (fun _ => {}) n.noteTaken s h.chain
  have hsplit := drop_batchAt d p
  obtain ⟨hall, hcatching, hunfailing⟩ := ChainStore.absorb_catching hd (batchAt d p) h.catching
    hsplit (by rw [← hsplit]; exact h.unfailing)
  have hsync := hframe.sync
  refine ⟨m, (s.absorb κ (absorbOps (fun _ => {}) (batchAt d p))).1, io, sent, ?_,
    by rw [hsync]; rfl, hsent, ?_⟩
  · refine ⟨hframe.running (h.running.congr rfl rfl), hchain, hcatching, hunfailing, ?_, ?_, ?_,
      ?_, ?_⟩
    · rw [reaches_congr hframe.peers]
      exact h.reaches
    · rw [hsync]
      exact h.peer
    · rw [hsync]
      exact h.state
    · rw [hsync]
      exact h.targetHeight
    · rw [hsync]
      exact h.targetTip
  · rw [run_handleBlocks_of_awaiting hawaiting, readBlocks_encodeBlocks requestId hcount hwell]
    dsimp only
    rw [hrun, if_pos hall]

/-- The target is stored: the synchronization is complete and the chains agree. -/
theorem Chasing.complete (h : Chasing κ chainId d limit peerId n s d.tip.height.toNat)
    (hd : d.Inv κ chainId) (hlimit : limit < d.tip.height.toNat) (blocks : List Block)
    (io : Nat → StorageIo) :
    ((finishBlocks κ peerId blocks).run io n).1.sync.state = .complete ∧
      ((finishBlocks κ peerId blocks).run io n).1.chainStore = some s ∧
      ((finishBlocks κ peerId blocks).run io n).2 = [] ∧ s.blockchain.blocks = d.blocks := by
  obtain ⟨htip, hblocks⟩ := h.catching.blocks_eq hd hlimit
  obtain ⟨-, hchain, hsync⟩ := frame_noteCursor (κ := κ) n blocks
  have hjudge := judgeSync_of_reached (n := n.noteCursor κ blocks)
    (by rw [hsync]; exact h.targetHeight) (by rw [hsync]; exact h.targetTip)
  rw [← htip] at hjudge
  rw [run_finishBlocks h.chain blocks io hjudge]
  exact ⟨rfl, hchain.trans h.chain, rfl, hblocks⟩

/-- The target is not stored yet: the next request goes on from the last block. -/
theorem Chasing.continue (h : Chasing κ chainId d limit peerId n s p) (hd : d.Inv κ chainId)
    (hpending : n.sync.pendingRequest = none) (hlimit : limit < d.tip.height.toNat)
    (hp : p < d.tip.height.toNat) {blocks : List Block} {last : Block}
    (hlast : blocks.getLast? = some last) (hat : d.blocks[p]? = some last)
    (io : Nat → StorageIo) :
    ∃ request, Chasing κ chainId d limit peerId ((finishBlocks κ peerId blocks).run io n).1 s p ∧
      ((finishBlocks κ peerId blocks).run io n).1.Asked κ d p request ∧
      ((finishBlocks κ peerId blocks).run io n).2 = [.send peerId .getBlocks request] := by
  have hsome : blocks ≠ [] := by
    rintro rfl
    cases hlast
  obtain ⟨hview, hchain, hsync⟩ := frame_noteCursor (κ := κ) n blocks
  obtain ⟨last', hlast', hcursor⟩ := locatorTip_noteCursor (κ := κ) n hsome
  rw [hlast] at hlast'
  cases hlast'
  obtain ⟨i, hi, hstored⟩ := h.catching.stored
  have hblock : s.blockchain.block i = last := Option.some.inj (hstored.symm.trans hat)
  have hlt : s.blockchain.tip.height < d.tip.height :=
    UInt64.lt_iff_toNat_lt.mpr (h.catching.tip_lt hlimit hp)
  have hjudge := judgeSync_of_lt (n := n.noteCursor κ blocks) (s.blockchain.tip.id κ)
    (by rw [hsync]; exact h.targetHeight)
    (by rw [hsync]; exact h.targetTip) hlt
  have hpeers : (n.noteCursor κ blocks).peers = n.peers := by
    rw [peers, peers, hview]
  have hrunning : (n.noteCursor κ blocks).Running κ chainId :=
    h.running.congr (by rw [hview]) hchain
  have hreaches : (n.noteCursor κ blocks).reaches peerId = true := by
    rw [reaches_congr hpeers]
    exact h.reaches
  have hasking : (n.noteCursor κ blocks).Asking peerId ((s.blockchain.block i).id κ) := by
    rw [hblock]
    refine ⟨?_, ?_, ?_, hcursor⟩
    · rw [hsync]
      exact h.peer
    · rw [hsync]
      exact hpending
    · rw [hsync]
      exact h.state
  have hrun := run_sendSyncRequest_of_stored (κ := κ) hrunning (hchain.trans h.chain)
    h.catching.inv hreaches hi hasking (fun k => io (k + 1 + 1 + 1))
  rw [run_finishBlocks h.chain blocks io hjudge, conclude, if_neg (by simpa using hsome), hrun]
  obtain ⟨hheight, hfirst⟩ := Blockchain.first_match_self hd hi h.catching.inv.toTree hstored
  obtain ⟨hne, hlength⟩ := h.catching.inv.locator_size hi
  refine ⟨_, ?_, ⟨_, _, _, rfl, rfl, hne, hlength, hfirst, hheight⟩, rfl⟩
  exact ⟨hrunning.congr rfl rfl, hchain.trans h.chain, h.catching, h.unfailing, hreaches,
    hasking.peer, hasking.state, by rw [noteRequest, hsync]; exact h.targetHeight,
    by rw [noteRequest, hsync]; exact h.targetTip⟩

end NodeRuntime

/-! ## Rounds -/

namespace Exchange

open NodeRuntime

variable {e : Exchange} {server : NodeRuntime} {d : Blockchain} {limit p : Nat}

/-- The server serves `d` and can send to the requester. -/
structure Serves (d : Blockchain) (server : NodeRuntime) (requesterId : UInt64) : Prop where
  chain : ∃ store, server.chainStore = some store ∧ store.blockchain = d
  network : server.network.isSome = true
  reaches : server.reaches requesterId = true

/-- A round begins: the request that the server will match at `p` is on its way. -/
structure Underway (κ : Crypto) (chainId : UInt32) (d : Blockchain) (limit : Nat)
    (server : NodeRuntime) (e : Exchange) (p : Nat) : Prop where
  server_eq : e.server = server
  serves : Serves d server e.requesterId
  requester : ∃ s, Chasing κ chainId d limit e.serverId e.requester s p
  request : ∃ request, e.requests = [request] ∧ e.responses = [] ∧
    e.requester.Asked κ d p request

/-- Nothing is on its way, and the requester has the server's chain. -/
structure Finished (d : Blockchain) (server : NodeRuntime) (e : Exchange) : Prop where
  server_eq : e.server = server
  quiet : e.requests = [] ∧ e.responses = []
  complete : e.requester.sync.state = .complete
  chain : ∃ s, e.requester.chainStore = some s ∧ s.blockchain.blocks = d.blocks

/-- The server answers with the next blocks of its active chain. -/
theorem Underway.answered (h : Underway κ chainId d limit server e p) :
    ∃ request requestId, e.requests = [request] ∧ e.responses = [] ∧
      readU64Le request 0 = requestId ∧ e.requester.sync.pendingRequest = some requestId ∧
      matchLocator κ d.blocks request (locatorCount request) 10 = some p ∧
      e.step κ = { e with
        requests := []
        responses := [encodeBlocks requestId syncStatusOk (batchAt d p)] } := by
  obtain ⟨store, hstore, hchain⟩ := h.serves.chain
  obtain ⟨request, hrequests, hresponses, requestId, locator, entry, hpending, hrequest, hne,
    hlength, hfirst, hentry⟩ := h.request
  obtain ⟨hid, hvalid, hentries, hcount⟩ := encodeGetBlocks_layout requestId hne hlength
  rw [← hrequest] at hid hvalid hentries hcount
  have hsize : getBlocksPayloadMinimumSize ≤ request.length := by
    have hlong : 10 + locatorCount request * 40 + 2 = request.length := hvalid.length
    have hpos := hvalid.count_pos
    show 52 ≤ request.length
    omega
  have hanswer : answerGetBlocks κ store.blockchain.blocks request
      = (syncStatusOk, batchAt d p) := by
    rw [answerGetBlocks_of_valid hvalid, hentries, hchain, hfirst]
    dsimp only
    rw [following, hentry, hcount]
    rfl
  have hrun := run_handleGetBlocks (κ := κ) hstore h.serves.network e.requesterId hsize
    (fun _ => {})
  rw [hanswer, send, if_pos h.serves.reaches, hid, ← h.server_eq] at hrun
  refine ⟨request, requestId, hrequests, hresponses, hid, hpending, ?_, ?_⟩
  · rw [matchLocator_eq, ← requestEntries, hentries, hfirst, Option.map_some, hentry]
  · rw [step, hrequests, hresponses]
    dsimp only
    rw [hrun, sentTo_send, List.nil_append]

theorem step_of_response {response : Bytes} (hrequests : e.requests = [])
    (hresponses : e.responses = [response]) :
    e.step κ = { e with
      requester := ((handleBlocks κ e.serverId response).run (fun _ => {}) e.requester).1
      responses := []
      requests := sentTo e.serverId .getBlocks
        ((handleBlocks κ e.serverId response).run (fun _ => {}) e.requester).2 } := by
  rw [step, hrequests, hresponses]

/-- One round: the next one begins four blocks later, or the exchange is over. -/
theorem Underway.round (h : Underway κ chainId d limit server e p) (hd : d.Inv κ chainId)
    (hlimit : limit < d.tip.height.toNat) (hp : p < d.tip.height.toNat)
    (hwell : ∀ b ∈ batchAt d p, b.WellFormed κ) :
    (p + 4 < d.tip.height.toNat →
      Underway κ chainId d limit server ((e.step κ).step κ) (p + 4)) ∧
    (d.tip.height.toNat ≤ p + 4 → Finished d server ((e.step κ).step κ)) := by
  obtain ⟨request, requestId, -, -, -, hpending, -, hstep⟩ := h.answered
  obtain ⟨s, hchasing⟩ := h.requester
  obtain ⟨m, s', io, sent, hfed, hnone, hsent, hrun⟩ := hchasing.absorbed hd hwell hpending
  have hlength := length_batchAt hd p
  have hbatch : maximumBlocksPerSyncBatch = 4 := rfl
  rw [hstep, step_of_response rfl rfl]
  dsimp only
  rw [hrun]
  constructor
  · intro hmore
    have hfour : (batchAt d p).length = 4 := by omega
    rw [hfour] at hfed
    obtain ⟨i, hi, hstored⟩ := hfed.catching.stored
    have hlast : (batchAt d p).getLast? = some (s'.blockchain.block i) := by
      rw [List.getLast?_eq_getElem?, hfour, batchAt, List.getElem?_take_of_lt (by decide),
        List.getElem?_drop, Nat.add_right_comm, Nat.add_assoc]
      exact hstored
    obtain ⟨next, hchased, hasked, hout⟩ := hfed.continue hd hnone hlimit hmore hlast hstored io
    refine ⟨h.server_eq, h.serves, ⟨s', hchased⟩, next, ?_, rfl, hasked⟩
    show sentTo e.serverId .getBlocks (sent ++ _) = [next]
    rw [sentTo_rebroadcast _ _ hsent, hout, sentTo_send]
  · intro hend
    have hrest : p + (batchAt d p).length = d.tip.height.toNat := by omega
    rw [hrest] at hfed
    obtain ⟨hcomplete, hchain, hout, hblocks⟩ := hfed.complete hd hlimit (batchAt d p) io
    refine ⟨h.server_eq, ⟨?_, rfl⟩, hcomplete, s', hchain, hblocks⟩
    show sentTo e.serverId .getBlocks (sent ++ _) = []
    rw [sentTo_rebroadcast _ _ hsent, hout]
    rfl

theorem Underway.rounds (hd : d.Inv κ chainId) (hlimit : limit < d.tip.height.toNat)
    (hwell : ∀ p, ∀ b ∈ batchAt d p, b.WellFormed κ) (r : Nat) :
    ∀ {e : Exchange} {p : Nat}, Underway κ chainId d limit server e p →
      p + 4 * r < d.tip.height.toNat → d.tip.height.toNat ≤ p + 4 * (r + 1) →
      (∀ k ≤ r, Underway κ chainId d limit server ((step κ)^[2 * k] e) (p + 4 * k)) ∧
        Finished d server ((step κ)^[2 * (r + 1)] e) := by
  induction r with
  | zero =>
      intro e p h hlt hle
      refine ⟨?_, (h.round hd hlimit hlt (hwell p)).2 hle⟩
      intro k hk
      rw [Nat.le_zero.mp hk]
      exact h
  | succ r ih =>
      intro e p h hlt hle
      have hnext := (h.round hd hlimit (by omega) (hwell p)).1 (by omega)
      obtain ⟨hrounds, hfinished⟩ := ih hnext (by omega) (by omega)
      constructor
      · intro k hk
        cases k with
        | zero => exact h
        | succ k =>
            have hround := hrounds k (Nat.le_of_succ_le_succ hk)
            rw [Nat.mul_succ 4, Nat.add_comm (4 * k) 4, ← Nat.add_assoc]
            exact hround
      · exact hfinished

/-! ## The start -/

/-- After the handshake the first request is on its way, and the server will find a block that
both have. -/
theorem underway_greet {own : ChainStore} {bs : List Block} {peer : PeerStatus}
    (hd : d.Inv κ chainId) (hown : e.requester.chainStore = some own)
    (hreplay : own.blockchain = Blockchain.replay κ chainId bs)
    (hids : own.blockchain.Coherent κ d)
    (hahead : own.blockchain.tip.height < d.tip.height) (hserves : Serves d e.server e.requesterId)
    (hnetwork : e.requester.network.isSome = true) (hidle : e.requester.sync.state = .idle)
    (hnone : e.requester.sync.pendingRequest = none)
    (hpeer : e.requester.peers.find? (fun peer => peer.id = e.serverId && peer.handshakeComplete
      && peer.isFullNode) = some peer)
    (hheight : peer.remoteHeight = d.tip.height) (htip : peer.remoteTip = d.tip.id κ)
    (hunfailing : own.Unfailing κ d.blocks) (hrequests : e.requests = [])
    (hresponses : e.responses = []) :
    ∃ p, p < d.tip.height.toNat ∧
      Underway κ chainId d own.blockchain.tip.height.toNat e.server (e.greet κ) p := by
  have hinv : own.blockchain.Inv κ chainId := by
    rw [hreplay]
    exact Blockchain.inv_replay κ chainId bs
  obtain ⟨j, p, hj, hat, hentry, hfirst⟩ := hids.first_match hinv hd hinv.tipIndex_lt
  have hp : p < d.tip.height.toNat := by
    have hle := hinv.height_le_tip hj
    have hlt := UInt64.lt_iff_toNat_lt.mp hahead
    rw [← hentry]
    exact Nat.lt_of_le_of_lt hle hlt
  -- the session
  have hmatch := List.find?_some hpeer
  simp only [Bool.and_eq_true, decide_eq_true_eq] at hmatch
  have hreaches : e.requester.reaches e.serverId = true := by
    refine List.any_eq_true.mpr ⟨peer, List.mem_of_find?_eq_some hpeer, ?_⟩
    simp only [Bool.and_eq_true, decide_eq_true_eq]
    exact hmatch.1
  -- the run of `maybe_start_sync`
  have hadopted : (e.requester.adoptTarget peer (own.blockchain.tip.id κ) .syncing).Asking
      e.serverId ((own.blockchain.block own.blockchain.tipIndex).id κ) := by
    rw [← hinv.tip_eq]
    exact ⟨congrArg some hmatch.1.1, hnone, rfl, rfl⟩
  have hrunning : (e.requester.adoptTarget peer (own.blockchain.tip.id κ) .syncing).Running κ
      chainId :=
    ⟨hnetwork, own, bs, hown, hreplay⟩
  have hrun := (run_maybeStartSync (κ := κ) hnetwork hown hpeer (by rw [hheight]; exact hahead)
    hnone (by rw [hidle]; decide) (fun _ => {})).trans
      (run_sendSyncRequest_of_stored hrunning hown hinv hreaches hinv.tipIndex_lt hadopted _)
  -- the blocks up to the matching point are stored
  have hcatching : Blockchain.Catching κ chainId d own.blockchain.tip.height.toNat
      own.blockchain p :=
    ⟨hinv, hids, ⟨j, hj, hat⟩, Or.inl (Nat.le_refl _)⟩
  have hrest : own.Unfailing κ (d.blocks.drop (p + 1)) := by
    refine ChainStore.Unfailing.of_known (d.blocks.take (p + 1)) ?_ ?_
    · intro b hb
      exact hcatching.contains hd hb
    · rw [List.take_append_drop]
      exact hunfailing
  obtain ⟨hne, hlength⟩ := hinv.locator_size hinv.tipIndex_lt
  refine ⟨p, hp, ?_⟩
  rw [greet, hrun]
  refine ⟨rfl, hserves, ⟨own, ?_⟩, _, ?_, hresponses, _, _, _, rfl, rfl, hne, hlength, hfirst,
    hentry⟩
  · exact ⟨hrunning.congr rfl rfl, hown, hcatching, hrest, hreaches, hadopted.peer,
      hadopted.state, congrArg some hheight, congrArg some htip⟩
  · show e.requests ++ sentTo e.serverId .getBlocks [_] = [_]
    rw [hrequests, sentTo_send, List.nil_append]

/-- A requester that is behind, after the handshake with a server on any reachable chain of the
same network: every request is answered with status 0 and the next blocks of the server's
active chain behind the matched point, up to four of them and never none; the matched point
moves on by what was served; after finitely many rounds nothing is on its way, the
synchronization is complete, and the active chains are equal. -/
theorem sync_converges (κ : Crypto) (hlaw : κ.SignatureLaw) (chainId : UInt32)
    (rs ss : List Block) (hss : ∀ b ∈ ss, b.Obtainable κ)
    (hids : ∀ a ∈ (Blockchain.replay κ chainId rs).storedBlocks,
      ∀ b ∈ (Blockchain.replay κ chainId ss).storedBlocks, a.id κ = b.id κ → a = b)
    (hahead : (Blockchain.replay κ chainId rs).tip.height
      < (Blockchain.replay κ chainId ss).tip.height)
    (e : Exchange) (own served : ChainStore) (hown : e.requester.chainStore = some own)
    (hrs : own.blockchain = Blockchain.replay κ chainId rs)
    (hserved : e.server.chainStore = some served)
    (hactive : served.blockchain = Blockchain.replay κ chainId ss)
    (hnetwork : e.requester.network.isSome = true ∧ e.server.network.isSome = true)
    (hsession : e.server.reaches e.requesterId = true)
    (hidle : e.requester.sync.state = .idle ∧ e.requester.sync.pendingRequest = none)
    (peer : PeerStatus)
    (hpeer : e.requester.peers.find? (fun peer => peer.id = e.serverId && peer.handshakeComplete
      && peer.isFullNode) = some peer)
    (hadvertised : peer.remoteHeight = (Blockchain.replay κ chainId ss).tip.height ∧
      peer.remoteTip = (Blockchain.replay κ chainId ss).tip.id κ)
    (hstorage : own.Unfailing κ (Blockchain.replay κ chainId ss).blocks)
    (hquiet : e.requests = [] ∧ e.responses = []) :
    let active := (Blockchain.replay κ chainId ss).blocks
    let height := (Blockchain.replay κ chainId ss).tip.height.toNat
    let after := fun k => (step κ)^[k] (e.greet κ)
    ∃ start rounds, start < height ∧ height ≤ start + 4 * rounds ∧
      start + 4 * rounds < height + 4 ∧
      (∀ k < rounds, ∃ request,
        let batch := (active.drop (start + 4 * k + 1)).take 4
        (after (2 * k)).requests = [request] ∧ (after (2 * k)).responses = [] ∧
        (after (2 * k)).requester.sync.state = .syncing ∧
        matchLocator κ active request (locatorCount request) 10 = some (start + 4 * k) ∧
        batch.length = min 4 (height - (start + 4 * k)) ∧ batch ≠ [] ∧
        (after (2 * k + 1)).requests = [] ∧
        (after (2 * k + 1)).responses
          = [encodeBlocks (readU64Le request 0) syncStatusOk batch] ∧
        (after (2 * k + 1)).requester.sync.state = .syncing ∧
        (after (2 * k)).server = e.server ∧ (after (2 * k + 1)).server = e.server) ∧
      (after (2 * rounds)).requests = [] ∧ (after (2 * rounds)).responses = [] ∧
      (after (2 * rounds)).requester.sync.state = .complete ∧
      (after (2 * rounds)).server = e.server ∧
      ∃ store, (after (2 * rounds)).requester.chainStore = some store ∧
        store.blockchain.blocks = active := by
  intro active height after
  have hd := Blockchain.inv_replay κ chainId ss
  have hwell : ∀ p, ∀ b ∈ batchAt (Blockchain.replay κ chainId ss) p, b.WellFormed κ := by
    intro p b hb
    obtain ⟨k, hk⟩ := List.mem_iff_getElem?.mp (List.mem_of_mem_take hb)
    rw [List.getElem?_drop, Nat.add_right_comm] at hk
    exact (hss b (Blockchain.mem_of_active_replay hk)).wellFormed hlaw
  obtain ⟨start, hstart, hunderway⟩ := underway_greet hd hown hrs (by rw [hrs]; exact hids)
    (by rw [hrs]; exact hahead) ⟨⟨served, hserved, hactive⟩, hnetwork.2, hsession⟩ hnetwork.1
    hidle.1 hidle.2 hpeer hadvertised.1 hadvertised.2 hstorage hquiet.1 hquiet.2
  have hlimit : own.blockchain.tip.height.toNat
      < (Blockchain.replay κ chainId ss).tip.height.toNat := by
    rw [hrs]
    exact UInt64.lt_iff_toNat_lt.mp hahead
  obtain ⟨r, hlow, hhigh⟩ : ∃ r, start + 4 * r < height ∧ height ≤ start + 4 * (r + 1) :=
    ⟨(height - start - 1) / 4, by omega, by omega⟩
  obtain ⟨hrounds, hfinished⟩ := hunderway.rounds hd hlimit hwell r hlow hhigh
  refine ⟨start, r + 1, hstart, hhigh, by omega, ?_, hfinished.quiet.1, hfinished.quiet.2,
    hfinished.complete, hfinished.server_eq, hfinished.chain⟩
  intro k hk
  have hround := hrounds k (Nat.le_of_lt_succ hk)
  obtain ⟨request, requestId, hrequests, hresponses, hid, -, hmatched, hstep⟩ := hround.answered
  obtain ⟨s, hchasing⟩ := hround.requester
  have hlength := length_batchAt hd (start + 4 * k)
  have hafter : after (2 * k + 1) = (after (2 * k)).step κ :=
    Function.iterate_succ_apply' _ _ _
  rw [hafter]
  refine ⟨request, hrequests, hresponses, hchasing.state, hmatched, hlength, ?_, ?_, ?_, ?_,
    hround.server_eq, ?_⟩
  · have hsome : (batchAt (Blockchain.replay κ chainId ss) (start + 4 * k)).length ≠ 0 := by
      have hbatch : maximumBlocksPerSyncBatch = 4 := rfl
      omega
    intro hnil
    exact hsome (congrArg List.length hnil)
  · exact congrArg requests hstep
  · rw [hid]
    exact congrArg responses hstep
  · exact (congrArg (fun e => e.requester.sync.state) hstep).trans hchasing.state
  · exact (congrArg server hstep).trans hround.server_eq

/-! A node on the sibling of the first mined block meets one on the first and its child. -/

def siblingStore : ChainStore := (ChainStore.genesisStore.append reference minedSibling {}).1

def childStore : ChainStore := ⟨[], Blockchain.replay reference 2 [minedFirst, minedChild], []⟩

def childPeer : PeerStatus := ⟨5, true, fullNodeService, 2, minedChild.id reference⟩

def forkedExchange : Exchange where
  requester :=
    { config := regtestFullNode
      chainStore := some siblingStore
      network := some
        { peers := [childPeer], tipHeight := 1, tipBlockId := minedSibling.id reference } }
  server :=
    { config := regtestFullNode
      chainStore := some childStore
      network := some
        { peers := [⟨6, true, fullNodeService, 1, minedSibling.id reference⟩]
          tipHeight := 2
          tipBlockId := minedChild.id reference } }
  serverId := 5
  requesterId := 6

theorem sync_converges_forked :
    ∃ rounds store, ((step reference)^[2 * rounds] (forkedExchange.greet reference)).requests = [] ∧
      ((step reference)^[2 * rounds] (forkedExchange.greet reference)).requester.sync.state
        = .complete ∧
      ((step reference)^[2 * rounds] (forkedExchange.greet reference)).requester.chainStore
        = some store ∧
      store.blockchain.blocks =
        (Blockchain.replay reference 2 [minedFirst, minedChild]).blocks := by
  have hfacts : siblingStore.blockchain = Blockchain.replay reference 2 [minedSibling] ∧
      (∀ a ∈ (Blockchain.replay reference 2 [minedSibling]).storedBlocks,
        ∀ b ∈ (Blockchain.replay reference 2 [minedFirst, minedChild]).storedBlocks,
          a.id reference = b.id reference → a = b) ∧
      (Blockchain.replay reference 2 [minedSibling]).tip.height
        < (Blockchain.replay reference 2 [minedFirst, minedChild]).tip.height ∧
      (Blockchain.replay reference 2 [minedFirst, minedChild]).tip = minedChild ∧
      minedChild.height = 2 ∧
      siblingStore.Unfailing reference
        (Blockchain.replay reference 2 [minedFirst, minedChild]).blocks ∧
      createBlock reference ⟨2, minedFirst.id reference, Address.fromPublicKey reference
        minerKey, 2,
        regtest.difficultyTarget, 1439, [], 2⟩ = .ok minedChild := by
    decide +kernel
  obtain ⟨hsibling, hids, hahead, htip, hheight, hstorage, hcreate⟩ := hfacts
  have hobtainable : ∀ b ∈ [minedFirst, minedChild], b.Obtainable reference := by
    refine List.forall_mem_cons.mpr ⟨ChainStore.obtainable_minedFirst,
      List.forall_mem_cons.mpr ⟨?_, fun _ hb => absurd hb List.not_mem_nil⟩⟩
    exact .created (fun t ht => absurd ht List.not_mem_nil) hcreate
  obtain ⟨start, rounds, -, -, -, -, hrequests, -, hstate, -, store, hstore, hblocks⟩ :=
    sync_converges reference reference_signatureLaw 2 [minedSibling] [minedFirst, minedChild]
      hobtainable hids hahead forkedExchange siblingStore childStore rfl hsibling rfl
      (by rw [childStore]) ⟨rfl, rfl⟩ (by decide) ⟨rfl, rfl⟩ childPeer (by decide +kernel)
      ⟨by rw [htip, hheight, childPeer], by rw [htip, childPeer]⟩
      hstorage ⟨rfl, rfl⟩
  exact ⟨rounds, store, hrequests, hstate, hstore, hblocks⟩

end Exchange

end BBC
