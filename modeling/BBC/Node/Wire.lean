/-
# `BBC.Node.Wire` — what a handler puts on the wire

Most handlers of a full node put out messages that a process without a chain ignores.
The exception is `handle_block`: it relays the block, and answers a submission with a
result.  `Carries t m t'` says how such a message leads from one tip to the next:

    BLOCK           a child of `t`               to the child
    BLOCK           a block no higher than `t`   stays
    BLOCK_RESULT    accepted, of a child of `t`  to the child
    BLOCK_RESULT    refused                      stays
    BLOCK_TEMPLATE  built on `t`                 stays

As long as the tip moves from a block to its child, a session gets a sequence of messages
that leads from the tip at its start to the tip now (`tracks_handleBlock`).
-/
import BBC.Chain.ForkChoice
import BBC.Node.Genuine
import BBC.Node.SyncRuns
import BBC.Node.Template

namespace BBC

open Sections (Program)

/-- What the peer network sends to one of its sessions. -/
def Output.to (peerId : UInt64) : Output → List Message
  | .send target type payload => if target = peerId then [(type, payload)] else []
  | .broadcast type payload excluded => if excluded = some peerId then [] else [(type, payload)]

/-- The message types that a process without a chain ignores. -/
def MessageType.ignored : MessageType → Bool
  | .blockTemplate | .block | .blockSubmit | .blockResult => false
  | _ => true

/-- A message of such a type. -/
def Output.Quiet : Output → Prop
  | .send _ type _ => type.ignored = true
  | .broadcast type _ _ => type.ignored = true

theorem Output.Quiet.to {o : Output} (h : o.Quiet) (peerId : UInt64) :
    ∀ m ∈ o.to peerId, m.1.ignored = true := by
  intro m hm
  cases o with
  | send target type payload =>
      rw [Output.to] at hm
      split at hm
      · rw [List.mem_singleton.mp hm]
        exact h
      · exact absurd hm List.not_mem_nil
  | broadcast type payload excluded =>
      rw [Output.to] at hm
      split at hm
      · exact absurd hm List.not_mem_nil
      · rw [List.mem_singleton.mp hm]
        exact h

namespace NodeRuntime

variable {κ : Crypto} {chainId : UInt32} {n : NodeRuntime}

theorem quiet_send {type : MessageType} (h : type.ignored = true) (n : NodeRuntime)
    (peerId : UInt64) (payload : Bytes) : ∀ o ∈ n.send peerId type payload, o.Quiet := by
  intro o ho
  rw [send] at ho
  split at ho
  · rw [List.mem_singleton.mp ho]
    exact h
  · exact absurd ho List.not_mem_nil

theorem quiet_broadcast {type : MessageType} (h : type.ignored = true) (n : NodeRuntime)
    (payload : Bytes) (excluded : Option UInt64) :
    ∀ o ∈ n.broadcast type payload excluded, o.Quiet := by
  intro o ho
  rw [broadcast] at ho
  split at ho
  · rw [List.mem_singleton.mp ho]
    exact h
  · exact absurd ho List.not_mem_nil

/-! ## The quiet handlers -/

theorem quiet_nil : ∀ o ∈ ([] : List Output), o.Quiet := fun _ ho => absurd ho List.not_mem_nil

theorem quiet_append {os ps : List Output} (hos : ∀ o ∈ os, o.Quiet) (hps : ∀ o ∈ ps, o.Quiet) :
    ∀ o ∈ os ++ ps, o.Quiet :=
  fun o ho => (List.mem_append.mp ho).elim (hos o) (hps o)

theorem quiet_updateMempool (n : NodeRuntime) (appended : AppendResult) (ok : Bool) :
    ∀ o ∈ (n.updateMempoolAfterChainChange κ appended ok).2, o.Quiet := by
  intro o ho
  rw [updateMempoolAfterChainChange] at ho
  split at ho
  · obtain ⟨t, -, ht⟩ := List.mem_flatMap.mp ho
    exact quiet_broadcast rfl n _ _ o ht
  · exact absurd ho List.not_mem_nil

theorem quiet_appendSection (n : NodeRuntime) (block : Block) (io : StorageIo) :
    ∀ o ∈ (n.appendSection κ block io).2.1, o.Quiet := by
  rw [appendSection]
  split
  · exact quiet_nil
  · dsimp only
    split
    · exact quiet_updateMempool _ _ _
    · exact quiet_nil

theorem quiet_storeSection (n : NodeRuntime) (block : Block) (io : StorageIo) :
    ∀ o ∈ (n.storeSection κ block io).2.1, o.Quiet := by
  rw [storeSection]
  split
  · exact quiet_nil
  · exact quiet_appendSection n block io

theorem quiet_sendTransactionResult (n : NodeRuntime) (peerId : UInt64) (id : Hash256)
    (accepted : Bool) (reason : UInt16) :
    ∀ o ∈ n.sendTransactionResult peerId id accepted reason, o.Quiet :=
  quiet_send rfl n peerId _

theorem quiet_ite {p : Prop} [Decidable p] {os : List Output} (hos : ∀ o ∈ os, o.Quiet) :
    ∀ o ∈ if p then os else [], o.Quiet := by
  split
  · exact hos
  · exact quiet_nil

theorem emits_handleTransaction (peerId : UInt64) (payload : Bytes) (submission : Bool) :
    (handleTransaction κ peerId payload submission).Emits Output.Quiet := by
  refine Program.emits_silent (fun _ _ => rfl) fun context => ?_
  split
  · exact Program.emits_done
  split
  · exact Program.emits_last fun n _ => quiet_ite (quiet_sendTransactionResult n _ _ _ _)
  split
  · exact Program.emits_last fun n _ => quiet_ite (quiet_sendTransactionResult n _ _ _ _)
  refine Program.emits_silent (fun n io => ?_) fun added => ?_
  · rw [addSection]
    split <;> rfl
  cases added with
  | none => exact Program.emits_done
  | some added =>
      refine Program.emits_last fun n _ => ?_
      split
      · exact quiet_ite (quiet_sendTransactionResult n _ _ _ _)
      · exact quiet_append (quiet_ite (quiet_sendTransactionResult n _ _ _ _))
          (quiet_broadcast rfl n _ _)

theorem emits_sendSubmission (t : SignedTransaction) (peerId : UInt64) :
    (sendSubmission t peerId).Emits Output.Quiet := by
  refine Program.emits_step (fun n _ => quiet_send rfl n _ _) fun sent => ?_
  split
  · exact Program.emits_done
  · exact Program.emits_last fun _ _ => quiet_nil

theorem emits_submitToFullNode (t : SignedTransaction) (fullNode : Option PeerStatus) :
    (submitToFullNode κ t fullNode).Emits Output.Quiet := by
  cases fullNode with
  | none => exact Program.emits_done
  | some fullNode =>
      refine Program.emits_silent (fun n _ => ?_) fun noted => ?_
      · rw [noteSubmission]
        split <;> rfl
      split
      · exact emits_sendSubmission t _
      · exact Program.emits_done

theorem emits_submitSignedTransaction (t : SignedTransaction) :
    (submitSignedTransaction κ t).Emits Output.Quiet := by
  refine Program.emits_silent (fun _ _ => rfl) fun context => ?_
  split
  · exact Program.emits_done
  refine Program.emits_silent (fun n io => ?_) fun added => ?_
  · rw [addSection]
    split <;> rfl
  cases added with
  | some added =>
      dsimp only
      split
      · exact Program.emits_done
      · exact Program.emits_silent (fun _ _ => rfl) fun _ =>
          Program.emits_last fun n _ => quiet_broadcast rfl n _ _
  | none => exact emits_submitToFullNode t _

theorem emits_failSync : failSync.Emits Output.Quiet := Program.emits_last fun _ _ => quiet_nil

theorem emits_sendSyncRequest (peerId : UInt64) :
    (sendSyncRequest κ peerId).Emits Output.Quiet := by
  refine Program.emits_silent (fun _ _ => rfl) fun running => ?_
  split
  · exact Program.emits_done
  refine Program.emits_silent (fun n _ => ?_) fun request => ?_
  · rw [takeSyncRequest]
    split
    · rfl
    split <;> rfl
  cases request with
  | none => exact Program.emits_done
  | some request =>
      refine Program.emits_silent (fun _ _ => rfl) fun locator => ?_
      split
      · exact emits_failSync
      refine Program.emits_step (fun n _ => quiet_send rfl n _ _) fun sent => ?_
      split
      · exact Program.emits_done
      · exact emits_failSync

theorem emits_maybeStartSync (peerId : UInt64) :
    (maybeStartSync κ peerId).Emits Output.Quiet := by
  refine Program.emits_silent (fun _ _ => rfl) fun found => ?_
  cases found with
  | none => exact Program.emits_done
  | some peer =>
      refine Program.emits_silent (fun _ _ => rfl) fun tip => ?_
      cases tip with
      | none => exact Program.emits_done
      | some tip =>
          dsimp only
          split
          · exact Program.emits_done
          split
          · refine Program.emits_last fun n _ => ?_
            split <;> exact quiet_nil
          · refine Program.emits_silent (fun n _ => ?_) fun started => ?_
            · split <;> rfl
            split
            · exact emits_sendSyncRequest peerId
            · exact Program.emits_done

theorem emits_handleGetBlocks (peerId : UInt64) (payload : Bytes) :
    (handleGetBlocks κ peerId payload).Emits Output.Quiet := by
  refine Program.emits_last fun n _ => ?_
  split
  · exact quiet_nil
  split
  · exact quiet_nil
  · exact quiet_send rfl n _ _

theorem emits_applyBlocks {next : Task} (hnext : next.Emits Output.Quiet) (blocks : List Block) :
    (applyBlocks κ next blocks).Emits Output.Quiet := by
  induction blocks with
  | nil => exact hnext
  | cons block rest ih =>
      refine Program.emits_step (fun n io => quiet_storeSection n block io) fun outcome => ?_
      split
      · exact emits_failSync
      refine Program.emits_silent (fun _ _ => rfl) fun _ => ?_
      exact Program.emits_silent (fun _ _ => rfl) fun _ => ih

theorem emits_finishBlocks (peerId : UInt64) (blocks : List Block) :
    (finishBlocks κ peerId blocks).Emits Output.Quiet := by
  refine Program.emits_silent (fun _ _ => rfl) fun _ => ?_
  refine Program.emits_silent (fun _ _ => rfl) fun tip => ?_
  cases tip with
  | none => exact Program.emits_done
  | some tip =>
      refine Program.emits_silent (fun n _ => ?_) fun verdict => ?_
      · rw [judgeSync]
        split
        · split
          · split <;> rfl
          · split <;> rfl
        · rfl
      cases verdict with
      | complete => exact Program.emits_done
      | invalidTip => exact emits_failSync
      | continue_ =>
          dsimp only
          split
          · exact emits_failSync
          · exact emits_sendSyncRequest peerId

theorem emits_handleBlocks (peerId : UInt64) (payload : Bytes) :
    (handleBlocks κ peerId payload).Emits Output.Quiet := by
  refine Program.emits_silent (fun n _ => ?_) fun matched => ?_
  · rw [takeResponse]
    split <;> rfl
  split
  · exact Program.emits_done
  split
  · exact emits_failSync
  · exact emits_applyBlocks (emits_finishBlocks peerId _) _

/-! ## What a block does to the tip -/

/-- The tip and the result after a block. -/
inductive TipChange (κ : Crypto) (tip block : Block) (result : ChainStoreAppendResult) :
    Block → Prop where
  | refused (value : result.hasValue = false) : TipChange κ tip block result tip
  | side (value : result.hasValue = true) (changed : result.chainResult.activeChainChanged = false)
      (low : block.height ≤ tip.height) : TipChange κ tip block result tip
  | next (value : result.hasValue = true) (changed : result.chainResult.activeChainChanged = true)
      (height : block.height = tip.height + 1) (higher : tip.height < block.height)
      (chain : block.chainId = tip.chainId) (work : validateProofOfWork κ block = .none) :
      TipChange κ tip block result block

theorem tipChange_appendSection {store : ChainStore} (hstore : n.chainStore = some store)
    (hinv : store.blockchain.Inv κ chainId) (block : Block) (io : StorageIo) :
    TipChange κ (n.startTip κ) block (n.appendSection κ block io).2.2.appended
      ((n.appendSection κ block io).1.startTip κ) := by
  obtain ⟨hchain, -, hresult⟩ := chainStore_appendSection (κ := κ) hstore block io
  rw [startTip_of_some hstore, startTip_of_some hchain, hresult]
  rcases store.blockchain_append κ block io.append with ⟨hsame, hnone⟩ | ⟨hnext, hvalue, hv⟩
  · rw [hsame]
    exact .refused hnone
  rw [hnext, hvalue]
  have hhas : ChainStoreAppendResult.hasValue
      { chainResult := (store.blockchain.append κ block).2 } = true := by
    rw [ChainStoreAppendResult.hasValue, hv]
    rfl
  obtain ⟨p, next, ha⟩ := Blockchain.append_error_none_iff.mp (Blockchain.hasValue_iff.mp hv)
  by_cases hhigher : store.blockchain.tip.height < block.height
  · have hheight := hinv.height_of_lt ha hhigher
    have hroom : store.blockchain.tip.height.toNat + (1 : UInt64).toNat < 2 ^ 64 := by
      rw [show (1 : UInt64).toNat = 1 from rfl, ← hheight]
      exact block.height.toNat_lt
    rw [hinv.tip_of_lt ha hhigher]
    refine .next hhas ?_ ?_ hhigher ha.chainId ha.proofOfWork
    · rw [Blockchain.append_of_accepts ha, hinv.choose_of_lt ha hhigher]
      rfl
    · exact UInt64.toNat_inj.mp (hheight.trans (toNat_add_of_lt hroom).symm)
  · have hlow := UInt64.not_lt.mp hhigher
    rw [hinv.tip_of_le ha hlow]
    refine .side hhas ?_ hlow
    rw [Blockchain.append_of_accepts ha, hinv.choose_of_le ha hlow]

end NodeRuntime

/-! ## Messages and tips -/

/-- A child of the tip. -/
structure Block.Extends (κ : Crypto) (tip block : Block) : Prop where
  height : block.height = tip.height + 1
  higher : tip.height < block.height
  parent : block.previousBlockHash = tip.id κ
  chain : block.chainId = tip.chainId
  work : validateProofOfWork κ block = .none

/-- The payload of `BLOCK_RESULT`. -/
def encodeBlockResult (blockId : Hash256) (accepted : Bool) (reason : UInt16) : Bytes :=
  blockId.toList ++ ((if accepted then 1 else 0) :: encodeU16Le reason)

/-- The message leads from a tip to a tip. -/
inductive Carries (κ : Crypto) (reward : Address) : Block → Message → Block → Prop
  | ignored {tip : Block} {m : Message} (h : m.1.ignored = true) : Carries κ reward tip m tip
  | block {tip b : Block} (well : b.WellFormed κ) (child : tip.Extends κ b) :
      Carries κ reward tip (.block, b.serialize) b
  | side {tip b : Block} (well : b.WellFormed κ) (low : b.height ≤ tip.height) :
      Carries κ reward tip (.block, b.serialize) tip
  | accepted {tip b : Block} (child : tip.Extends κ b) :
      Carries κ reward tip (.blockResult, encodeBlockResult (b.id κ) true 0) b
  | refused {tip : Block} (blockId : Hash256) (reason : UInt16) :
      Carries κ reward tip (.blockResult, encodeBlockResult blockId false reason) tip
  | template {tip candidate : Block} {transactions : List SignedTransaction}
      (verified : ∀ t ∈ transactions, t.Verified κ)
      (created : createTemplate κ tip reward transactions = .ok candidate) (requestId : UInt64) :
      Carries κ reward tip (.blockTemplate, encodeU64Le requestId ++ candidate.serialize) tip

/-- The messages lead from a tip to a tip. -/
inductive Tracks (κ : Crypto) (reward : Address) : Block → List Message → Block → Prop
  | nil (tip : Block) : Tracks κ reward tip [] tip
  | cons {tip next last : Block} {m : Message} {ms : List Message}
      (head : Carries κ reward tip m next) (tail : Tracks κ reward next ms last) :
      Tracks κ reward tip (m :: ms) last

namespace Tracks

variable {κ : Crypto} {reward : Address} {tip next last : Block} {ms ms' : List Message}

theorem append (h : Tracks κ reward tip ms next) (h' : Tracks κ reward next ms' last) :
    Tracks κ reward tip (ms ++ ms') last := by
  induction h with
  | nil => exact h'
  | cons head _ ih => exact .cons head (ih h')

theorem single {m : Message} (h : Carries κ reward tip m next) : Tracks κ reward tip [m] next :=
  .cons h (.nil next)

theorem of_ignored (h : ∀ m ∈ ms, m.1.ignored = true) : Tracks κ reward tip ms tip := by
  induction ms with
  | nil => exact .nil tip
  | cons m ms ih =>
      exact .cons (.ignored (h m List.mem_cons_self))
        (ih fun x hx => h x (List.mem_cons_of_mem m hx))

theorem of_quiet {os : List Output} (h : ∀ o ∈ os, o.Quiet) (peerId : UInt64) :
    Tracks κ reward tip (os.flatMap (Output.to peerId)) tip := by
  refine of_ignored fun m hm => ?_
  obtain ⟨o, ho, hmo⟩ := List.mem_flatMap.mp hm
  exact (h o ho).to peerId m hmo

end Tracks

namespace NodeRuntime

variable {κ : Crypto} {chainId : UInt32} {n : NodeRuntime} {reward : Address}

/-! ## The messages of one session -/

theorem to_send_self {peerId : UInt64} (h : n.reaches peerId = true) (type : MessageType)
    (payload : Bytes) :
    (n.send peerId type payload).flatMap (Output.to peerId) = [(type, payload)] := by
  rw [send, if_pos h]
  simp [Output.to]

theorem to_send_other {target peerId : UInt64} (h : target ≠ peerId) (n : NodeRuntime)
    (type : MessageType) (payload : Bytes) :
    (n.send target type payload).flatMap (Output.to peerId) = [] := by
  rw [send]
  split
  · simp [Output.to, h]
  · rfl

theorem to_broadcast {excluded : Option UInt64} {peerId : UInt64}
    (hnetwork : n.network.isSome = true)
    (h : excluded ≠ some peerId) (type : MessageType) (payload : Bytes) :
    (n.broadcast type payload excluded).flatMap (Output.to peerId) = [(type, payload)] := by
  rw [broadcast, if_pos hnetwork]
  simp [Output.to, h]

theorem to_broadcast_excluded (n : NodeRuntime) (peerId : UInt64) (type : MessageType)
    (payload : Bytes) :
    (n.broadcast type payload (some peerId)).flatMap (Output.to peerId) = [] := by
  rw [broadcast]
  split
  · simp [Output.to]
  · rfl

/-- The result of a submission leads on, if the submitter is the session. -/
theorem tracks_result {peerId sender : UInt64} {tip next : Block} {blockId : Hash256}
    {accepted : Bool} {reason : UInt16} (hreach : n.reaches peerId = true) (submission : Bool)
    (hcarries : sender = peerId → submission = true →
      Carries κ reward tip (.blockResult, encodeBlockResult blockId accepted reason) next)
    (hother : sender ≠ peerId ∨ submission = false → next = tip) :
    Tracks κ reward tip
      ((if submission then n.sendBlockResult sender blockId accepted reason else []).flatMap
        (Output.to peerId)) next := by
  cases submission with
  | false =>
      rw [hother (Or.inr rfl)]
      exact .nil tip
  | true =>
      rw [if_pos rfl, sendBlockResult]
      by_cases hsender : sender = peerId
      · subst hsender
        rw [to_send_self hreach]
        exact .single (hcarries rfl rfl)
      · rw [to_send_other hsender, hother (Or.inl hsender)]
        exact .nil tip

variable (κ reward) in
theorem tracks_refusal {peerId : UInt64} (hreach : n.reaches peerId = true) (tip : Block)
    (sender : UInt64) (blockId : Hash256) (reason : UInt16) (submission : Bool) :
    Tracks κ reward tip
      ((if submission then n.sendBlockResult sender blockId false reason else []).flatMap
        (Output.to peerId)) tip :=
  tracks_result hreach submission (fun _ _ => .refused blockId reason) fun _ => rfl

/-- The relay of a block that is no new tip. -/
theorem tracks_side {tip block : Block} (hwell : block.WellFormed κ)
    (hlow : block.height ≤ tip.height) (n : NodeRuntime) (sender peerId : UInt64) :
    Tracks κ reward tip
      ((n.broadcast .block block.serialize (some sender)).flatMap (Output.to peerId)) tip := by
  by_cases hsender : sender = peerId
  · rw [hsender, to_broadcast_excluded]
    exact .nil tip
  · by_cases hnetwork : n.network.isSome = true
    · rw [to_broadcast hnetwork fun h => hsender (Option.some.inj h)]
      exact .single (.side hwell hlow)
    · rw [broadcast, if_neg hnetwork]
      exact .nil tip

variable (reward) in
/-- What a session learns of a new tip: its own submission is answered, and every other
block is relayed to it. -/
theorem tracks_next {peerId sender : UInt64} {tip block : Block} {submission : Bool}
    (hnetwork : n.network.isSome = true) (hreach : n.reaches peerId = true)
    (hown : sender = peerId → submission = true) (hwell : block.WellFormed κ)
    (hchild : tip.Extends κ block) :
    Tracks κ reward tip
      (((if submission then n.sendBlockResult sender (block.id κ) true 0 else []) ++
        n.broadcast .block block.serialize (some sender)).flatMap (Output.to peerId)) block := by
  rw [List.flatMap_append]
  by_cases hsender : sender = peerId
  · subst hsender
    rw [to_broadcast_excluded, hown rfl, if_pos rfl, sendBlockResult, to_send_self hreach]
    exact .single (.accepted hchild)
  · have hresult : ((if submission = true then n.sendBlockResult sender (block.id κ) true 0
        else []).flatMap (Output.to peerId)) = [] := by
      cases submission with
      | false => rfl
      | true => exact to_send_other hsender n _ _
    rw [hresult, to_broadcast hnetwork fun h => hsender (Option.some.inj h)]
    exact .single (.block hwell hchild)

/-! ## `handle_block` -/

/-- `handle_block` of a node with a chain store, for a block that it can decode. -/
theorem run_handleBlock_of_some {store : ChainStore} (hstore : n.chainStore = some store)
    {payload : Bytes} {block : Block} (hdecoded : deserializeBlock κ payload = .ok block)
    (peerId : UInt64) (submission : Bool) (io : Nat → StorageIo) :
    (handleBlock κ peerId payload submission).run io n
      = let appended := n.appendSection κ block (io 1)
        let rest := (finishBlock κ peerId block submission appended.2.2).run (fun k => io (k + 2))
          appended.1
        (rest.1, appended.2.1 ++ rest.2) := by
  rw [handleBlock, hdecoded]
  dsimp only
  rw [Program.run_step]
  dsimp only
  rw [hstore, if_neg (by simp), Program.run_step, List.nil_append]

/-- The rest of `handle_block` leaves the chain alone. -/
theorem chainStore_finishBlock (κ : Crypto) (n : NodeRuntime) (peerId : UInt64) (block : Block)
    (submission : Bool) (outcome : AppendOutcome) (io : Nat → StorageIo) :
    ((finishBlock κ peerId block submission outcome).run io n).1.chainStore = n.chainStore := by
  rw [finishBlock]
  split
  · rfl
  split
  · rfl
  · exact (untouched_noteTip n outcome.activeTipHeight outcome.activeTipId).chain

/-- It informs the session of the tip. -/
theorem tracks_finishBlock {peerId sender : UInt64} {tip next block : Block} {submission : Bool}
    {outcome : AppendOutcome} (hnetwork : n.network.isSome = true)
    (hreach : n.reaches peerId = true) (hown : sender = peerId → submission = true)
    (hwell : block.WellFormed κ) (hchange : TipChange κ tip block outcome.appended next)
    (hparent : next = tip ∨ next.previousBlockHash = tip.id κ) (io : Nat → StorageIo) :
    Tracks κ reward tip
      (((finishBlock κ sender block submission outcome).run io n).2.flatMap (Output.to peerId))
      next := by
  cases hchange with
  | refused value =>
      rw [finishBlock, if_pos (by rw [value]; exact Bool.false_ne_true)]
      have hrefusal := tracks_refusal κ reward hreach tip sender (block.id κ)
        (rejectionReason outcome.appended) submission
      simpa [Program.last, Program.run] using hrefusal
  | side value changed low =>
      rw [finishBlock, if_neg (not_not.mpr value),
        if_pos (by rw [changed]; exact Bool.false_ne_true)]
      have hrefusal := tracks_refusal κ reward hreach tip sender (block.id κ) 1
        submission
      have hboth := hrefusal.append (tracks_side hwell low n sender peerId)
      simpa [Program.last, Program.run, List.flatMap_append] using hboth
  | next value changed height higher chain work =>
      rw [finishBlock, if_neg (not_not.mpr value), if_neg (not_not.mpr changed)]
      have hparent : next.previousBlockHash = tip.id κ := by
        refine hparent.resolve_left ?_
        rintro rfl
        exact absurd higher (UInt64.lt_irrefl _)
      have hnoted := untouched_noteTip n outcome.activeTipHeight outcome.activeTipId
      have hupdated := untouched_updateTip (n.noteTip outcome.activeTipHeight outcome.activeTipId)
        outcome.activeTipHeight outcome.activeTipId
      have htracks := tracks_next reward
        (hupdated.network.trans (hnoted.network.trans hnetwork))
        ((reaches_congr (hupdated.peers.trans hnoted.peers) peerId).trans hreach) hown hwell
        ⟨height, higher, hparent, chain, work⟩
      simpa [Program.last, Program.run] using htracks

/-- `handle_block` informs a session of the new tip, as long as the tip moves to a child. -/
theorem tracks_handleBlock (h : n.Genuine κ chainId) {peerId sender : UInt64} {payload : Bytes}
    {submission : Bool} (hnetwork : n.network.isSome = true) (hreach : n.reaches peerId = true)
    (hown : sender = peerId → submission = true) (io : Nat → StorageIo)
    (hparent : let next := ((handleBlock κ sender payload submission).run io n).1.startTip κ
      next = n.startTip κ ∨ next.previousBlockHash = (n.startTip κ).id κ) :
    Tracks κ reward (n.startTip κ)
      (((handleBlock κ sender payload submission).run io n).2.flatMap (Output.to peerId))
      (((handleBlock κ sender payload submission).run io n).1.startTip κ) := by
  obtain ⟨store, pool, hstore, -, ⟨bs, hwell, hbs⟩, -⟩ := h
  have hinv : store.blockchain.Inv κ chainId := by
    rw [hbs]
    exact Blockchain.inv_replay κ chainId bs
  cases hdecoded : deserializeBlock κ payload with
  | error e =>
      have hrefusal := tracks_refusal κ reward hreach (n.startTip κ) sender .zero 2
        submission
      rw [handleBlock, hdecoded]
      simpa [Program.last, Program.run] using hrefusal
  | ok block =>
      rw [run_handleBlock_of_some hstore hdecoded] at hparent ⊢
      dsimp only at hparent ⊢
      obtain ⟨hchain, hsame, -⟩ := chainStore_appendSection (κ := κ) hstore block (io 1)
      have hchange := tipChange_appendSection hstore hinv block (io 1)
      have hpeers : (n.appendSection κ block (io 1)).1.peers = n.peers := by
        rw [peers, peers, hsame]
      have hlast : ((finishBlock κ sender block submission
          (n.appendSection κ block (io 1)).2.2).run (fun k => io (k + 2))
            (n.appendSection κ block (io 1)).1).1.startTip κ
          = (n.appendSection κ block (io 1)).1.startTip κ := by
        rw [startTip_of_some hchain]
        exact startTip_of_some ((chainStore_finishBlock κ _ _ _ _ _ _).trans hchain)
      rw [hlast] at hparent ⊢
      rw [List.flatMap_append]
      refine (Tracks.of_quiet (quiet_appendSection n block (io 1)) peerId).append ?_
      exact tracks_finishBlock (by rw [hsame]; exact hnetwork)
        ((reaches_congr hpeers peerId).trans hreach) hown
        (Block.wellFormed_of_deserializeBlock hdecoded) hchange hparent _

/-! ## Every handler -/

/-- The end of the mining thread, after `handle_block`. -/
def judgeFound (κ : Crypto) (mined : Block) : Task :=
  .step (fun n _ => (n, [], n.chainStore.any fun store => store.blockchain.tip.id κ = mined.id κ))
    fun accepted =>
  .last fun n _ =>
    ({ n with
        mining :=
          { n.mining with
            state := if accepted then .accepted else .rejected, worker := none } }, [])

theorem run_judgeFound (κ : Crypto) (n : NodeRuntime) (mined : Block) (io : Nat → StorageIo) :
    ((judgeFound κ mined).run io n).2 = [] ∧
      ((judgeFound κ mined).run io n).1.startTip κ = n.startTip κ :=
  ⟨rfl, rfl⟩

/-- The mining thread has found a block for its own node. -/
def noteFoundLocally (κ : Crypto) (n : NodeRuntime) (mined : Block) : NodeRuntime :=
  { n with
    mining :=
      { n.mining with foundBlockId := some (mined.id κ), active := false, state := .submitted } }

/-- `handle_block` in the middle of the mining thread. -/
theorem run_foundLocally (κ : Crypto) (n : NodeRuntime) (mined : Block) (io : Nat → StorageIo) :
    let handled := (handleBlock κ 0 mined.serialize false).run (fun k => io (k + 1))
      (n.noteFoundLocally κ mined)
    ((foundLocally κ mined).run io n).2 = handled.2 ∧
      ((foundLocally κ mined).run io n).1.startTip κ = handled.1.startTip κ := by
  obtain ⟨k, hrun⟩ := Program.run_seq (judgeFound κ mined)
    (p := handleBlock κ 0 mined.serialize false) (fun k => io (k + 1)) (n.noteFoundLocally κ mined)
  have hfound : (foundLocally κ mined).run io n
      = (((handleBlock κ 0 mined.serialize false).seq (judgeFound κ mined)).run
          (fun k => io (k + 1)) (n.noteFoundLocally κ mined)) := rfl
  intro handled
  obtain ⟨houtputs, htip⟩ := run_judgeFound κ handled.1 mined fun i => io (k + i + 1)
  have hall : (foundLocally κ mined).run io n
      = (((judgeFound κ mined).run (fun i => io (k + i + 1)) handled.1).1,
          handled.2 ++ ((judgeFound κ mined).run (fun i => io (k + i + 1)) handled.1).2) :=
    hfound.trans hrun
  rw [hall, houtputs, htip, List.append_nil]
  exact ⟨rfl, rfl⟩

/-- The mining thread of a full node is no session. -/
theorem tracks_foundLocally (h : n.Genuine κ chainId) {peerId : UInt64}
    (hnetwork : n.network.isSome = true) (hreach : n.reaches peerId = true) (hnumbered : peerId ≠ 0)
    (mined : Block) (io : Nat → StorageIo)
    (hparent : let next := ((foundLocally κ mined).run io n).1.startTip κ
      next = n.startTip κ ∨ next.previousBlockHash = (n.startTip κ).id κ) :
    Tracks κ reward (n.startTip κ) (((foundLocally κ mined).run io n).2.flatMap (Output.to peerId))
      (((foundLocally κ mined).run io n).1.startTip κ) := by
  obtain ⟨houtputs, htip⟩ := run_foundLocally κ n mined io
  have hsame : (n.noteFoundLocally κ mined).startTip κ = n.startTip κ := rfl
  rw [houtputs, htip, ← hsame]
  rw [htip, ← hsame] at hparent
  have hnoted : (n.noteFoundLocally κ mined).Genuine κ chainId := h.congr rfl rfl
  exact tracks_handleBlock hnoted hnetwork hreach (fun hzero => absurd hzero.symm hnumbered)
    _ hparent

end NodeRuntime

end BBC
