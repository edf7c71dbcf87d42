/-
# `BBC.Node.Aloof` — handlers that have nothing to do with submissions

The handlers of blocks and of synchronization leave the submission of a wallet alone and
answer none.  They relay transactions at one place only, inside the section around `append`.
-/
import BBC.Lib.Testimony
import BBC.Node.Flooding
import BBC.Node.SyncRuns

namespace BBC

open Sections (Program)

variable {κ : Crypto}

namespace NodeRuntime

/-- A section that leaves the submission, the peers and the presence of the stores as they
are. -/
structure Unmoved (n n' : NodeRuntime) : Prop where
  transaction : n'.transaction = n.transaction
  chain : n'.chainStore.isSome = n.chainStore.isSome
  pool : n'.mempoolStore.isSome = n.mempoolStore.isSome
  peers : n'.peers = n.peers

/-- What is put out is about no transaction. -/
def Unrelated (os : List Output) : Prop :=
  ∀ o ∈ os, o.message.1 ≠ .transaction ∧ o.message.1 ≠ .transactionSubmit ∧
    o.message.1 ≠ .transactionResult

/-- Such a section that speaks of no submission.  It relays transactions only where the section
around `append` does. -/
structure Aloof (κ : Crypto) (n n' : NodeRuntime) (os : List Output) : Prop
    extends Unmoved n n' where
  quiet : ∀ o ∈ os, o.message.1 ≠ .transactionResult ∧ o.message.1 ≠ .transactionSubmit
  source : n'.chainStore = n.chainStore ∧ n'.mempoolStore = n.mempoolStore ∧ Unrelated os ∨
    ∃ block io, n' = (n.appendSection κ block io).1 ∧ os = (n.appendSection κ block io).2.1

variable {n n' : NodeRuntime} {os : List Output}

theorem Unmoved.refl (n : NodeRuntime) : Unmoved n n := ⟨rfl, rfl, rfl, rfl⟩

theorem unrelated_nil : Unrelated [] := fun _ ho => absurd ho List.not_mem_nil

theorem Aloof.silent (htransaction : n'.transaction = n.transaction)
    (hchain : n'.chainStore = n.chainStore) (hpool : n'.mempoolStore = n.mempoolStore)
    (hpeers : n'.peers = n.peers) : Aloof κ n n' [] where
  transaction := htransaction
  chain := by rw [hchain]
  pool := by rw [hpool]
  peers := hpeers
  quiet _ ho := absurd ho List.not_mem_nil
  source := Or.inl ⟨hchain, hpool, unrelated_nil⟩

theorem Aloof.speaks (n : NodeRuntime) (h : Unrelated os) : Aloof κ n n os :=
  ⟨.refl n, fun o ho => ⟨(h o ho).2.2, (h o ho).2.1⟩, Or.inl ⟨rfl, rfl, h⟩⟩

theorem Aloof.nothing (n : NodeRuntime) : Aloof κ n n [] := .silent rfl rfl rfl rfl

theorem unrelated_send {type : MessageType} (htransaction : type ≠ .transaction)
    (hsubmit : type ≠ .transactionSubmit) (hresult : type ≠ .transactionResult) (n : NodeRuntime)
    (peerId : UInt64) (payload : Bytes) : Unrelated (n.send peerId type payload) := by
  intro o ho
  rw [send] at ho
  split at ho
  · rw [List.mem_singleton.mp ho]
    exact ⟨htransaction, hsubmit, hresult⟩
  · exact absurd ho List.not_mem_nil

theorem type_broadcast {type : MessageType} {n : NodeRuntime} {payload : Bytes}
    {excluded : Option UInt64} {o : Output} (ho : o ∈ n.broadcast type payload excluded) :
    o.message.1 = type := by
  rw [broadcast] at ho
  split at ho
  · rw [List.mem_singleton.mp ho]
    rfl
  · exact absurd ho List.not_mem_nil

theorem aloof_appendSection (n : NodeRuntime) (block : Block) (io : StorageIo) :
    Aloof κ n (n.appendSection κ block io).1 (n.appendSection κ block io).2.1 := by
  have hunmoved : Unmoved n (n.appendSection κ block io).1 := by
    rw [appendSection]
    cases hchain : n.chainStore with
    | none => exact .refl n
    | some store =>
        dsimp only
        split
        · rw [updateMempoolAfterChainChange]
          dsimp only
          cases hpool : n.mempoolStore with
          | none => exact ⟨rfl, by rw [hchain]; rfl, by rw [hpool], rfl⟩
          | some pool => exact ⟨rfl, by rw [hchain]; rfl, by rw [hpool]; rfl, rfl⟩
        · exact ⟨rfl, by rw [hchain]; rfl, rfl, rfl⟩
  refine ⟨hunmoved, fun o ho => ?_, Or.inr ⟨block, io, rfl, rfl⟩⟩
  rw [type_appendSection n block io o ho]
  exact ⟨by decide, by decide⟩

theorem aloof_storeSection (n : NodeRuntime) (block : Block) (io : StorageIo) :
    Aloof κ n (n.storeSection κ block io).1 (n.storeSection κ block io).2.1 := by
  rw [storeSection]
  split
  · exact .nothing n
  · exact aloof_appendSection n block io

theorem unrelated_ite {p : Prop} [Decidable p] (h : Unrelated os) :
    Unrelated (if p then os else []) := by
  split
  · exact h
  · exact unrelated_nil

theorem aloof_answer {p : Prop} [Decidable p] (n : NodeRuntime) (peerId : UInt64) (id : Hash256)
    (accepted : Bool) (reason : UInt16) (payload : Bytes) (excluded : Option UInt64) :
    Aloof κ n n ((if p then n.sendBlockResult peerId id accepted reason else [])
      ++ n.broadcast .block payload excluded) := by
  refine .speaks n fun o ho => ?_
  rcases List.mem_append.mp ho with ho | ho
  · exact unrelated_ite (unrelated_send (by decide) (by decide) (by decide) n _ _) o ho
  · rw [type_broadcast ho]
    exact ⟨by decide, by decide, by decide⟩

theorem all_finishBlock (peerId : UInt64) (block : Block) (submission : Bool)
    (outcome : AppendOutcome) : (finishBlock κ peerId block submission outcome).All (Aloof κ) := by
  rw [finishBlock]
  split
  · exact Program.all_last fun n _ =>
      .speaks n (unrelated_ite (unrelated_send (by decide) (by decide) (by decide) n _ _))
  split
  · exact Program.all_last fun n _ => aloof_answer n ..
  · refine Program.all_step (fun n _ => ?_) fun _ => ?_
    · rw [noteTip]
      dsimp only
      split
      · exact .silent rfl rfl rfl rfl
      · exact .nothing n
    refine Program.all_step (fun n _ => .silent rfl rfl rfl (peers_updateTip n _ _)) fun _ => ?_
    exact Program.all_last fun n _ => aloof_answer n ..

theorem all_handleBlock (peerId : UInt64) (payload : Bytes) (submission : Bool) :
    (handleBlock κ peerId payload submission).All (Aloof κ) := by
  rw [handleBlock]
  split
  · exact Program.all_last fun n _ =>
      .speaks n (unrelated_ite (unrelated_send (by decide) (by decide) (by decide) n _ _))
  · refine Program.all_step (fun n _ => .nothing n) fun hasChainStore => ?_
    split
    · refine Program.all_last fun n _ => ?_
      rw [observeBlock]
      dsimp only
      split
      · exact .nothing n
      · exact .silent rfl rfl rfl rfl
    · exact Program.all_step (fun n io => aloof_appendSection n _ io) fun outcome =>
        all_finishBlock peerId _ submission outcome

theorem all_foundLocally (mined : Block) : (foundLocally κ mined).All (Aloof κ) := by
  refine Program.all_step (fun n _ => .silent rfl rfl rfl rfl) fun _ => ?_
  refine (all_handleBlock 0 mined.serialize false).seq ?_
  refine Program.all_step (fun n _ => .nothing n) fun accepted => ?_
  exact Program.all_last fun n _ => .silent rfl rfl rfl rfl

theorem all_failSync : failSync.All (Aloof κ) :=
  Program.all_last fun _ _ => .silent rfl rfl rfl rfl

theorem all_sendSyncRequest (peerId : UInt64) : (sendSyncRequest κ peerId).All (Aloof κ) := by
  refine Program.all_step (fun n _ => .nothing n) fun running => ?_
  split
  · exact Program.all_done
  refine Program.all_step (fun n _ => ?_) fun request => ?_
  · rw [takeSyncRequest]
    split
    · exact .nothing n
    split
    · exact .nothing n
    · exact .silent rfl rfl rfl rfl
  cases request with
  | none => exact Program.all_done
  | some request =>
      refine Program.all_step (fun n _ => .nothing n) fun locator => ?_
      split
      · exact all_failSync
      refine Program.all_step
        (fun n _ => .speaks n (unrelated_send (by decide) (by decide) (by decide) n _ _))
        fun sent => ?_
      split
      · exact Program.all_done
      · exact all_failSync

theorem all_maybeStartSync (peerId : UInt64) : (maybeStartSync κ peerId).All (Aloof κ) := by
  refine Program.all_step (fun n _ => .nothing n) fun found => ?_
  cases found with
  | none => exact Program.all_done
  | some peer =>
      refine Program.all_step (fun n _ => .nothing n) fun tip => ?_
      cases tip with
      | none => exact Program.all_done
      | some tip =>
          dsimp only
          split
          · exact Program.all_done
          split
          · refine Program.all_last fun n _ => ?_
            split
            · exact .nothing n
            · exact .silent rfl rfl rfl rfl
          · refine Program.all_step (fun n _ => ?_) fun started => ?_
            · split
              · exact .nothing n
              · exact .silent rfl rfl rfl rfl
            split
            · exact all_sendSyncRequest peerId
            · exact Program.all_done

theorem all_handleGetBlocks (peerId : UInt64) (payload : Bytes) :
    (handleGetBlocks κ peerId payload).All (Aloof κ) := by
  refine Program.all_last fun n _ => ?_
  split
  · exact .nothing n
  split
  · exact .nothing n
  · exact .speaks n (unrelated_send (by decide) (by decide) (by decide) n _ _)

theorem all_applyBlocks {next : Task} (hnext : next.All (Aloof κ)) (blocks : List Block) :
    (applyBlocks κ next blocks).All (Aloof κ) := by
  induction blocks with
  | nil => exact hnext
  | cons block rest ih =>
      refine Program.all_step (fun n io => aloof_storeSection n block io) fun outcome => ?_
      split
      · exact all_failSync
      refine Program.all_step (fun n _ => ?_) fun _ => ?_
      · cases outcome with
        | none => exact .nothing n
        | some outcome =>
            rw [noteSynced]
            split
            · exact .silent rfl rfl rfl (peers_updateTip n _ _)
            · exact .nothing n
      exact Program.all_step (fun n _ => .silent rfl rfl rfl rfl) fun _ => ih

theorem all_finishBlocks (peerId : UInt64) (blocks : List Block) :
    (finishBlocks κ peerId blocks).All (Aloof κ) := by
  refine Program.all_step (fun n _ => ?_) fun _ => ?_
  · dsimp only
    split
    · exact .nothing n
    · exact .silent rfl rfl rfl rfl
  refine Program.all_step (fun n _ => .nothing n) fun tip => ?_
  cases tip with
  | none => exact Program.all_done
  | some tip =>
      refine Program.all_step (fun n _ => ?_) fun verdict => ?_
      · rw [judgeSync]
        split
        · split
          · split
            · exact .silent rfl rfl rfl rfl
            · exact .nothing n
          · split <;> exact .nothing n
        · exact .nothing n
      cases verdict with
      | complete => exact Program.all_done
      | invalidTip => exact all_failSync
      | continue_ =>
          dsimp only
          split
          · exact all_failSync
          · exact all_sendSyncRequest peerId

theorem all_handleBlocks (peerId : UInt64) (payload : Bytes) :
    (handleBlocks κ peerId payload).All (Aloof κ) := by
  refine Program.all_step (fun n _ => ?_) fun matched => ?_
  · rw [takeResponse]
    split
    · exact .nothing n
    · exact .silent rfl rfl rfl rfl
  split
  · exact Program.all_done
  split
  · exact all_failSync
  · exact all_applyBlocks (all_finishBlocks peerId _) _

end NodeRuntime

end BBC
