/-
# `BBC.Node.Flooding` — a relayed message is relayed once

Relay keeps no list of what it has seen.  A node relays a block after it has stored it,
and a transaction after its pool has taken it, and what is there already is refused.  So
the right to relay is earned when the chain or the pool takes the item: a token in the
sense of `Sections.Program.Spends`, with "the item is there" as the flag.

    block          the chain never drops a stored block      over the whole run
    transaction    the pool drops nothing while the          as long as the active chain
                   active chain stays as it is               does not change

`Earned` says what the two sections that change a store do to flag and outputs, for
blocks and for transactions alike; all handlers follow from it.  A network of nodes then
sends an item over each link at most once in each direction.
-/
import BBC.Chain.Reorganization
import BBC.Lib.Tokens
import BBC.Node.InStep
import Mathlib.Algebra.BigOperators.Group.Finset.Basic
import Mathlib.Algebra.Order.BigOperators.Group.Finset

namespace BBC

open Sections (Program Move System)

/-- The message of an output. -/
def Output.message : Output → Message
  | .send _ type payload => (type, payload)
  | .broadcast type payload _ => (type, payload)

/-- A message to one peer that relays nothing. -/
def Output.Reply (o : Output) : Prop :=
  o.message.1 ≠ .block ∧ o.message.1 ≠ .transaction

namespace NodeRuntime

variable {κ : Crypto}

/-! ## A full node -/

/-- The stores of a full node, its chain grown from Genesis. -/
def Grown (κ : Crypto) (n : NodeRuntime) : Prop :=
  ∃ chain pool chainId bs, n.chainStore = some chain ∧ n.mempoolStore = some pool ∧
    chain.blockchain = Blockchain.replay κ chainId bs

theorem Grown.appendSection {n : NodeRuntime} (h : n.Grown κ) (block : Block)
    (io : StorageIo) : (n.appendSection κ block io).1.Grown κ := by
  obtain ⟨chain, pool, chainId, bs, hc, hp, hbs⟩ := h
  have hgrown : ∃ ds, (chain.append κ block io.append).1.blockchain
      = Blockchain.replay κ chainId ds := by
    rcases chain.blockchain_append κ block io.append with ⟨hsame, -⟩ | ⟨hnext, -, -⟩
    · exact ⟨bs, hsame.trans hbs⟩
    · exact ⟨bs ++ [block], by rw [hnext, Blockchain.replay_concat, hbs]⟩
  obtain ⟨ds, hds⟩ := hgrown
  rw [NodeRuntime.appendSection, hc]
  dsimp only
  split
  · rw [updateMempoolAfterChainChange]
    simp only [hp]
    exact ⟨_, _, chainId, ds, rfl, rfl, hds⟩
  · exact ⟨_, pool, chainId, ds, rfl, hp, hds⟩

theorem Grown.addSection {n : NodeRuntime} (h : n.Grown κ) (t : SignedTransaction)
    (io : StorageIo) : (n.addSection κ t io).1.Grown κ := by
  obtain ⟨chain, pool, chainId, bs, hc, hp, hbs⟩ := h
  rw [NodeRuntime.addSection, hc, hp]
  exact ⟨chain, _, chainId, bs, rfl, rfl, hbs⟩

theorem stable_grown : Stable κ (fun _ => True) (fun _ => True) (Grown κ) where
  congr h hn := by
    obtain ⟨chain, pool, chainId, bs, hc, hp, hbs⟩ := hn
    exact ⟨chain, pool, chainId, bs, h.chain.trans hc, h.pool.trans hp, hbs⟩
  append _ _ hn := hn.appendSection _ _
  verified _ := trivial
  add _ _ hn := hn.addSection _ _

theorem keeps_grown (call : Call) : (call.task κ).Keeps (fun _ => True) (Grown κ) :=
  stable_grown.keeps_call call (fun _ _ => trivial) fun _ _ _ hn => hn

/-- A full node that has started. -/
theorem grown_startNetwork {config : RuntimeConfig} {directory : DataDirectory} {io : StartIo}
    {n : NodeRuntime} (hrole : config.hasRole .fullNode = true)
    (h : initializeNode κ config directory io = some n) : (n.startNetwork κ).Grown κ := by
  obtain ⟨chain, pool, bs, hc, hp, -, hbs, -⟩ := stores_initializeNode hrole h
  have hstores : (n.startNetwork κ).chainStore = n.chainStore ∧
      (n.startNetwork κ).mempoolStore = n.mempoolStore := by
    rw [startNetwork]
    split <;> exact ⟨rfl, rfl⟩
  exact ⟨chain, pool, config.chainId, bs, hstores.1.trans hc, hstores.2.trans hp, hbs⟩

/-! ## What the two sections earn -/

/-- The number of outputs that carry the item. -/
def relays (item : Message → Bool) (os : List Output) : Nat :=
  os.countP fun o => item o.message

/-- An item that is relayed when the chain or the pool has taken it. -/
structure Earned (κ : Crypto) (I : NodeRuntime → Prop) (ok : NodeRuntime → NodeRuntime → Prop)
    (flag : NodeRuntime → Bool) (item : Message → Bool) : Prop where
  relayed : ∀ {m : Message}, item m = true → m.1 = .block ∨ m.1 = .transaction
  congr : ∀ {n m : NodeRuntime}, m.chainStore = n.chainStore → m.mempoolStore = n.mempoolStore →
    flag m = flag n
  append : ∀ {n : NodeRuntime} {block : Block} {io : StorageIo}, block.WellFormed κ → I n →
    ok n (n.appendSection κ block io).1 →
      relays item (n.appendSection κ block io).2.1
        + ((n.appendSection κ block io).2.2.appended.hasValue
            && item (.block, block.serialize)).toNat
        + (flag n).toNat ≤ (flag (n.appendSection κ block io).1).toNat
  add : ∀ {n : NodeRuntime} {t : SignedTransaction} {io : StorageIo}, I n →
    ok n (n.addSection κ t io).1 →
      ((n.addSection κ t io).2.2.any (MempoolStoreAddResult.hasValue)
          && item (.transaction, t.serialize)).toNat
        + (flag n).toNat ≤ (flag (n.addSection κ t io).1).toNat

namespace Earned

variable {I : NodeRuntime → Prop} {ok : NodeRuntime → NodeRuntime → Prop}
  {flag : NodeRuntime → Bool} {item : Message → Bool}

/-- The rest of a handler gets along with `held` tokens. -/
abbrev Affords (I : NodeRuntime → Prop) (ok : NodeRuntime → NodeRuntime → Prop)
    (flag : NodeRuntime → Bool) (item : Message → Bool) (p : Task) (held : Nat) : Prop :=
  p.Spends I ok flag (fun o => item o.message) held

variable (h : Earned κ I ok flag item)

include h

theorem relays_replies {os : List Output} (hos : ∀ o ∈ os, o.Reply) : relays item os = 0 := by
  refine List.countP_eq_zero.mpr fun o ho hitem => ?_
  rcases h.relayed hitem with htype | htype
  · exact (hos o ho).1 htype
  · exact (hos o ho).2 htype

omit h in
theorem relays_broadcast (n : NodeRuntime) (type : MessageType) (payload : Bytes)
    (excluded : Option UInt64) :
    relays item (n.broadcast type payload excluded) ≤ (item (type, payload)).toNat := by
  rw [broadcast, relays]
  split
  · rw [List.countP_singleton]
    show (if item (type, payload) then 1 else 0) ≤ _
    cases item (type, payload) <;> exact Nat.le_refl _
  · exact Nat.zero_le _

/-- A section that leaves the stores alone and relays nothing. -/
theorem step {α : Type} {act : NodeRuntime → StorageIo → NodeRuntime × List Output × α}
    {next : α → Task} {held : Nat} (hact : ∀ n io, Untouched n (act n io).1)
    (hout : ∀ n io, ∀ o ∈ (act n io).2.1, o.Reply)
    (hnext : ∀ a, Affords I ok flag item (next a) held) :
    Affords I ok flag item (.step act next) held := by
  refine Program.spends_step (fun n io _ _ => ⟨h.relays_replies (hout n io), ?_⟩) hnext
  rw [h.congr (hact n io).chain (hact n io).pool]

theorem silent {α : Type} {act : NodeRuntime → StorageIo → NodeRuntime × List Output × α}
    {next : α → Task} {held : Nat} (hact : ∀ n io, Untouched n (act n io).1)
    (hout : ∀ n io, (act n io).2.1 = []) (hnext : ∀ a, Affords I ok flag item (next a) held) :
    Affords I ok flag item (.step act next) held := by
  refine h.step hact (fun n io o ho => ?_) hnext
  rw [hout n io] at ho
  exact absurd ho List.not_mem_nil

theorem last {act : NodeRuntime → StorageIo → NodeRuntime × List Output} {held : Nat}
    (hact : ∀ n io, Untouched n (act n io).1) (hout : ∀ n io, ∀ o ∈ (act n io).2, o.Reply) :
    Affords I ok flag item (.last act) held :=
  h.step hact hout fun _ => Program.spends_done held

/-! ## Every handler -/

omit h in
theorem reply_nil : ∀ o ∈ ([] : List Output), o.Reply := fun _ ho => absurd ho List.not_mem_nil

omit h in
theorem reply_send {type : MessageType} (hblock : type ≠ .block) (htx : type ≠ .transaction)
    (n : NodeRuntime) (peerId : UInt64) (payload : Bytes) :
    ∀ o ∈ n.send peerId type payload, o.Reply := by
  intro o ho
  rw [send] at ho
  split at ho
  · rw [List.mem_singleton.mp ho]
    exact ⟨hblock, htx⟩
  · exact absurd ho List.not_mem_nil

omit h in
theorem reply_ite {p : Prop} [Decidable p] {os : List Output} (hos : ∀ o ∈ os, o.Reply) :
    ∀ o ∈ if p then os else [], o.Reply := by
  split
  · exact hos
  · exact reply_nil

omit h in
theorem reply_blockResult (n : NodeRuntime) (peerId : UInt64) (id : Hash256) (accepted : Bool)
    (reason : UInt16) : ∀ o ∈ n.sendBlockResult peerId id accepted reason, o.Reply :=
  reply_send (by decide) (by decide) n peerId _

omit h in
theorem reply_transactionResult (n : NodeRuntime) (peerId : UInt64) (id : Hash256)
    (accepted : Bool) (reason : UInt16) :
    ∀ o ∈ n.sendTransactionResult peerId id accepted reason, o.Reply :=
  reply_send (by decide) (by decide) n peerId _

/-- An answer followed by the relay costs one token if the relay carries the item. -/
theorem relay {n : NodeRuntime} {os : List Output} (hos : ∀ o ∈ os, o.Reply) (type : MessageType)
    (payload : Bytes) (excluded : Option UInt64) :
    relays item (os ++ n.broadcast type payload excluded) ≤ (item (type, payload)).toNat := by
  have hbroadcast : relays item (n.broadcast type payload excluded) ≤
      (item (type, payload)).toNat :=
    relays_broadcast n type payload excluded
  have hzero := h.relays_replies hos
  rw [relays, List.countP_append] at *
  omega

theorem affords_finishBlock (peerId : UInt64) (block : Block) (submission : Bool)
    (outcome : AppendOutcome) :
    Affords I ok flag item (finishBlock κ peerId block submission outcome)
      (outcome.appended.hasValue && item (.block, block.serialize)).toNat := by
  unfold finishBlock
  by_cases hvalue : outcome.appended.hasValue = true
  · rw [if_neg (not_not.mpr hvalue), hvalue, Bool.true_and]
    split
    · refine Program.spends_last fun n _ _ _ => Nat.add_le_add_right ?_ _
      exact h.relay (reply_ite (reply_blockResult n _ _ _ _)) _ _ _
    · refine h.silent (fun n _ => untouched_noteTip n _ _) (fun _ _ => rfl) fun _ => ?_
      refine h.silent (fun n _ => untouched_updateTip n _ _) (fun _ _ => rfl) fun _ => ?_
      refine Program.spends_last fun n _ _ _ => Nat.add_le_add_right ?_ _
      exact h.relay (reply_ite (reply_blockResult n _ _ _ _)) _ _ _
  · rw [if_pos hvalue]
    exact h.last (fun n _ => .refl n) fun n _ => reply_ite (reply_blockResult n _ _ _ _)

theorem affords_handleBlock (peerId : UInt64) (payload : Bytes) (submission : Bool) :
    Affords I ok flag item (handleBlock κ peerId payload submission) 0 := by
  unfold handleBlock
  split
  · exact h.last (fun n _ => .refl n) fun n _ => reply_ite (reply_blockResult n _ _ _ _)
  · rename_i block hdecoded
    have hblock := Block.wellFormed_of_deserializeBlock hdecoded
    refine h.silent (fun n _ => .refl n) (fun _ _ => rfl) fun full => ?_
    split
    · exact h.last (fun n _ => untouched_observeBlock κ n block) fun _ _ => reply_nil
    · intro n io hn hok
      have hearned := h.append hblock hn hok
      exact ⟨_, by rw [Nat.zero_add]; exact hearned,
        h.affords_finishBlock peerId block submission _⟩

theorem affords_foundLocally (mined : Block) :
    Affords I ok flag item (foundLocally κ mined) 0 := by
  refine h.silent (fun _ _ => ⟨rfl, rfl, rfl, rfl, rfl⟩) (fun _ _ => rfl) fun _ => ?_
  refine Program.Spends.seq ?_ (h.affords_handleBlock 0 mined.serialize false)
  refine h.silent (fun n _ => .refl n) (fun _ _ => rfl) fun accepted => ?_
  exact h.last (fun _ _ => ⟨rfl, rfl, rfl, rfl, rfl⟩) fun _ _ => reply_nil

/-- The section that adds a transaction earns the right to relay it. -/
theorem affords_add (t : SignedTransaction) {next : Option MempoolStoreAddResult → Task}
    (hnext : ∀ added, Affords I ok flag item (next added)
      (added.any MempoolStoreAddResult.hasValue && item (.transaction, t.serialize)).toNat) :
    Affords I ok flag item (.step (fun n io => n.addSection κ t io) next) 0 := by
  intro n io hn hok
  have hearned := h.add hn hok
  refine ⟨_, ?_, hnext _⟩
  have hsilent : (n.addSection κ t io).2.1 = [] := by
    rw [addSection]
    split <;> rfl
  dsimp only at hearned ⊢
  rw [hsilent, List.countP_nil, Nat.zero_add, Nat.zero_add]
  exact hearned

/-- After its section the handler has the token that was earned there. -/
theorem affords_finishTransaction (peerId : UInt64) (payload : Bytes) (submission : Bool)
    (id : Hash256) (added : MempoolStoreAddResult) :
    Affords I ok flag item (finishTransaction peerId payload submission id added)
      (added.hasValue && item (.transaction, payload)).toNat := by
  refine Program.spends_last fun n _ _ _ => ?_
  by_cases hvalue : added.hasValue = true
  · rw [if_neg (not_not.mpr hvalue), hvalue, Bool.true_and]
    refine Nat.add_le_add_right ?_ _
    exact h.relay (reply_ite (reply_transactionResult n _ _ _ _)) _ _ _
  · rw [if_pos hvalue]
    have hzero := h.relays_replies
      (reply_ite (p := submission = true) (reply_transactionResult n peerId id false
        (if added.storageError = .none ∧ added.mempoolError = .duplicateTransaction then 3
          else 4)))
    rw [relays] at hzero
    dsimp only
    omega

theorem affords_admitTransaction {peerId : UInt64} {payload : Bytes} {submission : Bool}
    {value : SignedTransaction} (hpayload : payload = value.serialize) :
    Affords I ok flag item (admitTransaction κ peerId payload submission value) 0 := by
  refine h.affords_add value fun added => ?_
  cases added with
  | none => exact Program.spends_done _
  | some added =>
      rw [Option.any_some, ← hpayload]
      exact h.affords_finishTransaction peerId payload submission (value.id κ) added

theorem affords_refusal (peerId : UInt64) (submission : Bool) (id : Hash256) (reason : UInt16) :
    Affords I ok flag item (.last fun n _ =>
      (n, if submission then n.sendTransactionResult peerId id false reason else [])) 0 :=
  h.last (fun n _ => .refl n) fun n _ => reply_ite (reply_transactionResult n _ _ _ _)

theorem affords_handleTransaction (peerId : UInt64) (payload : Bytes) (submission : Bool) :
    Affords I ok flag item (handleTransaction κ peerId payload submission) 0 := by
  refine h.silent (fun n _ => .refl n) (fun _ _ => rfl) fun context => ?_
  split
  · exact Program.spends_done 0
  split
  · exact h.affords_refusal peerId submission _ _
  rename_i value hdecoded
  split
  · exact h.affords_refusal peerId submission _ _
  · exact h.affords_admitTransaction (SignedTransaction.serialize_of_deserialize κ hdecoded).1.symm

omit h in
theorem affords_broadcastSubmission (t : SignedTransaction) :
    Affords I ok flag item (broadcastSubmission t) (item (.transaction, t.serialize)).toNat := by
  refine Program.spends_last fun n _ _ _ => ?_
  have hbroadcast : relays item (n.broadcast .transaction t.serialize none)
      ≤ (item (.transaction, t.serialize)).toNat := relays_broadcast n _ _ none
  rw [relays] at hbroadcast
  exact Nat.add_le_add_right hbroadcast _

theorem affords_announceSubmission (t : SignedTransaction) :
    Affords I ok flag item (announceSubmission κ t) (item (.transaction, t.serialize)).toNat :=
  h.silent (fun _ _ => ⟨rfl, rfl, rfl, rfl, rfl⟩) (fun _ _ => rfl) fun _ =>
    affords_broadcastSubmission t

theorem affords_sendSubmission (t : SignedTransaction) (peerId : UInt64) (held : Nat) :
    Affords I ok flag item (sendSubmission t peerId) held := by
  refine h.step (fun n _ => .refl n) (fun n _ => reply_send (by decide) (by decide) n _ _)
    fun sent => ?_
  split
  · exact Program.spends_done held
  · exact h.last (fun _ _ => ⟨rfl, rfl, rfl, rfl, rfl⟩) fun _ _ => reply_nil

theorem affords_submitToFullNode (t : SignedTransaction) (fullNode : Option PeerStatus)
    (held : Nat) : Affords I ok flag item (submitToFullNode κ t fullNode) held := by
  cases fullNode with
  | none => exact Program.spends_done held
  | some fullNode =>
      refine h.silent (fun n _ => ?_) (fun n _ => ?_) fun noted => ?_
      · rw [noteSubmission]
        split
        · exact .refl n
        · exact ⟨rfl, rfl, rfl, rfl, rfl⟩
      · rw [noteSubmission]
        split <;> rfl
      split
      · exact h.affords_sendSubmission t _ _
      · exact Program.spends_done _

theorem affords_admitSubmission (t : SignedTransaction) (fullNode : Option PeerStatus) :
    Affords I ok flag item (admitSubmission κ t fullNode) 0 := by
  refine h.affords_add t fun added => ?_
  cases added with
  | some added =>
      rw [Option.any_some]
      dsimp only
      by_cases hvalue : added.hasValue = true
      · rw [if_neg (not_not.mpr hvalue), hvalue, Bool.true_and]
        exact h.affords_announceSubmission t
      · rw [if_pos hvalue]
        exact Program.spends_done _
  | none => exact h.affords_submitToFullNode t _ _

theorem affords_submitSignedTransaction (t : SignedTransaction) :
    Affords I ok flag item (submitSignedTransaction κ t) 0 := by
  refine h.silent (fun n _ => .refl n) (fun _ _ => rfl) fun context => ?_
  split
  · exact Program.spends_done 0
  · exact h.affords_admitSubmission t _

theorem affords_failSync : Affords I ok flag item failSync 0 :=
  h.last (fun _ _ => ⟨rfl, rfl, rfl, rfl, rfl⟩) fun _ _ => reply_nil

theorem affords_sendSyncRequest (peerId : UInt64) :
    Affords I ok flag item (sendSyncRequest κ peerId) 0 := by
  refine h.silent (fun n _ => .refl n) (fun _ _ => rfl) fun running => ?_
  split
  · exact Program.spends_done 0
  refine h.silent (fun n _ => untouched_takeSyncRequest n peerId) (fun n _ => ?_) fun request => ?_
  · rw [takeSyncRequest]
    split
    · rfl
    split <;> rfl
  cases request with
  | none => exact Program.spends_done 0
  | some request =>
      refine h.silent (fun n _ => .refl n) (fun _ _ => rfl) fun locator => ?_
      split
      · exact h.affords_failSync
      refine h.step (fun n _ => .refl n) (fun n _ => reply_send (by decide) (by decide) n _ _)
        fun sent => ?_
      split
      · exact Program.spends_done 0
      · exact h.affords_failSync

theorem affords_maybeStartSync (peerId : UInt64) :
    Affords I ok flag item (maybeStartSync κ peerId) 0 := by
  refine h.silent (fun n _ => .refl n) (fun _ _ => rfl) fun found => ?_
  cases found with
  | none => exact Program.spends_done 0
  | some peer =>
      refine h.silent (fun n _ => .refl n) (fun _ _ => rfl) fun tip => ?_
      cases tip with
      | none => exact Program.spends_done 0
      | some tip =>
          dsimp only
          split
          · exact Program.spends_done 0
          split
          · refine h.last (fun n _ => ?_) fun n _ => ?_
            · split
              · exact .refl n
              · exact ⟨rfl, rfl, rfl, rfl, rfl⟩
            · split <;> exact reply_nil
          · refine h.silent (fun n _ => ?_) (fun n _ => ?_) fun started => ?_
            · split
              · exact .refl n
              · exact ⟨rfl, rfl, rfl, rfl, rfl⟩
            · split <;> rfl
            split
            · exact h.affords_sendSyncRequest peerId
            · exact Program.spends_done 0

theorem affords_handleGetBlocks (peerId : UInt64) (payload : Bytes) :
    Affords I ok flag item (handleGetBlocks κ peerId payload) 0 := by
  refine h.last (fun n _ => ?_) fun n _ => ?_
  · split
    · exact .refl n
    split <;> exact .refl n
  · split
    · exact reply_nil
    split
    · exact reply_nil
    · exact reply_send (by decide) (by decide) n _ _

/-- A batch relays no block, so the right that an appended block earns is not used. -/
theorem affords_applyBlocks {next : Task} (hnext : Affords I ok flag item next 0)
    {blocks : List Block} (hblocks : ∀ block ∈ blocks, block.WellFormed κ) :
    Affords I ok flag item (applyBlocks κ next blocks) 0 := by
  induction blocks with
  | nil => exact hnext
  | cons block rest ih =>
      obtain ⟨hblock, hrest⟩ := List.forall_mem_cons.mp hblocks
      have hafter : ∀ outcome : Option AppendOutcome, Affords I ok flag item
          (if outcome.any fun outcome => ¬ outcome.appended.hasValue then failSync
          else
            .step (fun n _ => (n.noteSynced outcome, [], ())) fun _ =>
            .step (fun n _ =>
              ({ n with sync := { n.sync with receivedBlocks := n.sync.receivedBlocks + 1 } },
                [], ())) fun _ =>
            applyBlocks κ next rest) 0 := by
        intro outcome
        split
        · exact h.affords_failSync
        refine h.silent (fun n _ => untouched_noteSynced n outcome) (fun _ _ => rfl) fun _ => ?_
        exact h.silent (fun _ _ => ⟨rfl, rfl, rfl, rfl, rfl⟩) (fun _ _ => rfl) fun _ => ih hrest
      intro n io hn hok
      refine ⟨0, ?_, hafter _⟩
      dsimp only at hok ⊢
      rw [storeSection] at hok ⊢
      split
      · simp
      · rename_i hnew
        rw [if_neg hnew] at hok
        have hearned := h.append hblock hn hok
        rw [relays] at hearned
        dsimp only
        omega

theorem affords_finishBlocks (peerId : UInt64) (blocks : List Block) :
    Affords I ok flag item (finishBlocks κ peerId blocks) 0 := by
  refine h.silent (fun n _ => ?_) (fun _ _ => rfl) fun _ => ?_
  · dsimp only
    split <;> exact ⟨rfl, rfl, rfl, rfl, rfl⟩
  refine h.silent (fun n _ => .refl n) (fun _ _ => rfl) fun tip => ?_
  cases tip with
  | none => exact Program.spends_done 0
  | some tip =>
      refine h.silent (fun n _ => untouched_judgeSync n _ _) (fun n _ => ?_) fun verdict => ?_
      · rw [judgeSync]
        split
        · split
          · split <;> rfl
          · split <;> rfl
        · rfl
      cases verdict with
      | complete => exact Program.spends_done 0
      | invalidTip => exact h.affords_failSync
      | continue_ =>
          dsimp only
          split
          · exact h.affords_failSync
          · exact h.affords_sendSyncRequest peerId

theorem affords_handleBlocks (peerId : UInt64) (payload : Bytes) :
    Affords I ok flag item (handleBlocks κ peerId payload) 0 := by
  refine h.silent (fun n _ => ?_) (fun n _ => ?_) fun matched => ?_
  · unfold takeResponse
    split <;> exact ⟨rfl, rfl, rfl, rfl, rfl⟩
  · rw [takeResponse]
    split <;> rfl
  split
  · exact Program.spends_done 0
  split
  · exact h.affords_failSync
  · rename_i hread
    exact h.affords_applyBlocks (h.affords_finishBlocks peerId _) (wellFormed_of_readBlocks hread)

/-- Every handler earns what it relays. -/
theorem affords_call (call : Call) : Affords I ok flag item (call.task κ) 0 := by
  cases call with
  | block peerId payload => exact h.affords_handleBlock peerId payload false
  | blockSubmit peerId payload => exact h.affords_handleBlock peerId payload true
  | blocks peerId payload => exact h.affords_handleBlocks peerId payload
  | getBlocks peerId payload => exact h.affords_handleGetBlocks peerId payload
  | transaction peerId payload => exact h.affords_handleTransaction peerId payload false
  | transactionSubmit peerId payload => exact h.affords_handleTransaction peerId payload true
  | handshake peerId => exact h.affords_maybeStartSync peerId
  | submit t => exact h.affords_submitSignedTransaction t
  | mined block => exact h.affords_foundLocally block
  | peers snapshot =>
      refine Program.spends_last fun n _ _ _ => ?_
      rw [h.congr (n := n) (m := n.setPeers snapshot) rfl rfl]
      exact Nat.le_refl _

end Earned

/-! ## Blocks -/

/-- The message relays the block with this id. -/
def isBlock (κ : Crypto) (blockId : Hash256) (m : Message) : Bool :=
  m.1 = .block && match deserializeBlock κ m.2 with
    | .ok block => block.id κ = blockId
    | .error _ => false

/-- The chain has stored the block with this id. -/
def holdsBlock (blockId : Hash256) (n : NodeRuntime) : Bool :=
  n.chainStore.any fun store => store.blockchain.contains blockId

theorem isBlock_serialize {block : Block} (h : block.WellFormed κ) (blockId : Hash256) :
    isBlock κ blockId (.block, block.serialize) = decide (block.id κ = blockId) := by
  rw [isBlock, Block.deserialize_serialize h]
  simp

/-- What the section around `append` puts out are transactions. -/
theorem type_appendSection (n : NodeRuntime) (block : Block) (io : StorageIo) :
    ∀ o ∈ (n.appendSection κ block io).2.1, o.message.1 = .transaction := by
  intro o ho
  rw [appendSection] at ho
  split at ho
  · exact absurd ho List.not_mem_nil
  dsimp only at ho
  split at ho
  · rw [updateMempoolAfterChainChange] at ho
    split at ho
    · obtain ⟨t, -, ht⟩ := List.mem_flatMap.mp ho
      rw [broadcast] at ht
      split at ht
      · rw [List.mem_singleton.mp ht]
        rfl
      · exact absurd ht List.not_mem_nil
    · exact absurd ho List.not_mem_nil
  · exact absurd ho List.not_mem_nil

theorem contains_append {c : Blockchain} {b : Block} {p : Nat} {next : ChainState}
    (ha : c.Accepts κ b p next) (blockId : Hash256) :
    (c.append κ b).1.contains blockId = (decide (b.id κ = blockId) || c.contains blockId) := by
  rw [Blockchain.append_of_accepts ha, Blockchain.contains, Blockchain.indexById_choose,
    Blockchain.contains]
  have hindex : (c.store κ b p next).indexById[blockId]?
      = if b.id κ = blockId then some c.storedBlocks.length else c.indexById[blockId]? :=
    MapSum.getElem?_insertIfNew ha.fresh blockId _
  rw [← Std.ExtTreeMap.isSome_getElem?_eq_contains, ← Std.ExtTreeMap.isSome_getElem?_eq_contains,
    hindex]
  by_cases hid : b.id κ = blockId
  · simp [hid]
  · simp [hid]

/-- A block earns its relay when the chain stores it. -/
theorem earned_block (blockId : Hash256) :
    Earned κ (Grown κ) (fun _ _ => True) (holdsBlock blockId) (isBlock κ blockId) where
  relayed h := by
    rw [isBlock, Bool.and_eq_true, decide_eq_true_eq] at h
    exact Or.inl h.1
  congr hchain _ := by rw [holdsBlock, holdsBlock, hchain]
  append := by
    intro n block io hblock hn _
    obtain ⟨chain, pool, chainId, bs, hc, -, -⟩ := hn
    obtain ⟨hchain, -, hresult⟩ := chainStore_appendSection (κ := κ) hc block io
    have hnone : relays (isBlock κ blockId) (n.appendSection κ block io).2.1 = 0 := by
      refine List.countP_eq_zero.mpr fun o ho hitem => ?_
      rw [isBlock, type_appendSection n block io o ho] at hitem
      exact Bool.false_ne_true hitem
    rw [hnone, holdsBlock, holdsBlock, hc, hchain, hresult, isBlock_serialize hblock,
      Option.any_some, Option.any_some]
    rcases chain.blockchain_append κ block io.append with ⟨hsame, hrefused⟩ | ⟨hnext, hvalue, hv⟩
    · rw [hsame, hrefused, Bool.false_and]
      simp
    · obtain ⟨p, next, ha⟩ := Blockchain.append_error_none_iff.mp (Blockchain.hasValue_iff.mp hv)
      rw [hnext, contains_append ha]
      by_cases hid : block.id κ = blockId
      · -- the stored blocks did not contain it
        have hfresh : chain.blockchain.contains blockId = false := by
          rw [← hid]
          exact Blockchain.contains_eq_false.mpr ha.fresh
        rw [hfresh, decide_eq_true hid]
        cases (chain.append κ block io.append).2.hasValue <;> simp
      · rw [decide_eq_false hid]
        simp
  add := by
    intro n t io _ _
    have hsame : (n.addSection κ t io).1.chainStore = n.chainStore := by
      rw [addSection]
      split <;> rfl
    rw [holdsBlock, holdsBlock, hsame]
    simp [isBlock]

/-! ## Transactions -/

/-- The message relays the transaction with this id. -/
def isTransaction (κ : Crypto) (transactionId : Hash256) (m : Message) : Bool :=
  m.1 = .transaction && match deserializeTransaction κ m.2 with
    | .ok transaction => transaction.id κ = transactionId
    | .error _ => false

/-- The transaction with this id is pending. -/
def holdsTransaction (κ : Crypto) (transactionId : Hash256) (n : NodeRuntime) : Bool :=
  n.mempoolStore.any fun store =>
    store.mempool.transactions.any fun t => t.id κ = transactionId

/-- The active chain of a full node. -/
def activeChain (n : NodeRuntime) : List Block :=
  match n.chainStore with
  | some store => store.blockchain.blocks
  | none => []

theorem id_of_isTransaction {t : SignedTransaction} {transactionId : Hash256}
    (h : isTransaction κ transactionId (.transaction, t.serialize) = true) :
    t.id κ = transactionId := by
  rw [isTransaction, Bool.and_eq_true] at h
  have hitem := h.2
  dsimp only at hitem
  split at hitem
  · rename_i value hdecoded
    have hserialize := (SignedTransaction.serialize_of_deserialize κ hdecoded).1
    rw [← decide_eq_true_iff.mp hitem, SignedTransaction.id, SignedTransaction.id, hserialize]
  · exact absurd hitem Bool.false_ne_true

/-- While the active chain stays, the section around `append` leaves the pool alone. -/
theorem idle_appendSection {n : NodeRuntime} (hn : n.Grown κ) (block : Block) (io : StorageIo)
    (hsteady : (n.appendSection κ block io).1.activeChain = n.activeChain) :
    (n.appendSection κ block io).2.1 = [] ∧
      (n.appendSection κ block io).1.mempoolStore = n.mempoolStore := by
  obtain ⟨chain, pool, chainId, bs, hc, hp, hbs⟩ := hn
  have hinv : chain.blockchain.Inv κ chainId := by
    rw [hbs]
    exact Blockchain.inv_replay κ chainId bs
  have hkept : ¬ ((chain.append κ block io.append).2.hasValue = true ∧
      (chain.append κ block io.append).2.chainResult.activeChainChanged = true) := by
    rintro ⟨hvalue, hchanged⟩
    obtain ⟨hchain, -, -⟩ := chainStore_appendSection (κ := κ) hc block io
    rw [activeChain, activeChain, hc, hchain] at hsteady
    rcases chain.blockchain_append κ block io.append with ⟨-, hrefused⟩ | ⟨hnext, hresult, hv⟩
    · rw [hrefused] at hvalue
      cases hvalue
    · rw [hresult] at hchanged
      obtain ⟨p, next, ha⟩ := Blockchain.append_error_none_iff.mp (Blockchain.hasValue_iff.mp hv)
      refine hinv.blocks_ne_of_changed ha hchanged ?_
      rw [← hnext]
      exact hsteady
  rw [appendSection, hc]
  dsimp only
  rw [if_neg hkept]
  exact ⟨rfl, rfl⟩

/-- While the active chain stays, a transaction earns its relay when the pool takes it. -/
theorem earned_transaction (transactionId : Hash256) :
    Earned κ (Grown κ) (fun n m => m.activeChain = n.activeChain)
      (holdsTransaction κ transactionId) (isTransaction κ transactionId) where
  relayed h := by
    rw [isTransaction, Bool.and_eq_true, decide_eq_true_eq] at h
    exact Or.inr h.1
  congr _ hpool := by rw [holdsTransaction, holdsTransaction, hpool]
  append := by
    intro n block io _ hn hok
    obtain ⟨hsilent, hpool⟩ := idle_appendSection hn block io hok
    rw [hsilent, holdsTransaction, holdsTransaction, hpool]
    simp [isTransaction, relays]
  add := by
    intro n t io hn _
    obtain ⟨chain, pool, chainId, bs, hc, hp, -⟩ := hn
    rw [addSection, hc, hp]
    dsimp only
    rw [holdsTransaction, holdsTransaction, hp, Option.any_some, Option.any_some, Option.any_some]
    rcases pool.add_cases κ t io.mempoolOk with ⟨hsame, hrefused⟩ | ⟨hadd, hnone, hresult⟩
    · rw [hsame, hrefused, Bool.false_and]
      simp
    · rcases Mempool.add_cases κ pool.mempool t with ⟨-, hne⟩ | ⟨hadmitted, -, hpush⟩
      · exact absurd hnone hne
      rw [hadd, hpush, List.any_append]
      by_cases hitem : isTransaction κ transactionId (.transaction, t.serialize) = true
      · have hid := id_of_isTransaction hitem
        have hfresh : (pool.mempool.transactions.any fun p => p.id κ = transactionId) = false := by
          rw [List.any_eq_false]
          intro p hp hsame
          exact hadmitted.fresh p hp ((decide_eq_true_iff.mp hsame).trans hid.symm)
        have hnow : ([t].any fun p => decide (p.id κ = transactionId)) = true := by simp [hid]
        rw [hfresh, hnow]
        exact Bool.toNat_le _
      · have hother : isTransaction κ transactionId (.transaction, t.serialize) = false :=
          Bool.eq_false_iff.mpr hitem
        rw [hother, Bool.and_false]
        cases (pool.mempool.transactions.any fun p => p.id κ = transactionId) <;> simp

end NodeRuntime

end BBC
