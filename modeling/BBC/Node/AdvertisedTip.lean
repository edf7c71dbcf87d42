/-
# `BBC.Node.AdvertisedTip` — the tip that is published is not always the tip

A new tip is read in the section that appends the block and published in later sections
of the same handler, under other locks: first the miner's view, then what the next
`HELLO` advertises.

    handle_block     append │ mining view │ advertised tip │ relay
    handle_blocks    append │ advertised tip │ …

Between the bars another handler may run.  If it changes the tip as well, the two
publications may come in the other order, and the older one wins
(`advertised_tip_stale`).  `handle_blocks` does not publish to the miner's view at all.

A handler that has changed the tip owes publications (`Debt`).  As long as no section
changes the tip while another handler is about to publish, and no batch does so on a
node that mines, there is at most one debt, and it is for the tip itself; with no handler
under way there is none.
-/
import BBC.Node.Flooding

namespace BBC

open Sections (Program Move System)

namespace NodeRuntime

variable {κ : Crypto}

/-! ## What is published -/

/-- The tip that the next `HELLO` advertises. -/
def advertised (n : NodeRuntime) : Option (UInt64 × Hash256) :=
  n.network.map fun view => (view.tipHeight, view.tipBlockId)

/-- The active tip. -/
def activeTip (κ : Crypto) (n : NodeRuntime) : UInt64 × Hash256 :=
  ((n.startTip κ).height, (n.startTip κ).id κ)

/-- A section that publishes nothing and leaves the chain alone. -/
structure Still (n m : NodeRuntime) : Prop where
  chain : m.chainStore = n.chainStore
  advertised : m.advertised = n.advertised
  known : m.known = n.known
  config : m.config = n.config

theorem Still.refl (n : NodeRuntime) : Still n n := ⟨rfl, rfl, rfl, rfl⟩

theorem Still.activeTip {n m : NodeRuntime} (h : Still n m) : m.activeTip κ = n.activeTip κ := by
  rw [NodeRuntime.activeTip, NodeRuntime.activeTip, startTip, startTip, h.chain, h.config]

/-- The next section of the handler may publish. -/
def Publishes : Task → Prop
  | .done => False
  | .step act _ => ∃ n io,
      (act n io).1.advertised ≠ n.advertised ∨ (act n io).1.known ≠ n.known

/-! ## Debts -/

/-- What a handler has still to publish. -/
inductive Debt where
  | none
  | both (tip : UInt64 × Hash256)
  | advert (tip : UInt64 × Hash256)

/-- What one section does to the debt of its handler. -/
inductive Settles (κ : Crypto) (batch : Bool) (n m : NodeRuntime) : Debt → Debt → Prop where
  | idle (h : m.activeTip κ = n.activeTip κ) (hadvertised : m.advertised = n.advertised)
      (hknown : m.known = n.known) : Settles κ batch n m .none .none
  | changed (h : batch = false) (hmoved : m.activeTip κ ≠ n.activeTip κ)
      (hadvertised : m.advertised = n.advertised)
      (hknown : m.known = n.known) : Settles κ batch n m .none (.both (m.activeTip κ))
  | synced (h : batch = true) (hmoved : m.activeTip κ ≠ n.activeTip κ)
      (hadvertised : m.advertised = n.advertised)
      (hknown : m.known = n.known) : Settles κ batch n m .none (.advert (m.activeTip κ))
  | noted {tip : UInt64 × Hash256} (h : m.activeTip κ = n.activeTip κ)
      (hadvertised : m.advertised = n.advertised)
      (hknown : n.config.hasRole .miner = true → m.known = tip) :
      Settles κ batch n m (.both tip) (.advert tip)
  | published {tip : UInt64 × Hash256} (h : m.activeTip κ = n.activeTip κ)
      (hadvertised : m.advertised = n.advertised.map fun _ => tip) (hknown : m.known = n.known) :
      Settles κ batch n m (.advert tip) .none

/-- The rest of a handler pays its debt before it ends.  `batch` is `handle_blocks`. -/
def Pays (κ : Crypto) (batch : Bool) : Task → Debt → Prop
  | .done, debt => debt = .none
  | .step act next, debt =>
      (debt ≠ .none → Publishes (.step act next)) ∧
      ∀ n io, n.Grown κ → (act n io).1.config = n.config ∧
        ∃ left, Settles κ batch n (act n io).1 debt left ∧
          Pays κ batch (next (act n io).2.2) left

variable {batch : Bool}

theorem pays_done : Pays κ batch .done .none := rfl

theorem pays_step {α : Type} {act : NodeRuntime → StorageIo → NodeRuntime × List Output × α}
    {next : α → Task} (hact : ∀ n io, Still n (act n io).1)
    (hnext : ∀ a, Pays κ batch (next a) .none) : Pays κ batch (.step act next) .none := by
  refine ⟨fun hne => absurd rfl hne, fun n io _ => ?_⟩
  have hstill := hact n io
  exact ⟨hstill.config, .none, .idle hstill.activeTip hstill.advertised hstill.known, hnext _⟩

theorem pays_last {act : NodeRuntime → StorageIo → NodeRuntime × List Output}
    (hact : ∀ n io, Still n (act n io).1) : Pays κ batch (.last act) .none :=
  pays_step hact fun _ => pays_done

theorem pays_seq {q : Task} (hq : Pays κ batch q .none) (p : Task) :
    ∀ {debt : Debt}, Pays κ batch p debt → Pays κ batch (p.seq q) debt := by
  induction p with
  | done =>
      intro debt hp
      cases hp
      exact hq
  | step act next ih =>
      intro debt hp
      refine ⟨hp.1, fun n io hn => ?_⟩
      obtain ⟨hconfig, left, hsettles, hleft⟩ := hp.2 n io hn
      exact ⟨hconfig, left, hsettles, ih _ hleft⟩

/-! ## The sections that publish -/

theorem known_noteTip (n : NodeRuntime) (height : UInt64) (tip : Hash256)
    (h : n.config.hasRole .miner = true) : (n.noteTip height tip).known = (height, tip) := by
  rw [noteTip, if_pos h]
  rfl

theorem advertised_updateTip (n : NodeRuntime) (height : UInt64) (tip : Hash256) :
    (n.updateTip height tip).advertised = n.advertised.map fun _ => (height, tip) := by
  rw [advertised, advertised, updateTip, Option.map_map, Option.map_map]
  rfl

theorem activeTip_congr {n m : NodeRuntime} (hchain : m.chainStore = n.chainStore)
    (hconfig : m.config = n.config) : m.activeTip κ = n.activeTip κ := by
  rw [activeTip, activeTip, startTip, startTip, hchain, hconfig]

/-- A height that is not the given one. -/
theorem ne_succ (height : UInt64) : height ≠ height + 1 := by
  intro heq
  have hnat := congrArg UInt64.toNat heq
  have hone : (1 : UInt64).toNat = 1 := rfl
  have hlt := UInt64.toNat_lt height
  rw [UInt64.toNat_add, hone] at hnat
  omega

/-- A node whose view is not this tip. -/
def elsewhere (height : UInt64) : NodeRuntime where
  config := { networkProfile := .regtest, roles := [.miner] }
  network := some { tipHeight := height + 1, tipBlockId := .zero }
  mining := { knownHeight := height + 1 }

/-- `noteTip` and what follows it. -/
theorem pays_note {height : UInt64} {tip : Hash256} {next : Unit → Task}
    (hnext : Pays κ batch (next ()) (.advert (height, tip))) :
    Pays κ batch (.step (fun n _ => (n.noteTip height tip, [], ())) next)
      (.both (height, tip)) := by
  refine ⟨fun _ => ⟨elsewhere height, {}, Or.inr ?_⟩, fun n io _ => ?_⟩
  · rw [known_noteTip _ _ _ rfl]
    exact fun heq => ne_succ height (congrArg Prod.fst heq)
  · have hchain := (untouched_noteTip n height tip).chain
    have hconfig : (n.noteTip height tip).config = n.config := by
      rw [noteTip]
      split <;> rfl
    have hadvertised : (n.noteTip height tip).advertised = n.advertised := by
      rw [noteTip]
      split <;> rfl
    exact ⟨hconfig, _, .noted (activeTip_congr hchain hconfig) hadvertised
      (known_noteTip n height tip), hnext⟩

/-- `updateTip` and what follows it. -/
theorem pays_update {height : UInt64} {tip : Hash256} {next : Unit → Task}
    {act : NodeRuntime → NodeRuntime} (hact : ∀ n, act n = n.updateTip height tip)
    (hnext : Pays κ batch (next ()) .none) :
    Pays κ batch (.step (fun n _ => (act n, [], ())) next) (.advert (height, tip)) := by
  refine ⟨fun _ => ⟨elsewhere height, {}, Or.inl ?_⟩, fun n io _ => ?_⟩
  · dsimp only
    rw [hact, advertised_updateTip]
    exact fun heq => ne_succ height (congrArg Prod.fst (Option.some.inj heq))
  · dsimp only
    rw [hact]
    exact ⟨rfl, _, .published (activeTip_congr rfl rfl) (advertised_updateTip n height tip) rfl,
      hnext⟩

/-! ## The section that changes the tip -/

/-- The section around `append`, seen from outside the chain. -/
theorem still_appendSection (n : NodeRuntime) (block : Block) (io : StorageIo) :
    (n.appendSection κ block io).1.advertised = n.advertised ∧
      (n.appendSection κ block io).1.known = n.known ∧
      (n.appendSection κ block io).1.config = n.config := by
  rw [appendSection]
  split
  · exact ⟨rfl, rfl, rfl⟩
  dsimp only
  split
  · rw [updateMempoolAfterChainChange]
    split <;> exact ⟨rfl, rfl, rfl⟩
  · exact ⟨rfl, rfl, rfl⟩

/-- The handler takes the new tip with it, if there is one. -/
theorem activeTip_appendSection {n : NodeRuntime} (h : n.Grown κ) (block : Block)
    (io : StorageIo) :
    let r := n.appendSection κ block io
    (r.2.2.appended.hasValue = true ∧ r.2.2.appended.chainResult.activeChainChanged = true →
      (r.2.2.activeTipHeight, r.2.2.activeTipId) = r.1.activeTip κ ∧
        r.1.activeTip κ ≠ n.activeTip κ) ∧
    (¬ (r.2.2.appended.hasValue = true ∧
        r.2.2.appended.chainResult.activeChainChanged = true) →
      r.1.activeTip κ = n.activeTip κ) := by
  intro r
  obtain ⟨chain, pool, chainId, bs, hc, hp, hbs⟩ := h
  obtain ⟨hchain, -, hresult⟩ := chainStore_appendSection (κ := κ) hc block io
  have hinv : chain.blockchain.Inv κ chainId := by
    rw [hbs]
    exact Blockchain.inv_replay κ chainId bs
  have hold : n.activeTip κ = (chain.blockchain.tip.height, chain.blockchain.tip.id κ) := by
    rw [activeTip, startTip_of_some hc]
  have htip : r.1.activeTip κ = ((chain.append κ block io.append).1.blockchain.tip.height,
      (chain.append κ block io.append).1.blockchain.tip.id κ) := by
    rw [activeTip, startTip_of_some hchain]
  rw [hresult, htip, hold]
  rcases chain.blockchain_append κ block io.append with ⟨hsame, hrefused⟩ | ⟨hnext, hvalue, hv⟩
  · rw [hsame]
    refine ⟨fun hboth => ?_, fun _ => rfl⟩
    rw [hrefused] at hboth
    exact absurd hboth.1 Bool.false_ne_true
  · have hhas : (chain.append κ block io.append).2.hasValue = true := by
      rw [hvalue, ChainStoreAppendResult.hasValue, hv]
      rfl
    obtain ⟨p, next, ha⟩ := Blockchain.append_error_none_iff.mp (Blockchain.hasValue_iff.mp hv)
    have hflag : (chain.append κ block io.append).2.chainResult.activeChainChanged
        = decide (chain.blockchain.tip.height < block.height) := by
      rw [hvalue]
      exact hinv.activeChainChanged_append ha
    constructor
    · intro hboth
      constructor
      · show ((n.appendSection κ block io).2.2.activeTipHeight,
          (n.appendSection κ block io).2.2.activeTipId) = _
        rw [appendSection, hc]
        dsimp only
        rw [if_pos hboth]
      · -- a new tip is higher
        have hlt := decide_eq_true_iff.mp (hflag.symm.trans hboth.2)
        rw [hnext, hinv.tip_of_lt ha hlt]
        intro heq
        rw [(Prod.mk.inj heq).1] at hlt
        exact UInt64.lt_irrefl _ hlt
    · intro hneither
      have hlow : block.height ≤ chain.blockchain.tip.height := by
        refine UInt64.not_lt.mp fun hlt => hneither ⟨hhas, ?_⟩
        rw [hflag]
        exact decide_eq_true hlt
      rw [hnext, hinv.tip_of_le ha hlow]

variable (κ batch) in
theorem pays_finishBlock (peerId : UInt64) (block : Block) (submission : Bool)
    (outcome : AppendOutcome) :
    (outcome.appended.hasValue = true ∧ outcome.appended.chainResult.activeChainChanged = true →
      Pays κ batch (finishBlock κ peerId block submission outcome)
        (.both (outcome.activeTipHeight, outcome.activeTipId))) ∧
    (¬ (outcome.appended.hasValue = true ∧
        outcome.appended.chainResult.activeChainChanged = true) →
      Pays κ batch (finishBlock κ peerId block submission outcome) .none) := by
  unfold finishBlock
  constructor
  · rintro ⟨hvalue, hchanged⟩
    rw [if_neg (not_not.mpr hvalue), if_neg (not_not.mpr hchanged)]
    exact pays_note (pays_update (fun _ => rfl) (pays_last fun n _ => .refl n))
  · intro hneither
    by_cases hvalue : outcome.appended.hasValue = true
    · rw [if_neg (not_not.mpr hvalue), if_pos fun hchanged => hneither ⟨hvalue, hchanged⟩]
      exact pays_last fun n _ => .refl n
    · rw [if_pos hvalue]
      exact pays_last fun n _ => .refl n

theorem pays_handleBlock (peerId : UInt64) (payload : Bytes) (submission : Bool) :
    Pays κ false (handleBlock κ peerId payload submission) .none := by
  unfold handleBlock
  split
  · exact pays_last fun n _ => .refl n
  · rename_i block hdecoded
    refine ⟨fun hne => absurd rfl hne, fun n io hn => ?_⟩
    refine ⟨rfl, .none, .idle rfl rfl rfl, ?_⟩
    obtain ⟨chain, pool, chainId, bs, hc, hp, hbs⟩ := hn
    -- a full node has its chain store, so the worker's branch is not taken
    have hsome : n.chainStore.isSome = true := by rw [hc]; rfl
    dsimp only
    rw [if_neg (not_not.mpr hsome)]
    refine ⟨fun hne => absurd rfl hne, fun n io hn => ?_⟩
    obtain ⟨hadvertised, hknown, hconfig⟩ := still_appendSection (κ := κ) n block io
    obtain ⟨hnew, hold⟩ := activeTip_appendSection hn block io
    obtain ⟨hpays, hquiet⟩ := pays_finishBlock κ false peerId block submission
      (n.appendSection κ block io).2.2
    by_cases hchanged : (n.appendSection κ block io).2.2.appended.hasValue = true ∧
        (n.appendSection κ block io).2.2.appended.chainResult.activeChainChanged = true
    · have hdebt := hpays hchanged
      rw [(hnew hchanged).1] at hdebt
      exact ⟨hconfig, _, .changed rfl (hnew hchanged).2 hadvertised hknown, hdebt⟩
    · exact ⟨hconfig, _, .idle (hold hchanged) hadvertised hknown, hquiet hchanged⟩

theorem pays_foundLocally (mined : Block) : Pays κ false (foundLocally κ mined) .none := by
  refine pays_step (fun _ _ => ⟨rfl, rfl, rfl, rfl⟩) fun _ => ?_
  refine pays_seq ?_ _ (pays_handleBlock 0 mined.serialize false)
  refine pays_step (fun n _ => .refl n) fun accepted => ?_
  exact pays_last fun _ _ => ⟨rfl, rfl, rfl, rfl⟩

/-! ## The other handlers -/

theorem still_addSection (n : NodeRuntime) (t : SignedTransaction) (io : StorageIo) :
    Still n (n.addSection κ t io).1 := by
  rw [addSection]
  split
  · exact ⟨rfl, rfl, rfl, rfl⟩
  · exact .refl n

theorem pays_handleTransaction (peerId : UInt64) (payload : Bytes) (submission : Bool) :
    Pays κ batch (handleTransaction κ peerId payload submission) .none := by
  refine pays_step (fun n _ => .refl n) fun context => ?_
  split
  · exact pays_done
  split
  · exact pays_last fun n _ => .refl n
  split
  · exact pays_last fun n _ => .refl n
  refine pays_step (fun n io => still_addSection n _ io) fun added => ?_
  cases added with
  | none => exact pays_done
  | some added =>
      refine pays_last fun n _ => ?_
      split <;> exact .refl n

theorem pays_sendSubmission (t : SignedTransaction) (peerId : UInt64) :
    Pays κ batch (sendSubmission t peerId) .none := by
  refine pays_step (fun n _ => .refl n) fun sent => ?_
  split
  · exact pays_done
  · exact pays_last fun _ _ => ⟨rfl, rfl, rfl, rfl⟩

theorem pays_submitToFullNode (t : SignedTransaction) (fullNode : Option PeerStatus) :
    Pays κ batch (submitToFullNode κ t fullNode) .none := by
  cases fullNode with
  | none => exact pays_done
  | some fullNode =>
      refine pays_step (fun n _ => ?_) fun noted => ?_
      · rw [noteSubmission]
        split
        · exact .refl n
        · exact ⟨rfl, rfl, rfl, rfl⟩
      split
      · exact pays_sendSubmission t _
      · exact pays_done

theorem pays_submitSignedTransaction (t : SignedTransaction) :
    Pays κ batch (submitSignedTransaction κ t) .none := by
  refine pays_step (fun n _ => .refl n) fun context => ?_
  split
  · exact pays_done
  refine pays_step (fun n io => still_addSection n t io) fun added => ?_
  cases added with
  | some added =>
      dsimp only
      split
      · exact pays_done
      · exact pays_step (fun _ _ => ⟨rfl, rfl, rfl, rfl⟩) fun _ => pays_last fun n _ => .refl n
  | none => exact pays_submitToFullNode t _

theorem pays_failSync : Pays κ batch failSync .none := pays_last fun _ _ => ⟨rfl, rfl, rfl, rfl⟩

theorem pays_sendSyncRequest (peerId : UInt64) :
    Pays κ batch (sendSyncRequest κ peerId) .none := by
  refine pays_step (fun n _ => .refl n) fun running => ?_
  split
  · exact pays_done
  refine pays_step (fun n _ => ?_) fun request => ?_
  · rw [takeSyncRequest]
    split
    · exact .refl n
    · split
      · exact .refl n
      · exact ⟨rfl, rfl, rfl, rfl⟩
  cases request with
  | none => exact pays_done
  | some request =>
      refine pays_step (fun n _ => .refl n) fun locator => ?_
      split
      · exact pays_failSync
      refine pays_step (fun n _ => .refl n) fun sent => ?_
      split
      · exact pays_done
      · exact pays_failSync

theorem pays_maybeStartSync (peerId : UInt64) :
    Pays κ batch (maybeStartSync κ peerId) .none := by
  refine pays_step (fun n _ => .refl n) fun found => ?_
  cases found with
  | none => exact pays_done
  | some peer =>
      refine pays_step (fun n _ => .refl n) fun tip => ?_
      cases tip with
      | none => exact pays_done
      | some tip =>
          dsimp only
          split
          · exact pays_done
          split
          · refine pays_last fun n _ => ?_
            split
            · exact .refl n
            · exact ⟨rfl, rfl, rfl, rfl⟩
          · refine pays_step (fun n _ => ?_) fun started => ?_
            · split
              · exact .refl n
              · exact ⟨rfl, rfl, rfl, rfl⟩
            split
            · exact pays_sendSyncRequest peerId
            · exact pays_done

theorem pays_handleGetBlocks (peerId : UInt64) (payload : Bytes) :
    Pays κ batch (handleGetBlocks κ peerId payload) .none := by
  refine pays_last fun n _ => ?_
  split
  · exact .refl n
  split <;> exact .refl n

/-- The rest of a turn of the batch, after the section that stored the block. -/
theorem pays_afterBlock {rest : Task} (hrest : Pays κ true rest .none)
    (outcome : Option AppendOutcome) :
    let turn : Task :=
      if outcome.any fun outcome => ¬ outcome.appended.hasValue then failSync
      else
        .step (fun n _ => (n.noteSynced outcome, [], ())) fun _ =>
        .step (fun n _ =>
          ({ n with sync := { n.sync with receivedBlocks := n.sync.receivedBlocks + 1 } }, [], ()))
          fun _ => rest
    (∀ o, outcome = some o → o.appended.hasValue = true ∧
      o.appended.chainResult.activeChainChanged = true →
        Pays κ true turn (.advert (o.activeTipHeight, o.activeTipId))) ∧
    ((∀ o, outcome = some o → ¬ (o.appended.hasValue = true ∧
      o.appended.chainResult.activeChainChanged = true)) → Pays κ true turn .none) := by
  intro turn
  have hcount : Pays κ true (.step (fun n _ =>
      ({ n with sync := { n.sync with receivedBlocks := n.sync.receivedBlocks + 1 } }, [], ()))
        fun _ => rest) .none :=
    pays_step (fun _ _ => ⟨rfl, rfl, rfl, rfl⟩) fun _ => hrest
  constructor
  · rintro o rfl ⟨hvalue, hchanged⟩
    have hturn : turn = .step (fun n _ => (n.noteSynced (some o), [], ())) fun _ =>
        .step (fun n _ =>
          ({ n with sync := { n.sync with receivedBlocks := n.sync.receivedBlocks + 1 } }, [], ()))
          fun _ => rest := if_neg (by simp [hvalue])
    rw [hturn]
    refine pays_update (fun n => ?_) hcount
    rw [noteSynced]
    exact if_pos hchanged
  · intro hneither
    by_cases hrefused : (outcome.any fun outcome => ¬ outcome.appended.hasValue) = true
    · rw [show turn = failSync from if_pos hrefused]
      exact pays_failSync
    · rw [show turn = _ from if_neg hrefused]
      refine pays_step (fun n _ => ?_) fun _ => hcount
      cases outcome with
      | none => exact .refl n
      | some o =>
          have hvalue : o.appended.hasValue = true := by simpa using hrefused
          rw [noteSynced, if_neg fun hchanged => hneither o rfl ⟨hvalue, hchanged⟩]
          exact .refl n

theorem pays_applyBlocks {next : Task} (hnext : Pays κ true next .none) (blocks : List Block) :
    Pays κ true (applyBlocks κ next blocks) .none := by
  induction blocks with
  | nil => exact hnext
  | cons block rest ih =>
      refine ⟨fun hne => absurd rfl hne, fun n io hn => ?_⟩
      obtain ⟨hpays, hquiet⟩ := pays_afterBlock ih (n.storeSection κ block io).2.2
      dsimp only
      by_cases hstored : (n.chainStore.any fun store =>
          store.blockchain.contains (block.id κ)) = true
      · have hsection : n.storeSection κ block io = (n, [], none) := if_pos hstored
        rw [hsection] at hquiet ⊢
        exact ⟨rfl, _, .idle rfl rfl rfl, hquiet fun o ho => by cases ho⟩
      · have hsection : n.storeSection κ block io = ((n.appendSection κ block io).1,
            (n.appendSection κ block io).2.1, some (n.appendSection κ block io).2.2) :=
          if_neg hstored
        obtain ⟨hadvertised, hknown, hconfig⟩ := still_appendSection (κ := κ) n block io
        obtain ⟨hnew, hold⟩ := activeTip_appendSection hn block io
        rw [hsection] at hpays hquiet ⊢
        by_cases hchanged : (n.appendSection κ block io).2.2.appended.hasValue = true ∧
            (n.appendSection κ block io).2.2.appended.chainResult.activeChainChanged = true
        · have hdebt := hpays _ rfl hchanged
          rw [(hnew hchanged).1] at hdebt
          exact ⟨hconfig, _, .synced rfl (hnew hchanged).2 hadvertised hknown, hdebt⟩
        · refine ⟨hconfig, _, .idle (hold hchanged) hadvertised hknown, hquiet ?_⟩
          intro o ho
          cases ho
          exact hchanged

theorem pays_finishBlocks (peerId : UInt64) (blocks : List Block) :
    Pays κ batch (finishBlocks κ peerId blocks) .none := by
  refine pays_step (fun n _ => ?_) fun _ => ?_
  · dsimp only
    split <;> exact ⟨rfl, rfl, rfl, rfl⟩
  refine pays_step (fun n _ => .refl n) fun tip => ?_
  cases tip with
  | none => exact pays_done
  | some tip =>
      refine pays_step (fun n _ => ?_) fun verdict => ?_
      · rw [judgeSync]
        split
        · split
          · split <;> exact ⟨rfl, rfl, rfl, rfl⟩
          · split <;> exact .refl n
        · exact .refl n
      cases verdict with
      | complete => exact pays_done
      | invalidTip => exact pays_failSync
      | continue_ =>
          dsimp only
          split
          · exact pays_failSync
          · exact pays_sendSyncRequest peerId

theorem pays_handleBlocks (peerId : UInt64) (payload : Bytes) :
    Pays κ true (handleBlocks κ peerId payload) .none := by
  refine pays_step (fun n _ => ?_) fun matched => ?_
  · unfold takeResponse
    split <;> exact ⟨rfl, rfl, rfl, rfl⟩
  split
  · exact pays_done
  split
  · exact pays_failSync
  · exact pays_applyBlocks (pays_finishBlocks peerId _) _

/-- The call runs `handle_blocks`. -/
def Call.isBatch : Call → Bool
  | .blocks _ _ => true
  | _ => false

theorem pays_call (call : Call) : Pays κ call.isBatch (call.task κ) .none := by
  cases call with
  | block peerId payload => exact pays_handleBlock peerId payload false
  | blockSubmit peerId payload => exact pays_handleBlock peerId payload true
  | blocks peerId payload => exact pays_handleBlocks peerId payload
  | getBlocks peerId payload => exact pays_handleGetBlocks peerId payload
  | transaction peerId payload => exact pays_handleTransaction peerId payload false
  | transactionSubmit peerId payload => exact pays_handleTransaction peerId payload true
  | handshake peerId => exact pays_maybeStartSync peerId
  | submit t => exact pays_submitSignedTransaction t
  | mined block => exact pays_foundLocally block
  | peers snapshot =>
      refine pays_last fun n _ => ⟨rfl, ?_, rfl, rfl⟩
      rw [advertised, advertised, setPeers, Option.map_map]
      rfl

/-! ## Runs -/

/-- What is published, up to a debt. -/
def Shown (κ : Crypto) (n : NodeRuntime) : Debt → Prop
  | .none => n.advertised = some (n.activeTip κ) ∧
      (n.config.hasRole .miner = true → n.known = n.activeTip κ)
  | .both tip => tip = n.activeTip κ ∧ n.advertised.isSome = true
  | .advert tip => tip = n.activeTip κ ∧ n.advertised.isSome = true ∧
      (n.config.hasRole .miner = true → n.known = n.activeTip κ)

/-- No section changes the tip while another handler is about to publish; and on a node
that mines, no batch changes it.  `calls` are the handlers started so far. -/
def Orderly (κ : Crypto) : System NodeRuntime StorageIo Output → List Call →
    List (Move Call StorageIo) → Prop
  | _, _, [] => True
  | m, calls, .start call :: moves =>
      Orderly κ (m.move (Call.task κ) (.start call)) (calls ++ [call]) moves
  | m, calls, .advance k io :: moves =>
      ((m.move (Call.task κ) (.advance k io)).state.activeTip κ ≠ m.state.activeTip κ →
        (∀ p ∈ m.threads, ¬ Publishes p) ∧
        (m.state.config.hasRole .miner = true →
          ∀ call, calls[k]? = some call → call.isBatch = false)) ∧
      Orderly κ (m.move (Call.task κ) (.advance k io)) calls moves

/-- At most one handler owes a publication, and it owes the tip. -/
structure Accounts (κ : Crypto) (m : System NodeRuntime StorageIo Output) (calls : List Call) :
    Prop where
  grown : m.state.Grown κ
  keeps : ∀ p ∈ m.threads, p.Keeps (fun _ => True) (Grown κ)
  length : calls.length = m.threads.length
  owed : ∃ k debt, Shown κ m.state debt ∧ (debt ≠ .none → k < m.threads.length) ∧
    ∀ j p call, m.threads[j]? = some p → calls[j]? = some call →
      Pays κ call.isBatch p (if j = k then debt else .none)

/-- A section without a debt: it is quiet, or it moves the tip and takes on a debt. -/
theorem settles_none {n m : NodeRuntime} {left : Debt} (h : Settles κ batch n m .none left)
    (hconfig : m.config = n.config) :
    (left = .none ∧ ∀ debt, Shown κ n debt → Shown κ m debt) ∨
      (m.activeTip κ ≠ n.activeTip κ ∧
        ((n.config.hasRole .miner = true → batch = false) → n.advertised.isSome = true →
          Shown κ m left)) := by
  cases h with
  | idle h hadvertised hknown =>
      refine Or.inl ⟨rfl, fun debt hshown => ?_⟩
      cases debt with
      | none => exact ⟨by rw [hadvertised, h]; exact hshown.1,
          by rw [hconfig, hknown, h]; exact hshown.2⟩
      | both tip => exact ⟨by rw [h]; exact hshown.1, by rw [hadvertised]; exact hshown.2⟩
      | advert tip => exact ⟨by rw [h]; exact hshown.1, by rw [hadvertised]; exact hshown.2.1,
          by rw [hconfig, hknown, h]; exact hshown.2.2⟩
  | changed h hmoved hadvertised hknown =>
      refine Or.inr ⟨hmoved, fun _ hsome => ⟨rfl, ?_⟩⟩
      rw [hadvertised]
      exact hsome
  | synced h hmoved hadvertised hknown =>
      refine Or.inr ⟨hmoved, fun hminer hsome => ⟨rfl, ?_, ?_⟩⟩
      · rw [hadvertised]
        exact hsome
      · intro hrole
        rw [hconfig] at hrole
        rw [h] at hminer
        exact absurd (hminer hrole) (by decide)

/-- A section with a debt pays a part of it. -/
theorem settles_debt {n m : NodeRuntime} {debt left : Debt} (h : Settles κ batch n m debt left)
    (hconfig : m.config = n.config) (hne : debt ≠ .none) (hshown : Shown κ n debt) :
    Shown κ m left := by
  cases h with
  | idle => exact absurd rfl hne
  | changed => exact absurd rfl hne
  | synced => exact absurd rfl hne
  | noted h hadvertised hknown =>
      refine ⟨by rw [h]; exact hshown.1, by rw [hadvertised]; exact hshown.2, fun hrole => ?_⟩
      rw [hknown (hconfig ▸ hrole), h]
      exact hshown.1
  | published h hadvertised hknown =>
      obtain ⟨htip, hsome, hminer⟩ := hshown
      obtain ⟨old, hold⟩ := Option.isSome_iff_exists.mp hsome
      refine ⟨?_, ?_⟩
      · rw [hadvertised, hold, h, ← htip]
        rfl
      · rw [hconfig, hknown, h]
        exact hminer

theorem Shown.isSome {n : NodeRuntime} {debt : Debt} (h : Shown κ n debt) :
    n.advertised.isSome = true := by
  cases debt with
  | none => rw [h.1]; rfl
  | both tip => exact h.2
  | advert tip => exact h.2.1

namespace Accounts

variable {m : System NodeRuntime StorageIo Output} {calls : List Call}

/-- A new handler owes nothing. -/
theorem start (h : Accounts κ m calls) (call : Call) :
    Accounts κ (m.move (Call.task κ) (.start call)) (calls ++ [call]) := by
  obtain ⟨hgrown, hkeeps⟩ := System.keeps_move keeps_grown h.grown h.keeps
    (e := .start call) fun _ _ _ => trivial
  refine ⟨hgrown, hkeeps, ?_, ?_⟩
  · show _ = (m.threads ++ [call.task κ]).length
    rw [List.length_append, List.length_append, h.length]
    rfl
  · obtain ⟨k, debt, hshown, hlt, hpays⟩ := h.owed
    refine ⟨k, debt, hshown, fun hne => ?_, ?_⟩
    · show k < (m.threads ++ [call.task κ]).length
      have := hlt hne
      rw [List.length_append]
      omega
    · intro j p other hp hother
      have hp : (m.threads ++ [call.task κ])[j]? = some p := hp
      by_cases hj : j < m.threads.length
      · rw [List.getElem?_append_left hj] at hp
        rw [List.getElem?_append_left (by rw [h.length]; exact hj)] at hother
        exact hpays j p other hp hother
      · have hjlen : j = m.threads.length := by
          obtain ⟨hbound, -⟩ := List.getElem?_eq_some_iff.mp hp
          rw [List.length_append, List.length_singleton] at hbound
          omega
        rw [hjlen, List.getElem?_concat_length] at hp
        rw [hjlen, ← h.length, List.getElem?_concat_length] at hother
        cases hp
        cases hother
        have hnone : (if j = k then debt else .none) = Debt.none := by
          split
          · rename_i hjk
            by_contra hne
            have := hlt hne
            omega
          · rfl
        rw [hnone]
        exact pays_call call

/-- While nobody is about to publish, nothing is owed. -/
theorem settled (h : Accounts κ m calls) (hidle : ∀ p ∈ m.threads, ¬ Publishes p) :
    Shown κ m.state .none ∧ ∀ (j : Nat) (p : Task) (call : Call), m.threads[j]? = some p →
      calls[j]? = some call → Pays κ call.isBatch p .none := by
  obtain ⟨owner, debt, hshown, hlt, hpays⟩ := h.owed
  have hclear : debt = .none := by
    by_contra hne
    have howner := hlt hne
    have hdue := hpays owner _ _ (List.getElem?_eq_getElem howner)
      (List.getElem?_eq_getElem (by rw [h.length]; exact howner))
    rw [if_pos rfl] at hdue
    have hquiet := hidle _ (List.getElem_mem howner)
    cases hprogram : m.threads[owner] with
    | done =>
        rw [hprogram] at hdue
        exact hne hdue
    | step act next =>
        rw [hprogram] at hdue hquiet
        exact hquiet (hdue.1 hne)
  subst hclear
  refine ⟨hshown, fun j p call hp hcall => ?_⟩
  have hdue := hpays j p call hp hcall
  rwa [ite_self] at hdue

/-- Handler `k` has moved on to `q`, and the others are where they were. -/
theorem owed_set {threads : List Task} {k owner owner' : Nat} {q : Task} {call : Call}
    {debt left : Debt} (hk : k < threads.length) (hcall : calls[k]? = some call)
    (hpays : ∀ j p call, threads[j]? = some p → calls[j]? = some call →
      Pays κ call.isBatch p (if j = owner then debt else .none))
    (hsame : ∀ j, j ≠ k → (if j = owner' then left else .none) = if j = owner then debt else .none)
    (hown : Pays κ call.isBatch q (if k = owner' then left else .none)) :
    ∀ j p call, (threads.set k q)[j]? = some p → calls[j]? = some call →
      Pays κ call.isBatch p (if j = owner' then left else .none) := by
  intro j p other hp hother
  by_cases hj : j = k
  · subst hj
    rw [List.getElem?_set_self hk] at hp
    cases hp
    rw [hcall] at hother
    cases hother
    exact hown
  · rw [List.getElem?_set_ne (Ne.symm hj)] at hp
    rw [hsame j hj]
    exact hpays j p other hp hother

/-- The debts after a section of handler `k`. -/
theorem owed_advance (h : Accounts κ m calls) {k : Nat} {io : StorageIo} {α : Type}
    {act : NodeRuntime → StorageIo → NodeRuntime × List Output × α} {next : α → Task}
    (hk : m.threads[k]? = some (.step act next))
    (horder : (act m.state io).1.activeTip κ ≠ m.state.activeTip κ →
      (∀ p ∈ m.threads, ¬ Publishes p) ∧
      (m.state.config.hasRole .miner = true →
        ∀ call, calls[k]? = some call → call.isBatch = false)) :
    ∃ owner debt, Shown κ (act m.state io).1 debt ∧ (debt ≠ .none → owner < m.threads.length) ∧
      ∀ j p call, (m.threads.set k (next (act m.state io).2.2))[j]? = some p →
        calls[j]? = some call → Pays κ call.isBatch p (if j = owner then debt else .none) := by
  have hklt : k < m.threads.length := (List.getElem?_eq_some_iff.mp hk).1
  obtain ⟨call, hcall⟩ : ∃ call, calls[k]? = some call :=
    ⟨_, List.getElem?_eq_getElem (by rw [h.length]; exact hklt)⟩
  obtain ⟨owner, debt, hshown, hlt, hpays⟩ := h.owed
  obtain ⟨hconfig, left, hsettles, hleft⟩ := (hpays k _ call hk hcall).2 m.state io h.grown
  by_cases hdebt : k = owner ∧ debt ≠ .none
  · -- the handler that owes pays a part
    obtain ⟨rfl, hne⟩ := hdebt
    rw [if_pos rfl] at hsettles
    refine ⟨k, left, settles_debt hsettles hconfig hne hshown, fun _ => hklt,
      owed_set hklt hcall hpays ?_ ?_⟩
    · intro j hj
      rw [if_neg hj, if_neg hj]
    · rw [if_pos rfl]
      exact hleft
  have hnone : (if k = owner then debt else .none) = Debt.none := by
    split
    · rename_i hko
      by_contra hne
      exact hdebt ⟨hko, hne⟩
    · rfl
  rw [hnone] at hsettles
  rcases settles_none hsettles hconfig with ⟨rfl, hkept⟩ | ⟨hmoved, htaken⟩
  · refine ⟨owner, debt, hkept debt hshown, hlt, owed_set hklt hcall hpays (fun _ _ => rfl) ?_⟩
    rw [hnone]
    exact hleft
  · -- the tip has moved, and nobody else was about to publish
    obtain ⟨hidle, hbatch⟩ := horder hmoved
    have hclear : ∀ j p other, m.threads[j]? = some p → calls[j]? = some other →
        Pays κ other.isBatch p (if j = k then Debt.none else .none) := by
      intro j p other hp hother
      rw [ite_self]
      exact (h.settled hidle).2 j p other hp hother
    refine ⟨k, left, htaken (fun hrole => hbatch hrole call hcall) hshown.isSome, fun _ => hklt,
      owed_set hklt hcall hclear ?_ ?_⟩
    · intro j hj
      rw [if_neg hj, if_neg hj]
    · rw [if_pos rfl]
      exact hleft

theorem advance (h : Accounts κ m calls) {k : Nat} {io : StorageIo}
    (horder : (m.move (Call.task κ) (.advance k io)).state.activeTip κ ≠ m.state.activeTip κ →
      (∀ p ∈ m.threads, ¬ Publishes p) ∧
      (m.state.config.hasRole .miner = true →
        ∀ call, calls[k]? = some call → call.isBatch = false)) :
    Accounts κ (m.move (Call.task κ) (.advance k io)) calls := by
  obtain ⟨hgrown, hkeeps⟩ := System.keeps_move keeps_grown h.grown h.keeps
    (e := .advance k io) fun _ _ _ => trivial
  rw [System.move] at hgrown hkeeps horder ⊢
  cases hk : m.threads[k]? with
  | none => exact h
  | some p =>
      cases p with
      | done => exact h
      | step act next =>
          rw [hk] at hgrown hkeeps horder
          obtain ⟨owner, debt, hshown, hlt, hpays⟩ := h.owed_advance hk horder
          refine ⟨hgrown, hkeeps, ?_, owner, debt, hshown, ?_, hpays⟩
          · rw [List.length_set]
            exact h.length
          · rw [List.length_set]
            exact hlt

end Accounts

theorem accounts_run (moves : List (Move Call StorageIo)) :
    ∀ {m : System NodeRuntime StorageIo Output} {calls : List Call}, Accounts κ m calls →
      Orderly κ m calls moves →
        ∃ calls', Accounts κ (m.run (Call.task κ) moves) calls' := by
  induction moves with
  | nil => intro m calls h _; exact ⟨calls, h⟩
  | cons e moves ih =>
      intro m calls h horder
      cases e with
      | start call => exact ih (h.start call) horder
      | advance k io => exact ih (h.advance horder.1) horder.2

/-- What a node publishes when it starts is its tip. -/
theorem accounts_startNetwork {config : RuntimeConfig} {directory : DataDirectory} {io : StartIo}
    {n : NodeRuntime} (hrole : config.hasRole .fullNode = true)
    (h : initializeNode κ config directory io = some n) :
    Accounts κ ⟨n.startNetwork κ, []⟩ [] := by
  have hconfig := (fresh_initializeNode h).1
  refine ⟨grown_startNetwork hrole h, fun p hp => absurd hp List.not_mem_nil, rfl, 0, .none, ?_,
    fun hne => absurd rfl hne, fun j p call hp => by cases hp⟩
  have hstarts : ¬ (¬ n.config.hasRole .fullNode = true ∧ ¬ n.config.hasRole .miner = true) := by
    rw [hconfig]
    exact fun hboth => hboth.1 hrole
  show Shown κ (n.startNetwork κ) .none
  rw [startNetwork, if_neg hstarts]
  refine ⟨rfl, fun hminer => ?_⟩
  have hminer : n.config.hasRole .miner = true := hminer
  rw [known]
  dsimp only
  rw [if_pos hminer]
  rfl

/-- In a run in which no tip change overtakes another, and no batch changes the tip of a
node that mines: with all handlers ended, the advertised tip is the active tip, and so is
the miner's view. -/
theorem advertised_tip (κ : Crypto) (config : RuntimeConfig)
    (hrole : config.hasRole .fullNode = true) (directory : DataDirectory) (io : StartIo)
    (start : NodeRuntime) (hstart : initializeNode κ config directory io = some start)
    (moves : List (Move Call StorageIo))
    (horder : Orderly κ ⟨start.startNetwork κ, []⟩ [] moves) :
    let m := System.run (Call.task κ) ⟨start.startNetwork κ, []⟩ moves
    (∀ p ∈ m.threads, p = .done) →
      ∃ chain view, m.state.chainStore = some chain ∧ m.state.network = some view ∧
        view.tipHeight = chain.blockchain.tip.height ∧
        view.tipBlockId = chain.blockchain.tip.id κ ∧
        (m.state.config.hasRole .miner = true →
          m.state.mining.knownHeight = chain.blockchain.tip.height ∧
          m.state.mining.knownTip = chain.blockchain.tip.id κ) := by
  intro m hdone
  obtain ⟨calls, haccounts⟩ := accounts_run moves (accounts_startNetwork hrole hstart) horder
  obtain ⟨⟨hadvertised, hminer⟩, -⟩ := haccounts.settled fun p hp hpublishes => by
    rw [hdone p hp] at hpublishes
    exact hpublishes
  obtain ⟨chain, pool, chainId, bs, hc, -, -⟩ := haccounts.grown
  rw [activeTip, startTip_of_some hc] at hadvertised hminer
  rw [advertised] at hadvertised
  obtain ⟨view, hview, heq⟩ := Option.map_eq_some_iff.mp hadvertised
  obtain ⟨hheight, hid⟩ := Prod.mk.inj heq
  exact ⟨chain, view, hc, hview, hheight, hid, fun hrole => Prod.mk.inj (hminer hrole)⟩

/-! ## A node that publishes an old tip -/

/-- A full node that mines, on the regression-test network. -/
def regtestFullMiner : RuntimeConfig where
  networkProfile := .regtest
  roles := [.fullNode, .miner]
  rewardAddress := some (Address.fromPublicKey reference minerKey)

/-- It has just started. -/
def fullMiner : NodeRuntime where
  config := regtestFullMiner
  chainStore := some ChainStore.genesisStore
  mempoolStore := some ⟨⟨{}, []⟩, []⟩

theorem initializeNode_fullMiner :
    initializeNode reference regtestFullMiner {} {} = some fullMiner := by
  have hchain : ChainStore.initializeStore reference regtestFullMiner.chainId {} {}
      = .ok ChainStore.genesisStore := by
    decide +kernel
  unfold initializeNode
  rw [if_neg (by decide), if_neg (by decide)]
  dsimp only
  rw [hchain]
  rfl

/-- A block on the sibling. -/
def siblingChild : Block := regtestBlock minedSibling 3 1627

/-- The mining thread appends the block it has found and is suspended; the network thread
takes the other block of that height and its child, and publishes the child; then the
mining thread goes on. -/
def overtakenMoves : List (Move Call StorageIo) :=
  [.start (.mined minedFirst), .advance 0 {}, .advance 0 {}, .advance 0 {},
    .start (.block 1 minedSibling.serialize), .advance 1 {}, .advance 1 {}, .advance 1 {},
    .start (.block 1 siblingChild.serialize), .advance 2 {}, .advance 2 {}, .advance 2 {},
    .advance 2 {}, .advance 2 {},
    .advance 0 {}, .advance 0 {}, .advance 0 {}, .advance 0 {}, .advance 0 {}]

def overtaken : System NodeRuntime StorageIo Output :=
  System.run (Call.task reference) ⟨fullMiner.startNetwork reference, []⟩ overtakenMoves

/-- All handlers have ended, the active tip has height two, and the advertised one and the
miner's view have height one. -/
theorem advertised_tip_stale :
    initializeNode reference regtestFullMiner {} {} = some fullMiner ∧
    (∀ p ∈ overtaken.threads, p = .done) ∧
    overtaken.state.chainStore.map (fun store => store.blockchain.tip.height) = some 2 ∧
    overtaken.state.network.map (fun view => view.tipHeight) = some 1 ∧
    overtaken.state.mining.knownHeight = 1 := by
  have hfacts : overtaken.threads.all Program.isDone = true ∧
      overtaken.state.chainStore.map (fun store => store.blockchain.tip.height) = some 2 ∧
      overtaken.state.network.map (fun view => view.tipHeight) = some 1 ∧
      overtaken.state.mining.knownHeight = 1 := by
    decide +kernel
  refine ⟨initializeNode_fullMiner, fun p hp => ?_, hfacts.2⟩
  exact Program.eq_done_of_isDone (List.all_eq_true.mp hfacts.1 p hp)

/-! ## A node on which one handler runs at a time -/

/-- Handlers that leave the tip alone are orderly. -/
theorem orderly_of_keeps {tip : UInt64 × Hash256} {calls : List Call}
    (moves : List (Move Call StorageIo)) :
    ∀ {m : System NodeRuntime StorageIo Output}, (∀ e ∈ moves, ∃ k io, e = .advance k io) →
      m.state.activeTip κ = tip →
      (∀ p ∈ m.threads, p.Keeps (fun _ => True) fun n => n.activeTip κ = tip) →
        Orderly κ m calls moves := by
  induction moves with
  | nil => intro m _ _ _; trivial
  | cons e moves ih =>
      intro m hmoves htip hkeeps
      obtain ⟨k, io, rfl⟩ := hmoves e List.mem_cons_self
      -- the calls do not matter for a move that starts none
      have hnext := System.keeps_move (fun _ : Call => Program.keeps_done) htip hkeeps
        (e := .advance k io) fun _ _ _ => trivial
      refine ⟨fun hmoved => absurd (hnext.1.trans htip.symm) hmoved, ?_⟩
      exact ih (fun e he => hmoves e (List.mem_cons_of_mem _ he)) hnext.1 hnext.2

theorem keeps_finishBlock (tip : UInt64 × Hash256) (peerId : UInt64) (block : Block)
    (submission : Bool) (outcome : AppendOutcome) :
    (finishBlock κ peerId block submission outcome).Keeps (fun _ => True)
      fun n => n.activeTip κ = tip := by
  unfold finishBlock
  split
  · exact Program.keeps_last fun _ _ _ hn => hn
  split
  · exact Program.keeps_last fun _ _ _ hn => hn
  refine Program.keeps_step (fun n _ _ hn => ?_) fun _ => ?_
  · refine (activeTip_congr (untouched_noteTip n _ _).chain ?_).trans hn
    rw [noteTip]
    split <;> rfl
  · refine Program.keeps_step (fun n _ _ hn => ?_) fun _ => ?_
    · exact (activeTip_congr rfl rfl).trans hn
    · exact Program.keeps_last fun _ _ _ hn => hn

/-- A block that is handled with no other handler under way. -/
theorem orderly_block {n : NodeRuntime} (hn : n.chainStore.isSome = true) {block : Block}
    {payload : Bytes} (hpayload : deserializeBlock κ payload = .ok block) (peerId : UInt64)
    (io : StorageIo) (moves : List (Move Call StorageIo))
    (hmoves : ∀ e ∈ moves, ∃ k io, e = .advance k io) :
    Orderly κ ⟨n, []⟩ [] (.start (.block peerId payload) :: .advance 0 io :: .advance 0 io ::
      moves) := by
  have htask : Call.task κ (.block peerId payload)
      = .step (fun n _ => (n, [], n.chainStore.isSome)) fun hasChainStore =>
          if ¬ hasChainStore then .last fun n _ => (n.observeBlock κ block, [])
          else .step (fun n io => n.appendSection κ block io)
            (finishBlock κ peerId block false) := by
    rw [Call.task, handleBlock, hpayload]
  show Orderly κ ⟨n, [Call.task κ (.block peerId payload)]⟩ [.block peerId payload] _
  rw [htask]
  refine ⟨fun hmoved => absurd rfl hmoved, ?_⟩
  show Orderly κ ⟨n, [if ¬ n.chainStore.isSome then _ else _]⟩ _ _
  rw [if_neg (not_not.mpr hn)]
  refine ⟨fun _ => ⟨?_, ?_⟩, ?_⟩
  · intro p hp hpublishes
    cases List.mem_singleton.mp hp
    obtain ⟨s, io, hpublished⟩ := hpublishes
    obtain ⟨hadvertised, hknown, -⟩ := still_appendSection (κ := κ) s block io
    exact hpublished.elim (absurd hadvertised) (absurd hknown)
  · intro _ call hcall
    cases hcall
    rfl
  · refine orderly_of_keeps moves hmoves rfl fun p hp => ?_
    cases List.mem_singleton.mp hp
    exact keeps_finishBlock _ peerId block false _

/-- A peer's block is handled to the end. -/
def relayedMoves : List (Move Call StorageIo) :=
  [.start (.block 1 minedFirst.serialize), .advance 0 {}, .advance 0 {}, .advance 0 {},
    .advance 0 {}, .advance 0 {}]

def relayed : System NodeRuntime StorageIo Output :=
  System.run (Call.task reference) ⟨fullMiner.startNetwork reference, []⟩ relayedMoves

theorem advertised_tip_relayed :
    Orderly reference ⟨fullMiner.startNetwork reference, []⟩ [] relayedMoves ∧
    (∀ p ∈ relayed.threads, p = .done) ∧
    relayed.state.mining.knownHeight = 1 ∧
    ∃ chain view, relayed.state.chainStore = some chain ∧ relayed.state.network = some view ∧
      view.tipHeight = chain.blockchain.tip.height ∧
      view.tipBlockId = chain.blockchain.tip.id reference ∧
      (relayed.state.config.hasRole .miner = true →
        relayed.state.mining.knownHeight = chain.blockchain.tip.height ∧
        relayed.state.mining.knownTip = chain.blockchain.tip.id reference) := by
  have horder : Orderly reference ⟨fullMiner.startNetwork reference, []⟩ [] relayedMoves := by
    have hpayload : deserializeBlock reference minedFirst.serialize = .ok minedFirst := by
      decide +kernel
    refine orderly_block rfl hpayload 1 {} _ fun e he => ?_
    simp only [List.mem_cons, List.not_mem_nil, or_false, or_self] at he
    exact ⟨0, {}, he⟩
  have hfacts : relayed.threads.all Program.isDone = true ∧
      relayed.state.mining.knownHeight = 1 := by
    decide +kernel
  have hdone : ∀ p ∈ relayed.threads, p = .done := fun p hp =>
    Program.eq_done_of_isDone (List.all_eq_true.mp hfacts.1 p hp)
  have htip := advertised_tip reference regtestFullMiner (by decide) {} {} fullMiner
    initializeNode_fullMiner relayedMoves horder
  dsimp only at htip
  rw [← relayed] at htip
  exact ⟨horder, hdone, hfacts.2, htip hdone⟩

end NodeRuntime

end BBC
