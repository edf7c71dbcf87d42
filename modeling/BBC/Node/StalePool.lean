/-
# `BBC.Node.StalePool` — a pool whose table could not be rewritten

When a block changes the active chain, `update_mempool_after_chain_change` reconciles the
pool in the same section.  `reconcile_reorganization` replaces the pool only after its table
has been rewritten, and a failure is reported and nothing else: the block stays appended, and
the pool stays on the state before it.

    rewrite commits    pool's accounts = the active chain's    a template applies
    rewrite fails      pool's accounts lag behind              a template may pay twice

`written` follows a run and says whether the last section that moved the tip had its rewrite
committed.  What tells the two rows apart in a state is the money: every block adds a subsidy,
so a copy that lags behind holds less of it.
-/
import BBC.Node.InStep
import BBC.Node.Mining

namespace BBC

open Sections (Program Move System)

namespace NodeRuntime

variable {κ : Crypto} {chainId : UInt32}

/-! ## The pool's copy, current or behind -/

/-- The pool of a replayed chain; `current` says that its copy is the active state. -/
structure Copied (κ : Crypto) (chainId : UInt32) (current : Bool) (chain : ChainStore)
    (pool : MempoolStore) : Prop where
  replayed : ∃ bs, chain.blockchain = Blockchain.replay κ chainId bs
  admitted : pool.mempool.Inv κ
  same : current = true → pool.mempool.chainState = chain.blockchain.state
  behind : current = false →
    supply pool.mempool.chainState.accounts < supply chain.blockchain.state.accounts

theorem Copied.supply_le {current : Bool} {chain : ChainStore} {pool : MempoolStore}
    (h : Copied κ chainId current chain pool) :
    supply pool.mempool.chainState.accounts ≤ supply chain.blockchain.state.accounts := by
  cases current with
  | true => exact Nat.le_of_eq (by rw [h.same rfl])
  | false => exact Nat.le_of_lt (h.behind rfl)

/-- A higher tip means more money. -/
theorem supply_lt_of_height_lt {c d : Blockchain} (hc : c.Inv κ chainId) (hd : d.Inv κ chainId)
    (h : c.tip.height < d.tip.height) : supply c.state.accounts < supply d.state.accounts := by
  rw [hc.supply_state, hd.supply_state, blockSubsidy_toNat]
  have := UInt64.lt_iff_toNat_lt.mp h
  omega

/-- A reconciliation brings the copy up to date if its rewrite is committed; else the pool is
the old one. -/
theorem Copied.reconciled {current : Bool} {chain next : ChainStore} {pool : MempoolStore}
    (h : Copied κ chainId current chain pool)
    (hnext : ∃ bs, next.blockchain = Blockchain.replay κ chainId bs)
    (hlt : chain.blockchain.tip.height < next.blockchain.tip.height) (detached : List Block)
    (outcome : Bool) :
    Copied κ chainId outcome next
      (pool.reconcileReorganization κ next.blockchain.state detached outcome).1 := by
  cases outcome with
  | true =>
      rw [MempoolStore.reconcileReorganization_fst]
      have hinv := MempoolStore.inv_reconciled κ pool next.blockchain.state detached
      exact ⟨hnext, hinv.1, fun _ => hinv.2, fun hfalse => absurd hfalse (by decide)⟩
  | false =>
      have hkept : (pool.reconcileReorganization κ next.blockchain.state detached false).1
          = pool := rfl
      rw [hkept]
      refine ⟨hnext, h.admitted, fun htrue => absurd htrue (by decide), fun _ => ?_⟩
      obtain ⟨bs, hbs⟩ := h.replayed
      obtain ⟨ds, hds⟩ := hnext
      have hold : chain.blockchain.Inv κ chainId := by
        rw [hbs]
        exact Blockchain.inv_replay κ chainId bs
      have hnew : next.blockchain.Inv κ chainId := by
        rw [hds]
        exact Blockchain.inv_replay κ chainId ds
      exact Nat.lt_of_le_of_lt h.supply_le (supply_lt_of_height_lt hold hnew hlt)

/-! ## One section -/

/-- The stores of a full node, with the flag. -/
def Holds (κ : Crypto) (chainId : UInt32) (current : Bool) (n : NodeRuntime) : Prop :=
  ∃ chain pool, n.chainStore = some chain ∧ n.mempoolStore = some pool ∧
    Copied κ chainId current chain pool

/-- Where sections with one outcome of the rewrite can lead from a node with this tip and this
flag: the tip is still there and so is the flag, or the tip has risen and the flag is the
outcome. -/
def Since (κ : Crypto) (chainId : UInt32) (tip : Block) (current outcome : Bool)
    (n : NodeRuntime) : Prop :=
  (n.startTip κ = tip ∧ n.Holds κ chainId current) ∨
    (tip.height < (n.startTip κ).height ∧ n.Holds κ chainId outcome)

theorem Holds.congr {current : Bool} {n m : NodeRuntime} (h : n.Holds κ chainId current)
    (hchain : m.chainStore = n.chainStore) (hpool : m.mempoolStore = n.mempoolStore) :
    m.Holds κ chainId current := by
  obtain ⟨chain, pool, hc, hp, hcopied⟩ := h
  exact ⟨chain, pool, hchain.trans hc, hpool.trans hp, hcopied⟩

theorem startTip_congr {n m : NodeRuntime} (hsome : n.chainStore.isSome = true)
    (hchain : m.chainStore = n.chainStore) : m.startTip κ = n.startTip κ := by
  obtain ⟨chain, hc⟩ := Option.isSome_iff_exists.mp hsome
  rw [startTip_of_some hc, startTip_of_some (hchain.trans hc)]

theorem Holds.isSome {current : Bool} {n : NodeRuntime} (h : n.Holds κ chainId current) :
    n.chainStore.isSome = true := by
  obtain ⟨chain, pool, hc, -, -⟩ := h
  rw [hc]
  rfl

theorem Since.congr {tip : Block} {current outcome : Bool} {n m : NodeRuntime}
    (h : n.Since κ chainId tip current outcome) (hchain : m.chainStore = n.chainStore)
    (hpool : m.mempoolStore = n.mempoolStore) : m.Since κ chainId tip current outcome := by
  rcases h with ⟨htip, hholds⟩ | ⟨hlt, hholds⟩
  · exact Or.inl ⟨(startTip_congr hholds.isSome hchain).trans htip, hholds.congr hchain hpool⟩
  · refine Or.inr ⟨?_, hholds.congr hchain hpool⟩
    rw [startTip_congr hholds.isSome hchain]
    exact hlt

/-- An `append` leaves tip and flag, or raises the tip and sets the flag. -/
theorem Holds.appendSection {current : Bool} {n : NodeRuntime} (h : n.Holds κ chainId current)
    (block : Block) (io : StorageIo) :
    (n.appendSection κ block io).1.Since κ chainId (n.startTip κ) current io.mempoolOk := by
  obtain ⟨chain, pool, hc, hp, hcopied⟩ := h
  rw [startTip_of_some hc]
  obtain ⟨next, hnext, hgrown, ⟨htip, hsame, hkept⟩ | ⟨hlt, detached, hreconciled⟩⟩ :=
    appendSection_cases hc hp hcopied.replayed block io
  · refine Or.inl ⟨(startTip_of_some hnext).trans htip, next, pool, hnext, hkept, ?_⟩
    refine ⟨hgrown, hcopied.admitted, ?_, ?_⟩
    · rw [hsame]
      exact hcopied.same
    · rw [hsame]
      exact hcopied.behind
  · refine Or.inr ⟨?_, next, _, hnext, hreconciled, hcopied.reconciled hgrown hlt detached _⟩
    rw [startTip_of_some hnext]
    exact hlt

theorem Holds.addSection {current : Bool} {n : NodeRuntime} (h : n.Holds κ chainId current)
    (t : SignedTransaction) (io : StorageIo) :
    (n.addSection κ t io).1.chainStore = n.chainStore ∧
      (n.addSection κ t io).1.Holds κ chainId current := by
  obtain ⟨chain, pool, hc, hp, hcopied⟩ := h
  obtain ⟨next, hchain, hnext, hinv, hsame⟩ := addSection_cases hc hp hcopied.admitted t io
  refine ⟨hchain.trans hc.symm, chain, next, hchain, hnext, hcopied.replayed, hinv, ?_, ?_⟩
  · rw [hsame]
    exact hcopied.same
  · rw [hsame]
    exact hcopied.behind

/-- Every handler stays within `Since` as long as its rewrites have the one outcome. -/
theorem stable_since (tip : Block) (current outcome : Bool) :
    Stable κ (fun io => io.mempoolOk = outcome) (fun _ => True)
      (Since κ chainId tip current outcome) where
  congr h hn := hn.congr h.chain h.pool
  append := by
    intro n io block _ hio h
    rcases h with ⟨htip, hholds⟩ | ⟨hlt, hholds⟩
    · have hafter := hholds.appendSection block io
      rw [htip, hio] at hafter
      exact hafter
    · rcases hholds.appendSection block io with ⟨hsame, hafter⟩ | ⟨hrisen, hafter⟩
      · refine Or.inr ⟨?_, hafter⟩
        rw [hsame]
        exact hlt
      · refine Or.inr ⟨UInt64.lt_trans hlt hrisen, ?_⟩
        rw [hio] at hafter
        exact hafter
  verified _ := trivial
  add := by
    intro n io t _ _ h
    rcases h with ⟨htip, hholds⟩ | ⟨hlt, hholds⟩
    · obtain ⟨hchain, hafter⟩ := hholds.addSection t io
      exact Or.inl ⟨(startTip_congr hholds.isSome hchain).trans htip, hafter⟩
    · obtain ⟨hchain, hafter⟩ := hholds.addSection t io
      refine Or.inr ⟨?_, hafter⟩
      rw [startTip_congr hholds.isSome hchain]
      exact hlt

/-! ## Runs -/

/-- The flag after one move: where the tip has moved, it is the outcome of the rewrite. -/
def writtenStep (κ : Crypto) (current : Bool) (m : System NodeRuntime StorageIo Output) :
    Move Call StorageIo → Bool
  | .start _ => current
  | .advance k io =>
      if (m.move (Call.task κ) (.advance k io)).state.startTip κ = m.state.startTip κ then current
      else io.mempoolOk

/-- Whether the last section of a run that moved the tip had its rewrite committed. -/
def written (κ : Crypto) (current : Bool) (m : System NodeRuntime StorageIo Output) :
    List (Move Call StorageIo) → Bool
  | [] => current
  | e :: moves =>
      written κ (writtenStep κ current m e) (m.move (Call.task κ) e) moves

/-- In particular if they all have. -/
theorem written_of_committed (moves : List (Move Call StorageIo)) :
    ∀ {m : System NodeRuntime StorageIo Output},
      (∀ k io, Move.advance k io ∈ moves → io.mempoolOk = true) →
      written κ true m moves = true := by
  induction moves with
  | nil => intro m _; rfl
  | cons e moves ih =>
      intro m hcommitted
      have hstep : writtenStep κ true m e = true := by
        cases e with
        | start call => rfl
        | advance k io =>
            rw [writtenStep, hcommitted k io List.mem_cons_self]
            exact ite_self true
      rw [written, hstep]
      exact ih fun k io hmem => hcommitted k io (List.mem_cons_of_mem e hmem)

/-- Every section of the thread stays within `Since`, from wherever it starts. -/
def Tame (κ : Crypto) (chainId : UInt32) (p : Task) : Prop :=
  ∀ (tip : Block) (current outcome : Bool),
    p.Keeps (fun io => io.mempoolOk = outcome) (Since κ chainId tip current outcome)

theorem tame_call (call : Call) : Tame κ chainId (call.task κ) := by
  intro tip current outcome
  exact (stable_since tip current outcome).keeps_call call (fun _ _ => trivial)
    fun _ _ _ hn => hn.congr rfl rfl

theorem holds_move {m : System NodeRuntime StorageIo Output} {current : Bool}
    (hstate : m.state.Holds κ chainId current) (hthreads : ∀ p ∈ m.threads, Tame κ chainId p)
    (e : Move Call StorageIo) :
    (m.move (Call.task κ) e).state.Holds κ chainId (writtenStep κ current m e) ∧
      ∀ p ∈ (m.move (Call.task κ) e).threads, Tame κ chainId p := by
  constructor
  · cases e with
    | start call => exact hstate
    | advance k io =>
        have hstart : m.state.Since κ chainId (m.state.startTip κ) current io.mempoolOk :=
          Or.inl ⟨rfl, hstate⟩
        have hafter := (System.keeps_move (fun call => tame_call call _ _ _) hstart
          (fun p hp => hthreads p hp _ _ _) (e := .advance k io)
          fun _ _ heq => by cases heq; rfl).1
        rw [writtenStep]
        rcases hafter with ⟨htip, hholds⟩ | ⟨hlt, hholds⟩
        · rw [if_pos htip]
          exact hholds
        · rw [if_neg fun htip => ?_]
          · exact hholds
          · rw [htip] at hlt
            exact UInt64.lt_irrefl _ hlt
  · intro p hp tip current outcome
    exact System.keeps_threads (fun call => tame_call call _ _ _)
      (fun p hp => hthreads p hp _ _ _) e p hp

theorem holds_run (moves : List (Move Call StorageIo)) :
    ∀ {m : System NodeRuntime StorageIo Output} {current : Bool},
      m.state.Holds κ chainId current → (∀ p ∈ m.threads, Tame κ chainId p) →
      (m.run (Call.task κ) moves).state.Holds κ chainId (written κ current m moves) := by
  induction moves with
  | nil => intro m current hstate _; exact hstate
  | cons e moves ih =>
      intro m current hstate hthreads
      obtain ⟨hnext, htame⟩ := holds_move hstate hthreads e
      exact ih hnext htame

/-! ## Templates and admissions -/

/-- The body of a template is what it was given. -/
theorem body_of_createTemplate {tip candidate : Block} {reward : Address}
    {transactions : List SignedTransaction}
    (h : createTemplate κ tip reward transactions = .ok candidate) :
    candidate.isGenesis = false ∧ candidate.rewardRecipient = some reward ∧
      candidate.transactions = transactions := by
  obtain ⟨-, -, hheight, -, -, rfl⟩ := Block.createBlock_ok h
  exact ⟨beq_eq_false_iff_ne.mpr hheight, rfl, rfl⟩

/-- A full node in any state it can reach: its pool checks admissions against the accounts of
the active chain, and (while one more subsidy fits) its templates apply to the active state, if
and only if the last section that moved the tip had the rewrite of `mempool.db` committed. -/
theorem checked_against_active_iff (κ : Crypto) (config : RuntimeConfig)
    (hrole : config.hasRole .fullNode = true) (directory : DataDirectory) (io : StartIo)
    (start : NodeRuntime) (hstart : initializeNode κ config directory io = some start)
    (moves : List (Move Call StorageIo)) :
    let m : System NodeRuntime StorageIo Output := ⟨start.startNetwork κ, []⟩
    let n := (m.run (Call.task κ) moves).state
    ∃ chain pool, n.chainStore = some chain ∧ n.mempoolStore = some pool ∧
      (((∀ address, pool.mempool.chainState.account address
            = chain.blockchain.state.account address) ∧
          ((chain.blockchain.tip.height.toNat + 1) * blockSubsidy.toNat ≤ 2 ^ 64 - 1 →
            ∀ reward candidate, createTemplate κ chain.blockchain.tip reward
                (n.selectedTransactions κ) = .ok candidate →
              ∃ next, applyBlockState κ chain.blockchain.state candidate = .ok next)) ↔
        written κ true m moves = true) := by
  intro m n
  have hinit : m.state.Holds κ config.chainId true := by
    obtain ⟨chain, pool, hc, hp, hreplayed, hpool, hstate⟩ :=
      (inStep_initializeNode hrole hstart).startNetwork
    exact ⟨chain, pool, hc, hp, hreplayed, hpool, fun _ => hstate,
      fun hfalse => absurd hfalse (by decide)⟩
  have hn : n.Holds κ config.chainId (written κ true m moves) :=
    holds_run moves hinit fun _ hp => absurd hp List.not_mem_nil
  obtain ⟨chain, pool, hc, hp, hcopied⟩ := hn
  refine ⟨chain, pool, hc, hp, ?_, ?_⟩
  · -- the accounts agree, so the money does, and a copy that lags has less of it
    rintro ⟨haccounts, -⟩
    by_contra hfailed
    have hbehind := hcopied.behind (Bool.not_eq_true _ ▸ hfailed)
    have hequal : supply pool.mempool.chainState.accounts
        = supply chain.blockchain.state.accounts :=
      supply_congr fun address => haccounts ⟨address⟩
    omega
  · intro hwritten
    have hstate := hcopied.same hwritten
    refine ⟨fun address => by rw [hstate], ?_⟩
    intro hheight reward candidate hcreated
    obtain ⟨hgenesis, hreward, hbody⟩ := body_of_createTemplate hcreated
    have hinv : chain.blockchain.Inv κ config.chainId := by
      obtain ⟨bs, hbs⟩ := hcopied.replayed
      rw [hbs]
      exact Blockchain.inv_replay κ config.chainId bs
    refine hcopied.admitted.applies_select hinv hstate hheight (Nat.le_refl 1000)
      hgenesis hreward ?_
    rw [hbody, selectedTransactions, hp]
    rfl

/-- The rewrite is committed, and the copy is current. -/
theorem checked_against_active_iff_committed :
    ∃ start, initializeNode reference regtestFullNode {} {} = some start ∧
      let m : System NodeRuntime StorageIo Output := ⟨start.startNetwork reference, []⟩
      let n := (m.run (Call.task reference) (confirmedPayment true)).state
      ∃ chain pool, n.chainStore = some chain ∧ n.mempoolStore = some pool ∧
        (∀ address, pool.mempool.chainState.account address
          = chain.blockchain.state.account address) ∧
        ((chain.blockchain.tip.height.toNat + 1) * blockSubsidy.toNat ≤ 2 ^ 64 - 1 →
          ∀ reward candidate, createTemplate reference chain.blockchain.tip reward
              (n.selectedTransactions reference) = .ok candidate →
            ∃ next, applyBlockState reference chain.blockchain.state candidate = .ok next) := by
  refine ⟨_, initializeNode_regtestFullNode, ?_⟩
  obtain ⟨chain, pool, hc, hp, hiff⟩ := checked_against_active_iff reference regtestFullNode
    (by decide) {} {} _ initializeNode_regtestFullNode (confirmedPayment true)
  refine ⟨chain, pool, hc, hp, hiff.mpr (written_of_committed _ ?_)⟩
  intro k io hmem
  simp only [confirmedPayment, List.mem_cons, List.not_mem_nil, or_false, reduceCtorEq, false_or,
    Move.advance.injEq] at hmem
  rcases hmem with ⟨-, rfl⟩ | ⟨-, rfl⟩ | ⟨-, rfl⟩ | ⟨-, rfl⟩ | ⟨-, rfl⟩ | ⟨-, rfl⟩ <;> rfl

theorem ok_of_toOption {ε α : Type} {e : Except ε α} {a : α} (h : e.toOption = some a) :
    e = .ok a := by
  cases e with
  | error e => cases h
  | ok b =>
      cases h
      rfl

/-- The node after the failed rewrite and its next template, evaluated. -/
theorem template_after_failure :
    let m : System NodeRuntime StorageIo Output :=
      ⟨NodeRuntime.startNetwork reference
        { config := regtestFullNode
          chainStore := some ChainStore.genesisStore
          mempoolStore := some ⟨⟨{}, []⟩, []⟩ }, []⟩
    let n := (m.run (Call.task reference) (confirmedPayment false)).state
    let miner := Address.fromPublicKey reference minerKey
    (n.chainStore.any fun chain => n.mempoolStore.any fun pool =>
      (createTemplate reference chain.blockchain.tip miner
        (n.selectedTransactions reference)).toOption.any fun candidate =>
        decide (chain.blockchain.tip = minedPayment ∧ candidate.transactions = [minerPayment] ∧
          applyBlockState reference chain.blockchain.state candidate
            = .error ⟨.invalidAccountNonce, some 0⟩ ∧
          pool.mempool.chainState.account miner = ⟨5000000000, 0⟩ ∧
          chain.blockchain.state.account miner = ⟨7500000000, 1⟩)) = true := by
  decide +kernel

/-- The rewrite fails: the next template pays the confirmed payment once more and does not
apply, and the pool checks the miner's transactions against its account before the block. -/
theorem payment_selected_again :
    ∃ start, initializeNode reference regtestFullNode {} {} = some start ∧
      let m : System NodeRuntime StorageIo Output := ⟨start.startNetwork reference, []⟩
      let n := (m.run (Call.task reference) (confirmedPayment false)).state
      let miner := Address.fromPublicKey reference minerKey
      ∃ chain pool candidate, n.chainStore = some chain ∧ n.mempoolStore = some pool ∧
        chain.blockchain.tip = minedPayment ∧
        createTemplate reference chain.blockchain.tip miner (n.selectedTransactions reference)
          = .ok candidate ∧
        candidate.transactions = [minerPayment] ∧
        applyBlockState reference chain.blockchain.state candidate
          = .error ⟨.invalidAccountNonce, some 0⟩ ∧
        pool.mempool.chainState.account miner = ⟨5000000000, 0⟩ ∧
        chain.blockchain.state.account miner = ⟨7500000000, 1⟩ := by
  refine ⟨_, initializeNode_regtestFullNode, ?_⟩
  intro m n miner
  -- with the values in place of the names the kernel compares terms and evaluates nothing again
  subst m n miner
  obtain ⟨chain, hc, hpools⟩ := (Option.any_eq_true _ _).mp template_after_failure
  obtain ⟨pool, hp, hcandidates⟩ := (Option.any_eq_true _ _).mp hpools
  obtain ⟨candidate, hcreated, hvalues⟩ := (Option.any_eq_true _ _).mp hcandidates
  obtain ⟨htip, hbody, hrefused, hbehind, hactive⟩ := of_decide_eq_true hvalues
  exact ⟨chain, pool, candidate, hc, hp, htip, ok_of_toOption hcreated, hbody, hrefused, hbehind,
    hactive⟩

end NodeRuntime

end BBC
