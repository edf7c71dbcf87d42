/-
# `BBC.Mempool.Selection` — what `select` offers a miner

`Mempool::select` keeps one queue per sender and repeatedly takes the queue head
with the highest fee (the smaller id on a tie).  Fees decide how the senders are
interleaved; within one sender the pool's own order survives, so for each sender
the selection is an initial piece of what is pending (`select_filter`).

Admission looks at confirmed balances and consensus applies the transactions one
after another.  The two meet in `Affordable`: an initial piece of each sender's
queue is affordable, and an affordable body passes in any interleaving.
-/
import BBC.Mempool.Basic
import BBC.Chain.ArrivalOrder

namespace BBC

namespace Mempool

/-! ## `select` -/

/-- `SenderQueue`. -/
structure SenderQueue where
  transactionIndices : List Nat := []
  next : Nat := 0

abbrev Queues := Std.ExtTreeMap Hash256 SenderQueue

/-- `queues[sender].transaction_indices.push_back(index)`. -/
def enqueue (κ : Crypto) (queues : Queues) (entry : SignedTransaction × Nat) : Queues :=
  let sender := (entry.1.sender κ).hash
  let queue := queues.getD sender {}
  queues.insert sender { queue with transactionIndices := queue.transactionIndices ++ [entry.2] }

/-- The first loop: one queue per sender, in pool order. -/
def buildQueues (κ : Crypto) (transactions : List SignedTransaction) : Queues :=
  transactions.zipIdx.foldl (enqueue κ) ∅

/-- The transaction at the head of a queue, unless the queue is used up. -/
def candidate (transactions : List SignedTransaction) (queue : SenderQueue) :
    Option SignedTransaction :=
  queue.transactionIndices[queue.next]?.bind fun index => transactions[index]?

/-- A higher fee, or the same fee and a smaller id. -/
def better (κ : Crypto) (value best : SignedTransaction) : Bool :=
  best.fee < value.fee || (value.fee == best.fee && (value.id κ).lessThan (best.id κ))

/-- The scan over the queues in key order; `best` is the best head so far. -/
def bestQueue (κ : Crypto) (transactions : List SignedTransaction) :
    List (Hash256 × SenderQueue) → Option (Hash256 × SignedTransaction) →
      Option (Hash256 × SignedTransaction)
  | [], best => best
  | (sender, queue) :: rest, best =>
      match candidate transactions queue, best with
      | none, best => bestQueue κ transactions rest best
      | some value, none => bestQueue κ transactions rest (some (sender, value))
      | some value, some (holder, current) =>
          if better κ value current then bestQueue κ transactions rest (some (sender, value))
          else bestQueue κ transactions rest (some (holder, current))

/-- `++best_queue->next`. -/
def advance (queues : Queues) (sender : Hash256) : Queues :=
  let queue := queues.getD sender {}
  queues.insert sender { queue with next := queue.next + 1 }

/-- The `while`; its counter is `maximum_count - selected.size()`. -/
def selectLoop (κ : Crypto) (transactions : List SignedTransaction) :
    Nat → Queues → List SignedTransaction
  | 0, _ => []
  | count + 1, queues =>
      match bestQueue κ transactions queues.toList none with
      | none => []
      | some (sender, value) => value :: selectLoop κ transactions count (advance queues sender)

/-- `Mempool::select`. -/
def select (κ : Crypto) (m : Mempool) (maximumCount : Nat) : List SignedTransaction :=
  selectLoop κ m.transactions maximumCount (buildQueues κ m.transactions)

variable {κ : Crypto} {transactions : List SignedTransaction}

/-! ## The queues -/

/-- What is left in the queue of a sender. -/
def remaining (transactions : List SignedTransaction) (queues : Queues) (sender : Hash256) :
    List SignedTransaction :=
  let queue := queues.getD sender {}
  (queue.transactionIndices.drop queue.next).filterMap fun index => transactions[index]?

/-- Every queue holds indices of its own sender's transactions. -/
def QueuesOf (κ : Crypto) (transactions : List SignedTransaction) (queues : Queues) : Prop :=
  ∀ sender, ∀ index ∈ (queues.getD sender {}).transactionIndices,
    ∃ t, transactions[index]? = some t ∧ (t.sender κ).hash = sender

theorem getD_foldl_enqueue (entries : List (SignedTransaction × Nat)) :
    ∀ (queues : Queues) (sender : Hash256),
      (entries.foldl (enqueue κ) queues).getD sender {} =
        { transactionIndices := (queues.getD sender {}).transactionIndices
            ++ (entries.filter fun e => (e.1.sender κ).hash = sender).map Prod.snd
          next := (queues.getD sender {}).next } := by
  induction entries with
  | nil =>
      intro queues sender
      simp
  | cons e entries ih =>
      intro queues sender
      rw [List.foldl_cons, ih, enqueue, MapSum.getD_insert]
      by_cases hs : (e.1.sender κ).hash = sender
      · subst hs
        simp
      · simp [hs]

theorem getElem?_of_mem_zipIdx {e : SignedTransaction × Nat} (h : e ∈ transactions.zipIdx) :
    transactions[e.2]? = some e.1 :=
  List.mem_zipIdx_iff_getElem?.mp h

theorem getD_buildQueues (sender : Hash256) :
    (buildQueues κ transactions).getD sender {} =
      { transactionIndices :=
          (transactions.zipIdx.filter fun e => (e.1.sender κ).hash = sender).map Prod.snd
        next := 0 } := by
  rw [buildQueues, getD_foldl_enqueue]
  simp

theorem queuesOf_buildQueues : QueuesOf κ transactions (buildQueues κ transactions) := by
  intro sender index hindex
  rw [getD_buildQueues] at hindex
  obtain ⟨e, he, rfl⟩ := List.mem_map.mp hindex
  obtain ⟨hmem, hs⟩ := List.mem_filter.mp he
  exact ⟨e.1, getElem?_of_mem_zipIdx hmem, of_decide_eq_true hs⟩

theorem filterMap_snd (entries : List (SignedTransaction × Nat)) :
    (∀ e ∈ entries, transactions[e.2]? = some e.1) →
      (entries.map Prod.snd).filterMap (fun index => transactions[index]?)
        = entries.map Prod.fst := by
  induction entries with
  | nil => intro _; rfl
  | cons e entries ih =>
      intro h
      obtain ⟨he, hrest⟩ := List.forall_mem_cons.mp h
      rw [List.map_cons, List.filterMap_cons_some he, ih hrest, List.map_cons]

/-- At the start a queue holds all that its sender has pending. -/
theorem remaining_buildQueues (sender : Hash256) :
    remaining transactions (buildQueues κ transactions) sender
      = transactions.filter fun t => (t.sender κ).hash = sender := by
  simp only [remaining, getD_buildQueues, List.drop_zero]
  rw [filterMap_snd _ fun e he => getElem?_of_mem_zipIdx (List.mem_filter.mp he).1]
  have hfst : transactions.zipIdx.map Prod.fst = transactions := by simp
  conv_rhs => rw [← hfst, List.filter_map]
  rfl

/-- The candidate of a queue is the first of what remains, and leaves the rest. -/
theorem remaining_of_candidate {queues : Queues} (h : QueuesOf κ transactions queues)
    {sender : Hash256} {value : SignedTransaction}
    (hv : candidate transactions (queues.getD sender {}) = some value) :
    (value.sender κ).hash = sender ∧
      remaining transactions queues sender
        = value :: remaining transactions (advance queues sender) sender := by
  obtain ⟨index, hindex, hvalue⟩ := Option.bind_eq_some_iff.mp hv
  obtain ⟨hlt, hget⟩ := List.getElem?_eq_some_iff.mp hindex
  have hmem : index ∈ (queues.getD sender {}).transactionIndices := List.mem_of_getElem? hindex
  obtain ⟨t, ht, hsender⟩ := h sender index hmem
  have hvt : value = t := Option.some.inj (hvalue.symm.trans ht)
  refine ⟨by rw [hvt]; exact hsender, ?_⟩
  simp only [remaining, advance, MapSum.getD_insert, if_pos]
  rw [List.drop_eq_getElem_cons hlt, hget, List.filterMap_cons_some hvalue]

theorem remaining_advance_other {queues : Queues} {sender other : Hash256} (h : sender ≠ other) :
    remaining transactions (advance queues sender) other = remaining transactions queues other := by
  simp only [remaining, advance, MapSum.getD_insert, if_neg h]

theorem QueuesOf.advance {queues : Queues} (h : QueuesOf κ transactions queues)
    (sender : Hash256) : QueuesOf κ transactions (Mempool.advance queues sender) := by
  intro other index hindex
  rw [Mempool.advance, MapSum.getD_insert] at hindex
  by_cases hs : sender = other
  · subst hs
    rw [if_pos rfl] at hindex
    exact h sender index hindex
  · rw [if_neg hs] at hindex
    exact h other index hindex

/-! ## The loop -/

/-- The scan returns the head of one of the queues. -/
theorem bestQueue_mem (queues : List (Hash256 × SenderQueue)) :
    ∀ {best : Option (Hash256 × SignedTransaction)} {sender : Hash256} {value : SignedTransaction},
      bestQueue κ transactions queues best = some (sender, value) →
        best = some (sender, value) ∨
          ∃ queue, (sender, queue) ∈ queues ∧ candidate transactions queue = some value := by
  induction queues with
  | nil =>
      intro best sender value h
      exact Or.inl h
  | cons e queues ih =>
      intro best sender value h
      obtain ⟨s, queue⟩ := e
      have hlater : (∃ q, (sender, q) ∈ queues ∧ candidate transactions q = some value) →
          ∃ q, (sender, q) ∈ (s, queue) :: queues ∧ candidate transactions q = some value := by
        rintro ⟨q, hq, hc⟩
        exact ⟨q, List.mem_cons_of_mem _ hq, hc⟩
      have hhere : ∀ v, candidate transactions queue = some v →
          some (s, v) = some (sender, value) →
          ∃ q, (sender, q) ∈ (s, queue) :: queues ∧ candidate transactions q = some value := by
        intro v hv heq
        cases heq
        exact ⟨queue, List.mem_cons_self, hv⟩
      cases hv : candidate transactions queue with
      | none =>
          simp only [bestQueue, hv] at h
          exact (ih h).imp_right hlater
      | some v =>
          cases best with
          | none =>
              simp only [bestQueue, hv] at h
              rcases ih h with heq | hq
              · exact Or.inr (hhere v hv heq)
              · exact Or.inr (hlater hq)
          | some current =>
              simp only [bestQueue, hv] at h
              split at h
              · rcases ih h with heq | hq
                · exact Or.inr (hhere v hv heq)
                · exact Or.inr (hlater hq)
              · exact (ih h).imp_right hlater

theorem candidate_of_bestQueue {queues : Queues} {sender : Hash256} {value : SignedTransaction}
    (h : bestQueue κ transactions queues.toList none = some (sender, value)) :
    candidate transactions (queues.getD sender {}) = some value := by
  rcases bestQueue_mem _ h with hnone | ⟨queue, hmem, hc⟩
  · cases hnone
  · have hqueue : queues.getD sender {} = queue := by
      rw [Std.ExtTreeMap.getD_eq_getD_getElem?, MapSum.mem_toList.mp hmem]
      rfl
    rw [hqueue]
    exact hc

/-- For each sender the loop takes an initial piece of what remains in its queue. -/
theorem selectLoop_filter (count : Nat) :
    ∀ {queues : Queues}, QueuesOf κ transactions queues → ∀ sender, ∃ k,
      ((selectLoop κ transactions count queues).filter fun t => (t.sender κ).hash = sender)
        = (remaining transactions queues sender).take k := by
  induction count with
  | zero =>
      intro queues _ sender
      exact ⟨0, rfl⟩
  | succ count ih =>
      intro queues h sender
      cases hbest : bestQueue κ transactions queues.toList none with
      | none =>
          refine ⟨0, ?_⟩
          rw [selectLoop, hbest]
          rfl
      | some best =>
          obtain ⟨s, value⟩ := best
          obtain ⟨hvalue, hremaining⟩ := remaining_of_candidate h (candidate_of_bestQueue hbest)
          obtain ⟨k, hk⟩ := ih (h.advance s) sender
          rw [selectLoop, hbest]
          dsimp only
          by_cases hs : s = sender
          · subst hs
            refine ⟨k + 1, ?_⟩
            rw [List.filter_cons_of_pos (by simpa using hvalue), hk, hremaining,
              List.take_succ_cons]
          · refine ⟨k, ?_⟩
            rw [List.filter_cons_of_neg (by rw [hvalue]; simpa using hs), hk,
              remaining_advance_other hs]

theorem length_selectLoop (count : Nat) :
    ∀ queues : Queues, (selectLoop κ transactions count queues).length ≤ count := by
  induction count with
  | zero => intro queues; exact Nat.le_refl _
  | succ count ih =>
      intro queues
      rw [selectLoop]
      split
      · exact Nat.zero_le _
      · exact Nat.succ_le_succ (ih _)

/-- Sender by sender, the selection is an initial piece of the pool. -/
theorem select_filter (κ : Crypto) (m : Mempool) (maximumCount : Nat) (sender : Hash256) :
    ∃ k, ((m.select κ maximumCount).filter fun t => (t.sender κ).hash = sender)
      = (m.transactions.filter fun t => (t.sender κ).hash = sender).take k := by
  obtain ⟨k, hk⟩ := selectLoop_filter maximumCount queuesOf_buildQueues sender
  refine ⟨k, ?_⟩
  rw [select, hk, remaining_buildQueues]

theorem mem_of_mem_select {m : Mempool} {maximumCount : Nat} {t : SignedTransaction}
    (h : t ∈ m.select κ maximumCount) : t ∈ m.transactions := by
  obtain ⟨k, hk⟩ := select_filter κ m maximumCount (t.sender κ).hash
  have hmem : t ∈ (m.select κ maximumCount).filter fun u => (u.sender κ).hash = (t.sender κ).hash :=
    List.mem_filter.mpr ⟨h, decide_eq_true rfl⟩
  rw [hk] at hmem
  exact (List.mem_filter.mp (List.mem_of_mem_take hmem)).1

/-! ## Selection and consensus -/

theorem noncesOf_select (κ : Crypto) (m : Mempool) (maximumCount : Nat) (address : Hash256) :
    ∃ k, noncesOf κ address (m.select κ maximumCount)
      = (noncesOf κ address m.transactions).take k := by
  obtain ⟨k, hk⟩ := select_filter κ m maximumCount address
  refine ⟨k, ?_⟩
  rw [noncesOf, hk, List.map_take]
  rfl

theorem debitsOf_select (κ : Crypto) (m : Mempool) (maximumCount : Nat) (address : Hash256) :
    debitsOf κ address (m.select κ maximumCount) ≤ debitsOf κ address m.transactions := by
  obtain ⟨k, hk⟩ := select_filter κ m maximumCount address
  rw [debitsOf, hk]
  conv_rhs => rw [debitsOf, ← List.take_append_drop k (m.transactions.filter _), List.map_append,
    List.sum_append]
  exact Nat.le_add_right _ _

namespace Inv

variable {m : Mempool} (h : m.Inv κ) (maximumCount : Nat)

include h

/-- A sender's selected nonces still start at its confirmed one. -/
theorem noncesOf_select (address : Hash256) :
    noncesOf κ address (m.select κ maximumCount)
      = List.range' (nonceOf m.chainState.accounts address)
          (noncesOf κ address (m.select κ maximumCount)).length := by
  obtain ⟨k, hk⟩ := Mempool.noncesOf_select κ m maximumCount address
  rw [hk, h.nonces address]
  rcases Nat.le_total k (noncesOf κ address m.transactions).length with hle | hle
  · rw [List.take_range'_of_length_ge hle, List.length_range']
  · rw [List.take_range'_of_length_le hle, List.length_range']

theorem select_nodup : (m.select κ maximumCount).Nodup := by
  have hpairs : ((m.select κ maximumCount).map fun t => (t.sender κ, t.accountNonce)).Nodup := by
    refine nodup_map_of_noncesOf _ fun address => ?_
    rw [h.noncesOf_select maximumCount address]
    exact List.nodup_range'
  exact List.Nodup.of_map _ hpairs

theorem ids_select : ((m.select κ maximumCount).map (SignedTransaction.id κ)).Nodup := by
  refine (h.select_nodup maximumCount).map_on ?_
  intro t ht u hu heq
  exact List.inj_on_of_nodup_map h.ids (mem_of_mem_select ht) (mem_of_mem_select hu) heq

/-- The selection is affordable in the state that the pool was checked against. -/
theorem affordable_select
    (hnonce : ∀ address, nonceOf m.chainState.accounts address + maximumCount < 2 ^ 64)
    (hsupply : supply m.chainState.accounts < 2 ^ 64) :
    Affordable κ m.chainState.accounts 0 (m.select κ maximumCount) where
  nonces := h.noncesOf_select maximumCount
  nonceRoom address := by
    have hlen := length_noncesOf_le (κ := κ) address (m.select κ maximumCount)
    have hcount : (m.select κ maximumCount).length ≤ maximumCount := length_selectLoop _ _
    have := hnonce address
    omega
  funds address := Nat.le_trans (debitsOf_select κ m maximumCount address) (h.funds address)
  supply := hsupply

end Inv

end Mempool

variable {κ : Crypto}

namespace Blockchain

theorem length_transactionsOf_le (bs : List Block) :
    (transactionsOf bs).length ≤ maximumTransactionsPerBlock * bs.length := by
  induction bs with
  | nil => exact Nat.le_refl _
  | cons b bs ih =>
      have hb := b.bounded
      have hcons : (transactionsOf (b :: bs)).length
          = b.transactions.length + (transactionsOf bs).length := by
        simp [transactionsOf]
      rw [hcons, List.length_cons, Nat.mul_succ]
      omega

/-- The money on the active chain. -/
theorem Inv.supply_state {chainId : UInt32} {c : Blockchain} (h : c.Inv κ chainId) :
    supply c.state.accounts = c.tip.height.toNat * blockSubsidy.toNat := by
  rw [h.state, h.tip_eq]
  exact h.supply_node _ h.tipIndex_lt

/-- A sender cannot have used more nonces than there is room for transactions. -/
theorem Inv.nonceOf_state_le {chainId : UInt32} {c : Blockchain} (h : c.Inv κ chainId)
    (address : Hash256) :
    nonceOf c.state.accounts address ≤ maximumTransactionsPerBlock * (c.tip.height.toNat + 1) := by
  have hnonces := h.noncesOf_branch address c.tipIndex h.tipIndex_lt
  have hcount := congrArg List.length hnonces
  rw [List.length_range] at hcount
  have hbody := length_transactionsOf_le (c.branch c.tipIndex)
  rw [h.length_branch h.tipIndex_lt] at hbody
  rw [h.state, h.tip_eq, ← hcount]
  exact Nat.le_trans (length_noncesOf_le address _) hbody

end Blockchain

/-- A selection from a pool on the chain's state applies to that state, as long as one more
subsidy fits. -/
theorem Mempool.Inv.applies_select {chainId : UInt32} {c : Blockchain} (hc : c.Inv κ chainId)
    {m : Mempool} (hm : m.Inv κ) (hstate : m.chainState = c.state)
    (hheight : (c.tip.height.toNat + 1) * blockSubsidy.toNat ≤ 2 ^ 64 - 1) {k : Nat}
    (hk : k ≤ 1000) {block : Block} {reward : Address} (hgenesis : block.isGenesis = false)
    (hreward : block.rewardRecipient = some reward) (hbody : block.transactions = m.select κ k) :
    ∃ next, applyBlockState κ c.state block = .ok next := by
  have hroom : supply c.state.accounts + blockSubsidy.toNat < 2 ^ 64 := by
    rw [hc.supply_state, ← Nat.succ_mul]
    exact Nat.lt_of_le_of_lt hheight (by omega)
  have hnonce : ∀ address, nonceOf m.chainState.accounts address + k < 2 ^ 64 := by
    intro address
    have hle := hc.nonceOf_state_le address
    rw [hstate]
    rw [blockSubsidy_toNat] at hheight
    simp only [maximumTransactionsPerBlock] at hle
    omega
  refine applyBlockState_of_affordable hgenesis hreward hroom ?_
  rw [hbody, ← hstate]
  exact hm.affordable_select k hnonce (by rw [hstate]; omega)

/-- Whatever the pool on a reachable chain was offered, what it selects is a block
body: `validate_transactions` accepts it, and `apply_block_state` accepts it on
the chain's state with any reward address, as long as one more subsidy fits. -/
theorem select_applies (κ : Crypto) (chainId : UInt32) (bs : List Block)
    (ts : List SignedTransaction) (k : Nat)
    (hheight : ((Blockchain.replay κ chainId bs).tip.height.toNat + 1) * blockSubsidy.toNat
      ≤ 2 ^ 64 - 1)
    (hchain : ∀ t ∈ ts, t.chainId = chainId) (hk : k ≤ 1000) :
    let c := Blockchain.replay κ chainId bs
    let m := Mempool.addAll κ ⟨c.state, []⟩ ts
    validateTransactions κ (m.select κ k) chainId = .none ∧
    ∀ (block : Block) (reward : Address), block.isGenesis = false →
      block.rewardRecipient = some reward → block.transactions = m.select κ k →
        ∃ next, applyBlockState κ c.state block = .ok next := by
  intro c m
  have hc : c.Inv κ chainId := Blockchain.inv_replay κ chainId bs
  have hm : m.Inv κ := Mempool.Inv.addAll ts (Mempool.Inv.new c.state)
  have hstate : m.chainState = c.state := Mempool.chainState_addAll ts _
  have hlength : (m.select κ k).length ≤ k := Mempool.length_selectLoop _ _
  constructor
  · refine validateTransactions_of_nodup (by simp only [maximumTransactionsPerBlock]; omega) ?_
      (hm.ids_select k)
    intro t ht
    rcases Mempool.mem_of_mem_addAll ts (Mempool.mem_of_mem_select ht) with hnil | hts
    · cases hnil
    · exact hchain t hts
  · intro block reward hgenesis hreward hbody
    exact hm.applies_select hc hstate hheight hk hgenesis hreward hbody

theorem minerPayment_validated :
    validateFields ⟨⟨List.Vector.replicate 32 9⟩, 2500000000, 10, 0, 2⟩ = .none := by
  decide +kernel

/-- The miner of the first block pays half of its reward away. -/
def minerPayment : SignedTransaction where
  chainId := 2
  senderPublicKey := minerKey
  recipient := ⟨List.Vector.replicate 32 9⟩
  amount := 2500000000
  fee := 10
  accountNonce := 0
  signature := referenceTag (serializeUnsigned 2 minerKey
    ⟨List.Vector.replicate 32 9⟩ 2500000000 10 0)
    minerKey
  validated := minerPayment_validated

/-- The block of height two that confirms the miner's payment. -/
def minedPayment : Block where
  chainId := regtest.chainId
  height := 2
  previousBlockHash := minedFirst.id reference
  transactionRoot := calculateTransactionRoot reference [minerPayment]
  rewardRecipient := some (Address.fromPublicKey reference minerKey)
  timestamp := 2
  difficultyTarget := regtest.difficultyTarget
  miningNonce := 7347
  transactions := [minerPayment]
  bounded := Nat.le_of_ble_eq_true rfl

/-- The key of a second account. -/
def secondKey : PublicKey := sha256 (List.replicate 32 2)

/-- The miner funds the second account. -/
def gift : SignedTransaction :=
  signedPayment minerKey (Address.fromPublicKey reference secondKey) 1000000000 100 0
    (by decide +kernel)

theorem gift_bounded : [gift].length ≤ maximumTransactionsPerBlock := by decide

def giftBlock : Block where
  chainId := 2
  height := 2
  previousBlockHash := minedFirst.id reference
  transactionRoot := calculateTransactionRoot reference [gift]
  rewardRecipient := some (Address.fromPublicKey reference minerKey)
  timestamp := 2
  difficultyTarget := regtest.difficultyTarget
  miningNonce := 1145
  transactions := [gift]
  bounded := gift_bounded

/-- The highest fee stands behind the lowest one of the same account. -/
def minerLow : SignedTransaction :=
  signedPayment minerKey ⟨List.Vector.replicate 32 9⟩ 300 10 1 (by decide +kernel)
def minerHigh : SignedTransaction :=
  signedPayment minerKey ⟨List.Vector.replicate 32 9⟩ 200 50 2 (by decide +kernel)
def secondMiddle : SignedTransaction :=
  signedPayment secondKey ⟨List.Vector.replicate 32 9⟩ 700 30 0 (by decide +kernel)

theorem select_applies_mined :
    let c := Blockchain.replay reference 2 [minedFirst, giftBlock]
    let m := Mempool.addAll reference ⟨c.state, []⟩ [minerLow, minerHigh, secondMiddle]
    m.select reference 1000 = [secondMiddle, minerLow, minerHigh] ∧
    validateTransactions reference (m.select reference 1000) 2 = .none ∧
    ∀ (block : Block) (reward : Address), block.isGenesis = false →
      block.rewardRecipient = some reward → block.transactions = m.select reference 1000 →
        ∃ next, applyBlockState reference c.state block = .ok next := by
  -- one run of the chain and of the pool
  have hrun :
      let c := Blockchain.replay reference 2 [minedFirst, giftBlock]
      let m := Mempool.addAll reference ⟨c.state, []⟩ [minerLow, minerHigh, secondMiddle]
      m.select reference 1000 = [secondMiddle, minerLow, minerHigh] ∧
      (c.tip.height.toNat + 1) * blockSubsidy.toNat ≤ 2 ^ 64 - 1 ∧
      ∀ t ∈ [minerLow, minerHigh, secondMiddle], t.chainId = 2 := by
    decide +kernel
  exact ⟨hrun.1, select_applies reference 2 [minedFirst, giftBlock]
    [minerLow, minerHigh, secondMiddle] 1000 hrun.2.1 hrun.2.2 (by decide)⟩

end BBC
