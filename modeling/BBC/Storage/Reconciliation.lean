/-
# `BBC.Storage.Reconciliation` — the pool after a reorganization

`reconcile_reorganization` offers an empty pool on the new state first the detached
transactions in chain order, then the pending ones.  For one sender both parts have
consecutive nonces, and the second continues the first:

    detached   the nonces from the fork point up to the old active state
    pending    the nonces from the old active state on (the pool's invariant)

Admission is exact (`admission_none_iff`): below the limit and with distinct ids it
takes a transaction if its nonce is the next one and its debit still fits.  Adding the
candidates of one sender is therefore the walk of `Streak.keep`.
-/
import BBC.Chain.Reorganization
import BBC.Lib.Streak
import BBC.Mempool.Selection
import BBC.Mempool.Admission
import BBC.Storage.MempoolStore

namespace BBC

variable {κ : Crypto} {chainId : UInt32}

namespace Mempool

/-! ## One sender -/

/-- Adding the candidates of one sender is the walk along them. -/
theorem transactions_addAll (address : Hash256) (ts : List SignedTransaction) :
    ∀ {m : Mempool}, m.Inv κ → (∀ t ∈ ts, (t.sender κ).hash = address) →
      m.transactions.length + ts.length ≤ maximumMempoolTransactions →
      ((m.transactions ++ ts).map (SignedTransaction.id κ)).Nodup →
      nonceOf m.chainState.accounts address ≠ maxU64.toNat →
      (m.addAll κ ts).transactions = m.transactions ++ Streak.keep nonce debit
        (nonceOf m.chainState.accounts address + (noncesOf κ address m.transactions).length)
        (balanceOf m.chainState.accounts address - debitsOf κ address m.transactions) ts := by
  induction ts with
  | nil =>
      intro m _ _ _ _ _
      exact (List.append_nil _).symm
  | cons t ts ih =>
      intro m h hsender hsize hnodup hroom
      obtain ⟨rfl, hrest⟩ := List.forall_mem_cons.mp hsender
      rw [List.length_cons] at hsize
      rw [List.append_cons] at hnodup
      have hfirst : ((m.transactions ++ [t]).map (SignedTransaction.id κ)).Nodup :=
        hnodup.sublist ((List.sublist_append_left _ ts).map _)
      have hids : ∀ p ∈ m.transactions, p.id κ ≠ t.id κ := by
        intro p hp heq
        rw [List.map_append, List.nodup_append] at hfirst
        exact hfirst.2.2 _ (List.mem_map_of_mem hp) _ (List.mem_singleton.mpr rfl) heq
      have hfunds := h.funds (t.sender κ).hash
      have hexact := admission_none_iff h (by omega) hids hroom
      rw [addAll_cons]
      rcases add_cases κ m t with ⟨hsame, hrefused⟩ | ⟨ha, -, hnext⟩
      · have hadmission : m.admission κ t ≠ .none := by
          intro hnone
          rw [Mempool.add, if_pos hnone] at hrefused
          exact hrefused rfl
        rw [hsame, Streak.keep_of_neg]
        · refine ih h hrest (by omega) (hnodup.sublist (List.Sublist.map _ ?_)) hroom
          exact (List.sublist_append_left _ _).append_right ts
        · rintro ⟨hnonce, hdebit⟩
          exact hadmission (hexact.mpr ⟨hnonce, by omega⟩)
      · have hlast : noncesOf κ (t.sender κ).hash [t] = [nonce t] := noncesOf_cons_self rfl
        have hdebits : debitsOf κ (t.sender κ).hash [t] = debit t := debitsOf_cons_self rfl
        have hnonce : nonce t = nonceOf m.chainState.accounts (t.sender κ).hash
            + (noncesOf κ (t.sender κ).hash m.transactions).length := ha.nonce
        have hfunded : debitsOf κ (t.sender κ).hash m.transactions + debit t
            ≤ balanceOf m.chainState.accounts (t.sender κ).hash := ha.funded
        have hstep := ih (m := { m with transactions := m.transactions ++ [t] }) (h.push ha) hrest
          (by rw [List.length_append, List.length_singleton]; omega) hnodup hroom
        rw [hnext, hstep, Streak.keep_of_pos hnonce (by omega), noncesOf_append, hlast,
          debitsOf_append, hdebits, List.length_append, List.append_assoc, ← Nat.sub_sub]
        rfl

theorem queueOf_addAll_empty {state : ChainState} (address : Hash256)
    (ts : List SignedTransaction) (hsize : ts.length ≤ maximumMempoolTransactions)
    (hnodup : ts.Nodup) (hdistinct : DistinctIds κ ts)
    (hroom : nonceOf state.accounts address ≠ maxU64.toNat) :
    queueOf κ address (addAll κ ⟨state, []⟩ ts).transactions
      = Streak.keep nonce debit (nonceOf state.accounts address) (balanceOf state.accounts address)
          (queueOf κ address ts) := by
  have hqueue := (queueOf_addAll address ts (m := ⟨state, []⟩)
    (by rw [List.length_nil, Nat.zero_add]; exact hsize) hdistinct).1
  have hmine : queueOf κ address ts ⊆ ts := fun t ht => (mem_queueOf.mp ht).1
  have hids : ((queueOf κ address ts).map (SignedTransaction.id κ)).Nodup :=
    (hnodup.filter _).map_on fun t ht u hu => hdistinct t (hmine ht) u (hmine hu)
  have hlength : (queueOf κ address ts).length ≤ ts.length := List.length_filter_le _ _
  have hwalk := transactions_addAll address (queueOf κ address ts) (Inv.new state)
    (fun t ht => (mem_queueOf.mp ht).2)
    (by rw [List.length_nil, Nat.zero_add]; exact Nat.le_trans hlength hsize)
    (by rw [List.nil_append]; exact hids) hroom
  exact (congrArg Mempool.transactions hqueue).trans hwalk

theorem prefix_addAll (ts : List SignedTransaction) :
    ∀ m : Mempool, m.transactions <+: (m.addAll κ ts).transactions := by
  induction ts with
  | nil => intro m; exact List.prefix_rfl
  | cons t ts ih =>
      intro m
      rw [addAll_cons]
      refine List.IsPrefix.trans ?_ (ih _)
      rcases add_cases κ m t with ⟨hsame, -⟩ | ⟨-, -, hnext⟩
      · rw [hsame]
      · rw [hnext]
        exact List.prefix_append _ _

theorem sublist_addAll (ts : List SignedTransaction) :
    ∀ m : Mempool, (m.addAll κ ts).transactions.Sublist (m.transactions ++ ts) := by
  induction ts with
  | nil =>
      intro m
      rw [List.append_nil]
      exact List.Sublist.refl _
  | cons t ts ih =>
      intro m
      rw [addAll_cons, List.append_cons]
      refine (ih _).trans (List.Sublist.append_right ?_ ts)
      rcases add_cases κ m t with ⟨hsame, -⟩ | ⟨-, -, hnext⟩
      · rw [hsame]
        exact List.sublist_append_left _ _
      · rw [hnext]

end Mempool

namespace MempoolStore

/-! ## What the two loops take -/

theorem length_addEach (ts : List SignedTransaction) :
    ∀ m : Mempool, (addEach κ m ts).1.transactions.length
      = m.transactions.length + (addEach κ m ts).2.length := by
  induction ts with
  | nil => intro m; rfl
  | cons t ts ih =>
      intro m
      rw [addEach]
      dsimp only
      rw [ih]
      rcases Mempool.add_cases κ m t with ⟨hsame, hrefused⟩ | ⟨-, hnone, hnext⟩
      · rw [if_neg hrefused, hsame]
      · rw [if_pos hnone, hnext, List.length_append, List.length_singleton, List.length_cons]
        omega

/-- A loop takes what is in the pool afterwards. -/
theorem addEach_snd (ts : List SignedTransaction) :
    ∀ m : Mempool, (m.transactions ++ ts).Nodup →
      (addEach κ m ts).2 = ts.filter fun t => t ∈ (m.addAll κ ts).transactions := by
  induction ts with
  | nil => intro m _; rfl
  | cons t ts ih =>
      intro m hnodup
      rw [List.append_cons] at hnodup
      rw [addEach, Mempool.addAll_cons]
      dsimp only
      have hgrows := Mempool.prefix_addAll (κ := κ) ts (m.add κ t).1
      rcases Mempool.add_cases κ m t with ⟨hsame, hrefused⟩ | ⟨-, hnone, hnext⟩
      · have hrest : (m.transactions ++ ts).Nodup :=
          hnodup.sublist ((List.sublist_append_left _ _).append_right ts)
        have hnot : t ∉ (m.addAll κ ts).transactions := by
          intro hmem
          rw [List.append_assoc, List.nodup_append] at hnodup
          rcases Mempool.mem_of_mem_addAll ts hmem with hm | hts
          · exact hnodup.2.2 t hm t List.mem_cons_self rfl
          · exact (List.nodup_cons.mp hnodup.2.1).1 hts
        rw [if_neg hrefused, hsame, List.filter_cons_of_neg (by simpa using hnot)]
        exact ih m hrest
      · have hmem : t ∈ ((m.add κ t).1.addAll κ ts).transactions := by
          refine hgrows.subset ?_
          rw [hnext]
          exact List.mem_append_right _ (List.mem_singleton.mpr rfl)
        have hrest : ((m.add κ t).1.transactions ++ ts).Nodup := by
          rw [hnext]
          exact hnodup
        rw [if_pos hnone, ih _ hrest, List.filter_cons_of_pos (by simpa using hmem)]

/-- What a committed reconciliation reports, and what it leaves. -/
theorem reconcileReorganization_report (s : MempoolStore) (state : ChainState)
    (detached : List Block)
    (hnodup : (Blockchain.transactionsOf detached ++ s.mempool.transactions).Nodup) :
    let pool := (s.reconcileReorganization κ state detached true).1.mempool.transactions
    let r := (s.reconcileReorganization κ state detached true).2
    r.error = .none ∧
    r.restored = r.transactionsToRelay.length ∧
    r.transactionsToRelay
      = (Blockchain.transactionsOf detached).filter (fun t => t ∈ pool) ∧
    r.removed = (s.mempool.transactions.filter fun t => t ∉ pool).length ∧
    pool.length = r.restored + (s.mempool.transactions.length - r.removed) := by
  intro pool r
  let first := addEach κ ⟨state, []⟩ (Blockchain.transactionsOf detached)
  let second := addEach κ first.1 s.mempool.transactions
  have hpool : pool = second.1.transactions := by
    refine (congrArg (fun s : MempoolStore => s.mempool.transactions)
      (reconcileReorganization_fst κ s state detached)).trans ?_
    exact congrArg Mempool.transactions (addEach_addEach κ s state detached).symm
  have hr : r = { removed := s.mempool.transactions.length - second.2.length
                  detached := (Blockchain.transactionsOf detached).length
                  restored := first.2.length
                  transactionsToRelay := first.2 } := by
    have hrewrite := rewrite_of_inv (inv_reconciled κ s state detached).1
    rw [← addEach_addEach] at hrewrite
    show (s.reconcileReorganization κ state detached true).2 = _
    rw [reconcileReorganization]
    rw [hrewrite]
    rfl
  have hfirst : first.1 = Mempool.addAll κ ⟨state, []⟩ (Blockchain.transactionsOf detached) :=
    addEach_fst _ _
  have hsecond : second.1 = first.1.addAll κ s.mempool.transactions := addEach_fst _ _
  obtain ⟨hdetached, hpending, hapart⟩ := List.nodup_append.mp hnodup
  have hsub : first.1.transactions.Sublist (Blockchain.transactionsOf detached) := by
    rw [hfirst]
    exact Mempool.sublist_addAll _ ⟨state, []⟩
  have hrelay : first.2 = (Blockchain.transactionsOf detached).filter (fun t => t ∈ pool) := by
    have htaken := addEach_snd (κ := κ) (Blockchain.transactionsOf detached) ⟨state, []⟩ hdetached
    refine htaken.trans (List.filter_congr fun t ht => decide_eq_decide.mpr ?_)
    -- the pending transactions are other ones, and the pool only grows
    rw [← hfirst, hpool, hsecond]
    constructor
    · exact fun hmem => (Mempool.prefix_addAll _ first.1).subset hmem
    · intro hmem
      rcases Mempool.mem_of_mem_addAll _ hmem with hmem | hmem
      · exact hmem
      · exact absurd rfl (hapart t ht t hmem)
  have hretained : second.2 = s.mempool.transactions.filter (fun t => t ∈ pool) := by
    have htaken := addEach_snd (κ := κ) s.mempool.transactions first.1
      (hnodup.sublist (hsub.append_right _))
    rw [hpool, hsecond]
    exact htaken
  have hsplit := List.length_eq_length_filter_add (l := s.mempool.transactions) (fun t => t ∈ pool)
  rw [← hretained] at hsplit
  have hremoved : s.mempool.transactions.length - second.2.length
      = (s.mempool.transactions.filter fun t => t ∉ pool).length := by
    simp only [decide_not]
    omega
  have hlength : pool.length = first.2.length + second.2.length := by
    rw [hpool, length_addEach, length_addEach]
    simp [first, second]
  rw [hr]
  exact ⟨rfl, rfl, hrelay, hremoved, by dsimp only; omega⟩

end MempoolStore

namespace Blockchain

/-! ## The nonces of what was detached -/

variable {c : Blockchain}

theorem detachedBlocks_of_error {b : Block} (h : (c.append κ b).2.error ≠ .none) :
    (c.append κ b).2.detachedBlocks = [] := by
  unfold append at h ⊢
  split at h
  · rfl
  split at h
  · rfl
  · exact absurd (choose_error _ _) h

/-- What an `append` detaches is the end of the old active chain. -/
theorem Inv.detached (h : c.Inv κ chainId) (b : Block) :
    ∃ k, k < c.storedBlocks.length ∧
      c.blocks = c.branch k ++ (c.append κ b).2.detachedBlocks := by
  have hnothing : (c.append κ b).2.detachedBlocks = [] →
      ∃ k, k < c.storedBlocks.length ∧
        c.blocks = c.branch k ++ (c.append κ b).2.detachedBlocks := by
    intro hnil
    refine ⟨c.tipIndex, h.tipIndex_lt, ?_⟩
    rw [hnil, List.append_nil]
    exact h.blocks_eq_branch
  by_cases herror : (c.append κ b).2.error = .none
  · obtain ⟨p, next, ha⟩ := append_error_none_iff.mp herror
    by_cases hlt : c.tip.height < b.height
    · obtain ⟨k, hs⟩ := h.switched ha hlt
      exact ⟨k, hs.stored, hs.old⟩
    · refine hnothing ?_
      rw [append_of_accepts ha, h.choose_of_le ha (UInt64.not_lt.mp hlt)]
  · exact hnothing (detachedBlocks_of_error herror)

/-- The detached nonces of a sender end where its next nonce in the old state begins. -/
theorem Inv.nonces_detached (h : c.Inv κ chainId) (b : Block) (address : Hash256) :
    ∃ start, noncesOf κ address (transactionsOf (c.append κ b).2.detachedBlocks)
        = List.range' start
            (noncesOf κ address (transactionsOf (c.append κ b).2.detachedBlocks)).length ∧
      nonceOf c.state.accounts address = start
        + (noncesOf κ address (transactionsOf (c.append κ b).2.detachedBlocks)).length := by
  obtain ⟨k, hk, hold⟩ := h.detached b
  have hactive := h.noncesOf_branch address c.tipIndex h.tipIndex_lt
  rw [← h.blocks_eq_branch, ← h.state, hold, transactionsOf, List.flatMap_append, noncesOf_append]
    at hactive
  rw [← transactionsOf, h.noncesOf_branch address k hk, ← transactionsOf] at hactive
  have hlength := congrArg List.length hactive
  rw [List.length_append, List.length_range, List.length_range] at hlength
  refine ⟨nonceOf (c.node k).state.accounts address, ?_, hlength.symm⟩
  rw [← hlength, List.range_eq_range', List.range_eq_range', ← List.range'_append_1,
    Nat.zero_add] at hactive
  exact List.append_cancel_left hactive

end Blockchain

namespace MempoolStore

section candidates
variable {c : Blockchain} (h : c.Inv κ chainId) (b : Block) {s : MempoolStore}
  (hpool : s.mempool.Inv κ) (hstate : s.mempool.chainState = c.state)

include h hpool hstate

theorem nonces_candidates (address : Hash256) :
    ∃ start, noncesOf κ address
        (Blockchain.transactionsOf (c.append κ b).2.detachedBlocks ++ s.mempool.transactions)
      = List.range' start (noncesOf κ address
        (Blockchain.transactionsOf (c.append κ b).2.detachedBlocks
          ++ s.mempool.transactions)).length := by
  obtain ⟨start, hdetached, hnext⟩ := h.nonces_detached b address
  have hpending := hpool.nonces address
  rw [hstate, hnext] at hpending
  refine ⟨start, ?_⟩
  rw [noncesOf_append, List.length_append, ← List.range'_append_1, ← hdetached, ← hpending]

theorem nodup_candidates :
    (Blockchain.transactionsOf (c.append κ b).2.detachedBlocks
      ++ s.mempool.transactions).Nodup := by
  refine List.Nodup.of_map _ (nodup_map_of_noncesOf (κ := κ) _ fun address => ?_)
  obtain ⟨start, hnonces⟩ := nonces_candidates h b hpool hstate address
  rw [hnonces]
  exact List.nodup_range'

end candidates

/-- The pool after a reorganization.  For each sender the candidates, first the detached
and then the pending ones, have consecutive nonces, and the new pool holds the longest run
of them that starts at the sender's next nonce in the new state and stays within its
balance there.  The report counts what was restored and what was removed. -/
theorem reconcile_exact (κ : Crypto) (chainId : UInt32) (bs : List Block) (b : Block)
    (s : MempoolStore) :
    let c := Blockchain.replay κ chainId bs
    let c' := (c.append κ b).1
    let detached := (c.append κ b).2.detachedBlocks
    let pending := s.mempool.transactions
    let pool := (s.reconcileReorganization κ c'.state detached true).1.mempool
    let r := (s.reconcileReorganization κ c'.state detached true).2
    s.mempool.Inv κ → s.mempool.chainState = c.state →
    (Blockchain.transactionsOf detached).length + pending.length < 10000 →
    DistinctIds κ (Blockchain.transactionsOf detached ++ pending) →
    (c'.tip.height.toNat + 1) * blockSubsidy.toNat ≤ 2 ^ 64 - 1 →
    (∀ address,
      let candidates :=
        queueOf κ address (Blockchain.transactionsOf detached) ++ queueOf κ address pending
      let next := nonceOf c'.state.accounts address
      let balance := balanceOf c'.state.accounts address
      let kept := queueOf κ address pool.transactions
      (∃ start, candidates.map nonce = List.range' start candidates.length) ∧
      Streak.Fits nonce debit next balance candidates kept ∧
      ∀ run, Streak.Fits nonce debit next balance candidates run → run <+: kept) ∧
    pool.chainState = c'.state ∧ r.error = .none ∧
    r.restored = r.transactionsToRelay.length ∧
    r.transactionsToRelay
      = (Blockchain.transactionsOf detached).filter (fun t => t ∈ pool.transactions) ∧
    r.removed = (pending.filter fun t => t ∉ pool.transactions).length ∧
    pool.transactions.length = r.restored + (pending.length - r.removed) := by
  intro c c' detached pending pool r hinv hstate hfew hdistinct hheight
  have h : c.Inv κ chainId := Blockchain.inv_replay κ chainId bs
  have h' : c'.Inv κ chainId := h.append b
  have hnodup := nodup_candidates h b hinv hstate
  obtain ⟨herror, hrestored, hrelay, hremoved, hlength⟩ :=
    reconcileReorganization_report (κ := κ) s c'.state detached hnodup
  have hpool : pool = s.reconciled κ c'.state detached :=
    congrArg MempoolStore.mempool (reconcileReorganization_fst κ s c'.state detached)
  have hchain : pool.chainState = c'.state := by
    rw [hpool]
    exact (inv_reconciled κ s c'.state detached).2
  refine ⟨?_, hchain, herror, hrestored, hrelay, hremoved, hlength⟩
  intro address candidates next balance kept
  have hcandidates : candidates = queueOf κ address
      (Blockchain.transactionsOf detached ++ pending) :=
    (queueOf_append ..).symm
  obtain ⟨start, hstart⟩ := nonces_candidates h b hinv hstate address
  have hnonces : candidates.map nonce = List.range' start candidates.length := by
    rw [hcandidates, ← length_noncesOf]
    exact hstart
  have hroom : next ≠ maxU64.toNat := by
    have hle : next ≤ _ := h'.nonceOf_state_le address
    rw [blockSubsidy_toNat] at hheight
    simp only [maximumTransactionsPerBlock] at hle
    rw [maxU64_toNat]
    omega
  have hkept : kept = Streak.keep nonce debit next balance candidates := by
    rw [hcandidates]
    refine (congrArg (fun m : Mempool => queueOf κ address m.transactions) hpool).trans ?_
    refine Mempool.queueOf_addAll_empty address _ ?_ hnodup hdistinct hroom
    rw [List.length_append]
    exact Nat.le_of_lt hfew
  rw [hkept]
  exact ⟨⟨start, hnonces⟩, Streak.keep_longest candidates hnonces⟩

/-- The chain on which the block with the miner's payment came first, and its pool with the
payment that follows it. -/
def forkedChain : Blockchain :=
  Blockchain.replay reference 2 [minedFirst, minedPayment, minedChild]

def nextPayment : SignedTransaction :=
  signedPayment minerKey ⟨List.Vector.replicate 32 9⟩ 100 20 1 (by decide +kernel)

@[irreducible] def forkedPool : Mempool :=
  Mempool.addAll reference ⟨forkedChain.state, []⟩ [nextPayment]

def forkedStore : MempoolStore := ⟨forkedPool, []⟩

theorem inv_forkedPool : forkedPool.Inv reference := by
  unfold forkedPool
  exact Mempool.Inv.addAll _ (Mempool.Inv.new _)

theorem chainState_forkedPool : forkedPool.chainState = forkedChain.state := by
  unfold forkedPool
  rw [Mempool.chainState_addAll]

/-- The longer branch detaches the payment; with the one that follows there are two
candidates. -/
theorem reorganized_forkedStore :
    let c' := (forkedChain.append reference minedGrandchild).1
    let detached := (forkedChain.append reference minedGrandchild).2.detachedBlocks
    let reconciled := forkedStore.reconcileReorganization reference c'.state detached true
    Blockchain.transactionsOf detached ++ forkedStore.mempool.transactions
        = [minerPayment, nextPayment] ∧
    ([minerPayment, nextPayment].map (SignedTransaction.id reference)).Nodup ∧
    (c'.tip.height.toNat + 1) * blockSubsidy.toNat ≤ 2 ^ 64 - 1 ∧
    reconciled.1.mempool.transactions = [minerPayment, nextPayment] ∧
    reconciled.2.restored = 1 ∧ reconciled.2.removed = 0 := by
  decide +kernel

/-- The detached payment is restored, and the pending one is kept behind it. -/
theorem reconcile_exact_payment :
    let c' := (forkedChain.append reference minedGrandchild).1
    let detached := (forkedChain.append reference minedGrandchild).2.detachedBlocks
    let r := (forkedStore.reconcileReorganization reference c'.state detached true).2
    let pool := (forkedStore.reconcileReorganization reference c'.state detached true).1.mempool
    pool.transactions = [minerPayment, nextPayment] ∧ r.restored = 1 ∧ r.removed = 0 ∧
    r.transactionsToRelay
      = (Blockchain.transactionsOf detached).filter (fun t => t ∈ pool.transactions) ∧
    r.removed = (forkedStore.mempool.transactions.filter fun t => t ∉ pool.transactions).length ∧
    pool.transactions.length
      = r.restored + (forkedStore.mempool.transactions.length - r.removed) := by
  obtain ⟨hcandidates, hids, hheight, hpool, hone, hnone⟩ := reorganized_forkedStore
  have hfew := congrArg List.length hcandidates
  rw [List.length_append] at hfew
  have hdistinct : DistinctIds reference
      (Blockchain.transactionsOf (forkedChain.append reference minedGrandchild).2.detachedBlocks
        ++ forkedStore.mempool.transactions) := by
    rw [hcandidates]
    intro t ht u hu heq
    exact List.inj_on_of_nodup_map hids ht hu heq
  have hexact := reconcile_exact reference 2 [minedFirst, minedPayment, minedChild] minedGrandchild
    forkedStore
  rw [← forkedChain] at hexact
  obtain ⟨-, -, -, -, hrelay, hremoved, hlength⟩ := hexact inv_forkedPool chainState_forkedPool
    (lt_of_eq_of_lt hfew (by decide)) hdistinct hheight
  exact ⟨hpool, hone, hnone, hrelay, hremoved, hlength⟩

end MempoolStore

end BBC
