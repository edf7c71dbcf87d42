/-
# `BBC.Storage.Confirmed` — the pool after a block of its own selection

A block whose body is a selection takes an initial piece of every sender's queue.  The pool
is then offered again, in its old order, to the state after the block:

    queue of a sender      t₀  t₁  t₂  t₃  t₄
    in the block           t₀  t₁
    next nonce after it            ↑
    pending afterwards             t₂  t₃  t₄

Nothing that was pending is lost and nothing that is confirmed stays
(`Mempool.Inv.addAll_select`).
-/
import BBC.Storage.Reconciliation

namespace BBC

variable {κ : Crypto}

/-! ## Balances after a block -/

theorem applyTransactions_balance (address : Hash256) (ts : List SignedTransaction) :
    ∀ {accounts : Accounts} {totalFees : UInt64} {index : Nat} {r : Accounts × UInt64},
      applyTransactions κ accounts totalFees index ts = .ok r →
        balanceOf accounts address ≤ balanceOf r.1 address + debitsOf κ address ts := by
  induction ts with
  | nil =>
      intro accounts totalFees index r h
      cases h
      exact Nat.le_add_right _ _
  | cons t ts ih =>
      intro accounts totalFees index r h
      obtain ⟨hp, hrest⟩ := applyTransactions_cons_ok_iff.mp h
      have hlater := ih hrest
      have hdebited := balanceOf_debited (κ := κ) hp.funded address
      have hcredited := balanceOf_credited hp.recipientRoom address
      rw [← transferred] at hcredited
      by_cases hs : (t.sender κ).hash = address
      · rw [debitsOf_cons_self hs]
        rw [if_pos hs] at hdebited
        omega
      · rw [debitsOf_cons_other hs]
        rw [if_neg hs] at hdebited
        omega

theorem applyBlockState_balance {state state' : ChainState} {block : Block}
    (h : applyBlockState κ state block = .ok state') (address : Hash256) :
    balanceOf state.accounts address
      ≤ balanceOf state'.accounts address + debitsOf κ address block.transactions := by
  obtain ⟨-, recipient, accounts, totalFees, -, htxs, hrew, rfl⟩ := applyBlockState_ok_iff.mp h
  have hloop := applyTransactions_balance address _ htxs
  have hfit := hrew.creditRoom
  have hroom := hrew.minerRoom
  have hcredit : (blockSubsidy + totalFees).toNat = blockSubsidy.toNat + totalFees.toNat :=
    toNat_add_of_lt (by omega)
  have hlimit : balanceOf accounts recipient.hash + (blockSubsidy + totalFees).toNat < 2 ^ 64 := by
    rw [hcredit]
    exact hroom
  have hpaid := balanceOf_credited hlimit address
  dsimp only at hloop ⊢
  omega

/-! ## The queues -/

/-- A part of a list without repetition is what it has of it. -/
theorem eq_filter_of_sublist {α : Type} [DecidableEq α] {us ts : List α} (h : us.Sublist ts) :
    ts.Nodup → us = ts.filter fun t => t ∈ us := by
  induction h with
  | slnil => intro _; rfl
  | @cons us ts t h ih =>
      intro hnodup
      obtain ⟨hfresh, hrest⟩ := List.nodup_cons.mp hnodup
      have hout : t ∉ us := fun hmem => hfresh (h.subset hmem)
      rw [List.filter_cons_of_neg (by simpa using hout)]
      exact ih hrest
  | @cons_cons us ts t h ih =>
      intro hnodup
      obtain ⟨hfresh, hrest⟩ := List.nodup_cons.mp hnodup
      rw [List.filter_cons_of_pos (by simp)]
      refine congrArg (List.cons t) ((ih hrest).trans ?_)
      refine List.filter_congr fun u hu => ?_
      have hne : u ≠ t := fun heq => hfresh (heq ▸ hu)
      simp [hne]

namespace Mempool

variable {m : Mempool}

theorem Inv.nodup (h : m.Inv κ) : m.transactions.Nodup := List.Nodup.of_map _ h.ids

theorem Inv.distinctIds (h : m.Inv κ) : DistinctIds κ m.transactions :=
  fun _ ht _ hu heq => List.inj_on_of_nodup_map h.ids ht hu heq

theorem Inv.queueOf_select (h : m.Inv κ) (k : Nat) (address : Hash256) :
    queueOf κ address m.transactions
      = queueOf κ address (m.select κ k)
        ++ queueOf κ address (m.transactions.filter fun t => t ∉ m.select κ k) := by
  obtain ⟨j, hj⟩ := select_filter κ m k address
  have hselected : queueOf κ address (m.select κ k)
      = (queueOf κ address m.transactions).take j := hj
  have hnodup : (queueOf κ address m.transactions).Nodup := h.nodup.filter _
  have hrest : queueOf κ address (m.transactions.filter fun t => t ∉ m.select κ k)
      = (queueOf κ address m.transactions).drop j := by
    have hcomm : queueOf κ address (m.transactions.filter fun t => t ∉ m.select κ k)
        = (queueOf κ address m.transactions).filter
            fun t => t ∉ (queueOf κ address m.transactions).take j := by
      rw [← hselected, queueOf, queueOf, List.filter_comm]
      refine List.filter_congr fun t ht => ?_
      have hsender := (List.mem_filter.mp ht).2
      simp only [decide_eq_true_eq] at hsender
      simp [hsender]
    rw [hcomm]
    have hsplit := List.take_append_drop j (queueOf κ address m.transactions)
    have hdisjoint := List.disjoint_of_nodup_append (hsplit.symm ▸ hnodup)
    conv_lhs => rw [← hsplit]
    rw [List.filter_append, List.filter_eq_nil_iff.mpr, List.nil_append, List.filter_eq_self.mpr]
    · intro t ht
      rw [hsplit, decide_eq_true_eq]
      exact fun hmem => hdisjoint hmem ht
    · intro t ht
      rw [hsplit, decide_eq_true_eq]
      exact not_not.mpr ht
  rw [hselected, hrest, List.take_append_drop]

/-- The pool, offered again to the state after a block of its selection, is what the block
has not taken. -/
theorem Inv.addAll_select (h : m.Inv κ) {k : Nat} {block : Block} {next : ChainState}
    (hbody : block.transactions = m.select κ k)
    (happlied : applyBlockState κ m.chainState block = .ok next)
    (hroom : ∀ address, nonceOf next.accounts address ≠ maxU64.toNat) :
    Mempool.addAll κ ⟨next, []⟩ m.transactions
      = ⟨next, m.transactions.filter fun t => t ∉ block.transactions⟩ := by
  have hsublist : (Mempool.addAll κ ⟨next, []⟩ m.transactions).transactions.Sublist
      m.transactions :=
    sublist_addAll m.transactions ⟨next, []⟩
  have hqueue : ∀ address, queueOf κ address
      (Mempool.addAll κ ⟨next, []⟩ m.transactions).transactions
      = queueOf κ address (m.transactions.filter fun t => t ∉ block.transactions) := by
    intro address
    have hsplit := h.queueOf_select k address
    rw [← hbody] at hsplit
    obtain ⟨-, hnext⟩ := applyBlockState_nonces happlied address
    have hbalance := applyBlockState_balance happlied address
    have hfunds := h.funds address
    rw [queueOf_addAll_empty address _ h.size h.nodup h.distinctIds (hroom address), hsplit]
    have hnonces : (queueOf κ address m.transactions).map nonce
        = List.range' (nonceOf m.chainState.accounts address)
            (queueOf κ address m.transactions).length := by
      rw [← length_noncesOf]
      exact h.nonces address
    rw [hsplit] at hnonces
    refine Streak.keep_append _ ?_ hnonces ?_
    · have hsum : debitsOf κ address m.transactions
          = debitsOf κ address block.transactions
            + ((queueOf κ address (m.transactions.filter fun t => t ∉ block.transactions)).map
                debit).sum := by
        show ((queueOf κ address m.transactions).map debit).sum = _
        rw [hsplit, List.map_append, List.sum_append]
        rfl
      omega
    · rw [hnext, length_noncesOf]
  have hmem : ∀ t, t ∈ (Mempool.addAll κ ⟨next, []⟩ m.transactions).transactions
      ↔ t ∈ m.transactions.filter fun t => t ∉ block.transactions := by
    intro t
    have hsame := hqueue (t.sender κ).hash
    constructor
    · intro ht
      exact (mem_queueOf.mp (hsame ▸ mem_queueOf.mpr ⟨ht, rfl⟩)).1
    · intro ht
      exact (mem_queueOf.mp (hsame.symm ▸ mem_queueOf.mpr ⟨ht, rfl⟩)).1
  have htransactions : (Mempool.addAll κ ⟨next, []⟩ m.transactions).transactions
      = m.transactions.filter fun t => t ∉ block.transactions := by
    rw [eq_filter_of_sublist hsublist h.nodup]
    refine List.filter_congr fun t ht => ?_
    rw [decide_eq_decide, hmem t, List.mem_filter]
    simp [ht]
  have hstate := Mempool.chainState_addAll (κ := κ) m.transactions ⟨next, []⟩
  generalize Mempool.addAll κ ⟨next, []⟩ m.transactions = pool at htransactions hstate
  cases pool
  exact Mempool.mk.injEq .. ▸ ⟨hstate, htransactions⟩

end Mempool

end BBC
