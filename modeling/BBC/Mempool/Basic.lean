/-
# `BBC.Mempool.Basic` — the pending pool and its admission rule

`src/mempool/mempool.cpp`.  The pool keeps its own copy of the confirmed account
state and admits a transaction only as the next nonce of its sender and only if
the confirmed balance covers all of that sender's pending debits.

What admission establishes is the invariant `Mempool.Inv`: for every sender the
pending nonces continue the confirmed one without a gap, and the pending debits
fit into the confirmed balance.  `add` keeps it and `revalidate` restores it
against a new state.
-/
import BBC.Chain.Ledger

namespace BBC

def maximumMempoolTransactions : Nat := 10000

/-- `mempool::MempoolError`. -/
inductive MempoolError where
  | none
  | full
  | duplicateTransaction
  | accountNonceConflict
  | unexpectedAccountNonce
  | accountNonceExhausted
  | insufficientBalance
  deriving DecidableEq, Repr

/-- `mempool::Mempool`. -/
structure Mempool where
  chainState : ChainState
  transactions : List SignedTransaction := []

namespace Mempool

variable (κ : Crypto)

/-! ## The operations -/

/-- The loop of `add` over the pending transactions: what the sender has reserved
and how many of its transactions are pending. -/
def scanPending (transaction : SignedTransaction) :
    List SignedTransaction → UInt64 → UInt64 → Except MempoolError (UInt64 × UInt64)
  | [], reserved, pendingCount => .ok (reserved, pendingCount)
  | pending :: rest, reserved, pendingCount =>
      if pending.id κ = transaction.id κ then .error .duplicateTransaction
      else if pending.sender κ ≠ transaction.sender κ then
        scanPending transaction rest reserved pendingCount
      else if pending.accountNonce = transaction.accountNonce then .error .accountNonceConflict
      else
        let debit := pending.amount + pending.fee
        if reserved > room debit then .error .insufficientBalance
        else scanPending transaction rest (reserved + debit) (pendingCount + 1)

/-- The checks of `add` after the loop. -/
def checkAccount (account : AccountState) (transaction : SignedTransaction)
    (reserved pendingCount : UInt64) : MempoolError :=
  if account.nextNonce = maxU64 ∨ pendingCount > room account.nextNonce then
    .accountNonceExhausted
  else if transaction.accountNonce ≠ account.nextNonce + pendingCount then
    .unexpectedAccountNonce
  else if reserved > account.balance
      ∨ transaction.amount + transaction.fee > account.balance - reserved then
    .insufficientBalance
  else .none

/-- The whole decision of `add`. -/
def admission (m : Mempool) (transaction : SignedTransaction) : MempoolError :=
  if m.transactions.length ≥ maximumMempoolTransactions then .full
  else
    match scanPending κ transaction m.transactions 0 0 with
    | .error e => e
    | .ok (reserved, pendingCount) =>
        checkAccount (m.chainState.account (transaction.sender κ)) transaction reserved pendingCount

/-- `Mempool::add`. -/
def add (m : Mempool) (transaction : SignedTransaction) : Mempool × MempoolError :=
  if m.admission κ transaction = .none then
    ({ m with transactions := m.transactions ++ [transaction] }, .none)
  else (m, m.admission κ transaction)

/-- A run of `add`s, results ignored. -/
def addAll (m : Mempool) (ts : List SignedTransaction) : Mempool :=
  ts.foldl (fun m t => (m.add κ t).1) m

/-- `Mempool::revalidate`; the second component is the number removed. -/
def revalidate (m : Mempool) (chainState : ChainState) : Mempool × Nat :=
  let next := addAll κ ⟨chainState, []⟩ m.transactions
  (next, m.transactions.length - next.transactions.length)

end Mempool

variable {κ : Crypto}

namespace Mempool

/-! ## What admission means -/

theorem sender_eq_iff {t u : SignedTransaction} :
    t.sender κ = u.sender κ ↔ (t.sender κ).hash = (u.sender κ).hash := by
  constructor
  · intro h
    rw [h]
  · intro h
    exact congrArg Address.mk h

/-- A scan that ends has met no equal id and has added up the sender's debits. -/
theorem scanPending_ok {t : SignedTransaction} (ps : List SignedTransaction) :
    ∀ {reserved count : UInt64} {r : UInt64 × UInt64},
      scanPending κ t ps reserved count = .ok r → count.toNat + ps.length < 2 ^ 64 →
        (∀ p ∈ ps, p.id κ ≠ t.id κ) ∧
        r.1.toNat = reserved.toNat + debitsOf κ (t.sender κ).hash ps ∧
        r.2.toNat = count.toNat + (noncesOf κ (t.sender κ).hash ps).length := by
  induction ps with
  | nil =>
      intro reserved count r h _
      cases h
      exact ⟨fun p hp => absurd hp List.not_mem_nil, rfl, rfl⟩
  | cons p ps ih =>
      intro reserved count r h hcount
      rw [List.length_cons] at hcount
      rw [scanPending] at h
      by_cases hid : p.id κ = t.id κ
      · rw [if_pos hid] at h
        cases h
      rw [if_neg hid] at h
      by_cases hsender : p.sender κ = t.sender κ
      · have hhash := sender_eq_iff.mp hsender
        rw [if_neg (not_not.mpr hsender)] at h
        by_cases hnonce : p.accountNonce = t.accountNonce
        · rw [if_pos hnonce] at h
          cases h
        rw [if_neg hnonce] at h
        dsimp only at h
        by_cases hroom : reserved > room (p.amount + p.fee)
        · rw [if_pos hroom] at h
          cases h
        rw [if_neg hroom] at h
        have hfit := add_lt_of_not_gt_room hroom
        have hdebit := toNat_add_of_lt p.debit_lt
        have hsum : (reserved + (p.amount + p.fee)).toNat
            = reserved.toNat + (p.amount.toNat + p.fee.toNat) := by
          rw [toNat_add_of_lt hfit, hdebit]
        have hsucc : (count + 1).toNat = count.toNat + 1 :=
          toNat_add_of_lt (b := 1) (show count.toNat + 1 < 2 ^ 64 by omega)
        obtain ⟨hids, hreserved, hpending⟩ := ih h (by omega)
        refine ⟨?_, ?_, ?_⟩
        · exact List.forall_mem_cons.mpr ⟨hid, hids⟩
        · rw [hreserved, hsum, debitsOf_cons_self hhash]
          omega
        · rw [hpending, hsucc, noncesOf_cons_self hhash, List.length_cons]
          omega
      · have hhash : (p.sender κ).hash ≠ (t.sender κ).hash :=
          fun he => hsender (sender_eq_iff.mpr he)
        rw [if_pos hsender] at h
        obtain ⟨hids, hreserved, hpending⟩ := ih h (by omega)
        rw [debitsOf_cons_other hhash, noncesOf_cons_other hhash]
        exact ⟨List.forall_mem_cons.mpr ⟨hid, hids⟩, hreserved, hpending⟩

/-- The scan reports no error but its own. -/
theorem scanPending_error_ne {t : SignedTransaction} (ps : List SignedTransaction) :
    ∀ {reserved count : UInt64}, scanPending κ t ps reserved count ≠ .error .none := by
  induction ps with
  | nil => intro reserved count h; cases h
  | cons p ps ih =>
      intro reserved count h
      rw [scanPending] at h
      split at h
      · cases h
      split at h
      · exact ih h
      split at h
      · cases h
      dsimp only at h
      split at h
      · cases h
      · exact ih h

/-- The last checks, passed. -/
theorem checkAccount_none {account : AccountState} {t : SignedTransaction}
    {reserved count : UInt64} (h : checkAccount account t reserved count = .none) :
    t.accountNonce.toNat = account.nextNonce.toNat + count.toNat ∧
      reserved.toNat + (t.amount.toNat + t.fee.toNat) ≤ account.balance.toNat := by
  unfold checkAccount at h
  split_ifs at h with hexhausted hnonce hfunds
  obtain ⟨-, hroom⟩ := not_or.mp hexhausted
  obtain ⟨hreserved, hrest⟩ := not_or.mp hfunds
  have hle := UInt64.not_lt.mp hreserved
  have hfit := add_lt_of_not_gt_room hroom
  have hdebit := toNat_add_of_lt t.debit_lt
  have hbalance := UInt64.le_iff_toNat_le.mp hle
  have hcover := UInt64.le_iff_toNat_le.mp (UInt64.not_lt.mp hrest)
  rw [hdebit, UInt64.toNat_sub_of_le _ _ hle] at hcover
  constructor
  · rw [not_not.mp hnonce, toNat_add_of_lt (by omega)]
  · omega

/-! ## The invariant of the pool -/

/-- What holds of a pool that only `add` has filled. -/
structure Inv (κ : Crypto) (m : Mempool) : Prop where
  size : m.transactions.length ≤ maximumMempoolTransactions
  ids : (m.transactions.map (SignedTransaction.id κ)).Nodup
  nonces : ∀ address, noncesOf κ address m.transactions
    = List.range' (nonceOf m.chainState.accounts address)
        (noncesOf κ address m.transactions).length
  funds : ∀ address, debitsOf κ address m.transactions ≤ balanceOf m.chainState.accounts address

theorem Inv.new (state : ChainState) : Inv κ ⟨state, []⟩ where
  size := Nat.zero_le _
  ids := List.nodup_nil
  nonces _ := rfl
  funds _ := Nat.zero_le _

/-- What an admitted transaction adds to a pool that satisfies the invariant. -/
structure Admitted (κ : Crypto) (m : Mempool) (t : SignedTransaction) : Prop where
  notFull : m.transactions.length < maximumMempoolTransactions
  fresh : ∀ p ∈ m.transactions, p.id κ ≠ t.id κ
  nonce : t.accountNonce.toNat = nonceOf m.chainState.accounts (t.sender κ).hash
    + (noncesOf κ (t.sender κ).hash m.transactions).length
  funded : debitsOf κ (t.sender κ).hash m.transactions + (t.amount.toNat + t.fee.toNat)
    ≤ balanceOf m.chainState.accounts (t.sender κ).hash

theorem admitted_of_admission {m : Mempool} {t : SignedTransaction} (h : m.admission κ t = .none) :
    Admitted κ m t := by
  rw [admission] at h
  by_cases hfull : m.transactions.length ≥ maximumMempoolTransactions
  · rw [if_pos hfull] at h
    cases h
  rw [if_neg hfull] at h
  have hlt : m.transactions.length < maximumMempoolTransactions := not_le.mp hfull
  have hsize : (0 : UInt64).toNat + m.transactions.length < 2 ^ 64 := by
    have : m.transactions.length < 10000 := hlt
    rw [UInt64.toNat_zero]
    omega
  cases hscan : scanPending κ t m.transactions 0 0 with
  | error e =>
      rw [hscan] at h
      subst h
      exact absurd hscan (scanPending_error_ne _)
  | ok r =>
      rw [hscan] at h
      obtain ⟨hids, hreserved, hcount⟩ := scanPending_ok _ hscan hsize
      obtain ⟨hnonce, hfunds⟩ := checkAccount_none h
      rw [UInt64.toNat_zero, Nat.zero_add] at hreserved hcount
      refine ⟨hlt, hids, ?_, ?_⟩
      · rw [hnonce, hcount]
        rfl
      · rw [← hreserved]
        exact hfunds

/-- Appending an admitted transaction keeps the invariant. -/
theorem Inv.push {m : Mempool} (h : m.Inv κ) {t : SignedTransaction} (ha : Admitted κ m t) :
    Inv κ { m with transactions := m.transactions ++ [t] } where
  size := by
    rw [List.length_append]
    exact ha.notFull
  ids := by
    rw [List.map_append, List.map_singleton, ← List.concat_eq_append]
    refine List.Nodup.concat ?_ h.ids
    intro hmem
    obtain ⟨p, hp, heq⟩ := List.mem_map.mp hmem
    exact ha.fresh p hp heq
  nonces address := by
    rw [noncesOf_append]
    by_cases hs : (t.sender κ).hash = address
    · subst hs
      have hlast : noncesOf κ (t.sender κ).hash [t] = [t.accountNonce.toNat] :=
        noncesOf_cons_self rfl
      rw [hlast, List.length_append, List.length_singleton, List.range'_concat, ha.nonce,
        ← h.nonces, Nat.one_mul]
    · have hnone : noncesOf κ address [t] = [] := noncesOf_cons_other hs
      rw [hnone, List.append_nil]
      exact h.nonces address
  funds address := by
    rw [debitsOf_append]
    by_cases hs : (t.sender κ).hash = address
    · subst hs
      have hlast : debitsOf κ (t.sender κ).hash [t] = t.amount.toNat + t.fee.toNat + 0 :=
        debitsOf_cons_self rfl
      have := ha.funded
      rw [hlast]
      exact this
    · have hnone : debitsOf κ address [t] = 0 := debitsOf_cons_other hs
      rw [hnone]
      exact h.funds address

/-- One `add`: nothing, or one admitted transaction at the end. -/
theorem add_cases (κ : Crypto) (m : Mempool) (t : SignedTransaction) :
    ((m.add κ t).1 = m ∧ (m.add κ t).2 ≠ .none) ∨
      (Admitted κ m t ∧ (m.add κ t).2 = .none ∧
        (m.add κ t).1 = { m with transactions := m.transactions ++ [t] }) := by
  rw [add]
  by_cases h : m.admission κ t = .none
  · rw [if_pos h]
    exact Or.inr ⟨admitted_of_admission h, rfl, rfl⟩
  · rw [if_neg h]
    exact Or.inl ⟨rfl, h⟩

@[simp] theorem chainState_add (m : Mempool) (t : SignedTransaction) :
    (m.add κ t).1.chainState = m.chainState := by
  rcases add_cases κ m t with ⟨h, -⟩ | ⟨-, -, h⟩
  · rw [h]
  · rw [h]

theorem Inv.add {m : Mempool} (h : m.Inv κ) (t : SignedTransaction) : (m.add κ t).1.Inv κ := by
  rcases add_cases κ m t with ⟨hm, -⟩ | ⟨ha, -, hm⟩
  · rw [hm]
    exact h
  · rw [hm]
    exact h.push ha

theorem addAll_cons (m : Mempool) (t : SignedTransaction) (ts : List SignedTransaction) :
    m.addAll κ (t :: ts) = (m.add κ t).1.addAll κ ts := rfl

theorem Inv.addAll (ts : List SignedTransaction) :
    ∀ {m : Mempool}, m.Inv κ → (m.addAll κ ts).Inv κ := by
  induction ts with
  | nil => intro m h; exact h
  | cons t ts ih => intro m h; exact ih (h.add t)

theorem chainState_addAll (ts : List SignedTransaction) :
    ∀ m : Mempool, (m.addAll κ ts).chainState = m.chainState := by
  induction ts with
  | nil => intro m; rfl
  | cons t ts ih =>
      intro m
      exact (ih _).trans (chainState_add m t)

/-- Nothing enters the pool but what was added. -/
theorem mem_of_mem_addAll (ts : List SignedTransaction) :
    ∀ {m : Mempool} {t : SignedTransaction},
      t ∈ (m.addAll κ ts).transactions → t ∈ m.transactions ∨ t ∈ ts := by
  induction ts with
  | nil => intro m t h; exact Or.inl h
  | cons u ts ih =>
      intro m t h
      rw [addAll_cons] at h
      rcases ih h with hm | hts
      · rcases add_cases κ m u with ⟨hadd, -⟩ | ⟨-, -, hadd⟩
        · rw [hadd] at hm
          exact Or.inl hm
        · rw [hadd] at hm
          rcases List.mem_append.mp hm with hm | hu
          · exact Or.inl hm
          · exact Or.inr (List.mem_cons.mpr (Or.inl (List.mem_singleton.mp hu)))
      · exact Or.inr (List.mem_cons_of_mem u hts)

/-- `revalidate` restores the invariant against any state. -/
theorem inv_revalidate (m : Mempool) (state : ChainState) : (m.revalidate κ state).1.Inv κ :=
  Inv.addAll m.transactions (Inv.new state)

@[simp] theorem chainState_revalidate (m : Mempool) (state : ChainState) :
    (m.revalidate κ state).1.chainState = state :=
  chainState_addAll m.transactions ⟨state, []⟩

end Mempool

end BBC
