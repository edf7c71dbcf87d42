/-
# `BBC.Mempool.NonceLimit` — the two rules at the last nonce

An account whose nonce is `2^64 - 1` can send no more, and so the nonce `2^64 - 1` itself
can never be used: `apply_block_state` refuses a transaction that carries it.  `add` refuses

    the confirmed nonce is `2^64 - 1`, or
    the confirmed nonce plus the number of pending transactions overflows

and the second condition is one short.  When the sum is `2^64 - 1` and at least one
transaction is pending, neither holds, and a transaction with the last nonce gets in
(`Slips`).  As long as no `add` slips, no transaction of the pool is refused by
`apply_block_state` on account of an exhausted nonce.
-/
import BBC.Lib.Runs
import BBC.Mempool.Admission
import BBC.Transaction.Codec

namespace BBC

open Runs (Along)

variable {κ : Crypto}

/-! ## The rule of the chain -/

/-- A body without the last nonce meets no exhausted account. -/
theorem applyTransactions_not_exhausted (ts : List SignedTransaction) :
    ∀ {accounts : Accounts} {totalFees : UInt64} {index : Nat} {place : Option Nat},
      (∀ t ∈ ts, t.accountNonce ≠ maxU64) →
        applyTransactions κ accounts totalFees index ts ≠
          .error ⟨.accountNonceExhausted, place⟩ := by
  induction ts with
  | nil =>
      intro accounts totalFees index place _ h
      cases h
  | cons t ts ih =>
      intro accounts totalFees index place hts h
      obtain ⟨hlast, hts⟩ := List.forall_mem_cons.mp hts
      rw [applyTransactions_cons] at h
      cases hfirst : applyTransaction κ accounts totalFees index t with
      | ok r =>
          rw [hfirst] at h
          exact ih hts h
      | error e =>
          rw [hfirst] at h
          cases h
          rw [applyTransaction_eq] at hfirst
          split_ifs at hfirst with hnonce hmax
          · cases hfirst
          · exact hlast ((not_not.mp hnonce).trans hmax)
          all_goals cases hfirst

theorem applyBlockState_not_exhausted {state : ChainState} {block : Block}
    (h : ∀ t ∈ block.transactions, t.accountNonce ≠ maxU64) (place : Option Nat) :
    applyBlockState κ state block ≠ .error ⟨.accountNonceExhausted, place⟩ := by
  rw [applyBlockState_eq]
  split_ifs
  · exact nofun
  split
  · exact nofun
  split
  · rename_i e he
    intro heq
    cases heq
    exact applyTransactions_not_exhausted _ h he
  · rw [creditMiner_eq]
    split_ifs
    · exact nofun
    · exact nofun
    · exact nofun

namespace Mempool

/-! ## The rule of the pool -/

/-- An `add` that takes the last nonce: the sender has transactions pending, and they end
right below it. -/
structure Slips (κ : Crypto) (m : Mempool) (t : SignedTransaction) : Prop where
  last : t.accountNonce = maxU64
  pending : queueOf κ (t.sender κ).hash m.transactions ≠ []
  below : nonceOf m.chainState.accounts (t.sender κ).hash
    + (queueOf κ (t.sender κ).hash m.transactions).length = maxU64.toNat
  notFull : m.transactions.length < maximumMempoolTransactions
  fresh : ∀ p ∈ m.transactions, p.id κ ≠ t.id κ
  funded : debitsOf κ (t.sender κ).hash m.transactions + debit t
    ≤ balanceOf m.chainState.accounts (t.sender κ).hash

/-- The first check after the scan. -/
theorem nextNonce_of_admission {m : Mempool} {t : SignedTransaction}
    (h : m.admission κ t = .none) :
    nonceOf m.chainState.accounts (t.sender κ).hash ≠ maxU64.toNat := by
  intro hmax
  have hnext : (m.chainState.account (t.sender κ)).nextNonce = maxU64 := UInt64.toNat_inj.mp hmax
  rw [admission] at h
  split_ifs at h
  split at h
  · rename_i e hscan
    rw [h] at hscan
    exact scanPending_error_ne _ hscan
  · rw [checkAccount, if_pos (Or.inl hnext)] at h
    cases h

/-- `add` takes a transaction with the last nonce exactly when it slips. -/
theorem add_last_iff {m : Mempool} (hm : m.Inv κ) {t : SignedTransaction}
    (ht : t.accountNonce = maxU64) : (m.add κ t).2 = .none ↔ Slips κ m t := by
  have hvalue : nonce t = maxU64.toNat := congrArg UInt64.toNat ht
  have hlength := length_noncesOf (κ := κ) (t.sender κ).hash m.transactions
  constructor
  · intro hadd
    have hadmission : m.admission κ t = .none := by
      by_contra hrefused
      rw [add, if_neg hrefused] at hadd
      exact hrefused hadd
    have hnext := nextNonce_of_admission hadmission
    have ha := admitted_of_admission hadmission
    have hsum : nonce t = _ := ha.nonce
    refine ⟨ht, fun hempty => ?_, by omega, ha.notFull, ha.fresh, ha.funded⟩
    rw [hempty, List.length_nil] at hlength
    omega
  · intro h
    have hpositive := List.length_pos_iff.mpr h.pending
    have hbelow := h.below
    have hadmission : m.admission κ t = .none :=
      (admission_none_iff hm h.notFull h.fresh (by omega)).mpr ⟨by omega, h.funded⟩
    rw [add, if_pos hadmission]

/-- A run of `add`s lets the last nonce in exactly where it slips. -/
theorem addAll_last_iff (ts : List SignedTransaction) : ∀ {m : Mempool}, m.Inv κ →
    ((∀ t ∈ (m.addAll κ ts).transactions, t.accountNonce ≠ maxU64) ↔
      (∀ t ∈ m.transactions, t.accountNonce ≠ maxU64) ∧
        Along (fun m t => (m.add κ t).1) (fun m t => ¬ Slips κ m t) m ts) := by
  induction ts with
  | nil =>
      intro m _
      exact ⟨fun h => ⟨h, trivial⟩, fun h => h.1⟩
  | cons t ts ih =>
      intro m hm
      have hstep : (∀ u ∈ (m.add κ t).1.transactions, u.accountNonce ≠ maxU64) ↔
          (∀ u ∈ m.transactions, u.accountNonce ≠ maxU64) ∧ ¬ Slips κ m t := by
        rcases add_cases κ m t with ⟨hsame, hrefused⟩ | ⟨-, hadded, hnext⟩
        · rw [hsame]
          refine ⟨fun h => ⟨h, fun hslips => ?_⟩, fun h => h.1⟩
          exact hrefused ((add_last_iff hm hslips.last).mpr hslips)
        · rw [hnext]
          refine List.forall_mem_append.trans (and_congr_right fun _ => ?_)
          rw [List.forall_mem_singleton]
          constructor
          · intro hne hslips
            exact hne hslips.last
          · intro hnot hlast
            exact hnot ((add_last_iff hm hlast).mp hadded)
      rw [addAll_cons, ih (hm.add t), hstep, and_assoc]
      rfl

/-- The pool and the chain agree at the last nonce as long as no `add` slips, and only so
long: the last nonce is refused at every step that does not slip and taken at every other. -/
theorem nonce_limit_agrees (κ : Crypto) (state : ChainState) (ts : List SignedTransaction) :
    let m := addAll κ ⟨state, []⟩ ts
    (Along (fun m t => (m.add κ t).1) (fun m t => ¬ Slips κ m t) ⟨state, []⟩ ts →
      ∀ (block : Block) (place : Option Nat), block.transactions ⊆ m.transactions →
        applyBlockState κ state block ≠ .error ⟨.accountNonceExhausted, place⟩) ∧
    ((∀ t ∈ m.transactions, t.accountNonce ≠ maxU64) ↔
      Along (fun m t => (m.add κ t).1) (fun m t => ¬ Slips κ m t) ⟨state, []⟩ ts) ∧
    ∀ t, t.accountNonce = maxU64 → ((m.add κ t).2 ≠ .none ↔ ¬ Slips κ m t) := by
  intro m
  have hexact : (∀ t ∈ m.transactions, t.accountNonce ≠ maxU64) ↔
      Along (fun m t => (m.add κ t).1) (fun m t => ¬ Slips κ m t) ⟨state, []⟩ ts := by
    rw [addAll_last_iff ts (Inv.new state)]
    exact and_iff_right fun t ht => absurd ht List.not_mem_nil
  refine ⟨fun halong block place hbody => ?_, hexact, fun t ht => ?_⟩
  · exact applyBlockState_not_exhausted (fun t ht => hexact.mpr halong t (hbody ht)) place
  · exact not_congr (add_last_iff (Inv.addAll ts (Inv.new state)) ht)

/-! ## The last two payments of an account -/

theorem payment_validated (accountNonce : UInt64) :
    validateFields ⟨⟨List.Vector.replicate 32 9⟩, 20, 10, accountNonce, 2⟩ = .none := by
  have hchain : SupportedChain 2 := by decide
  have hamount : ¬ (20 : UInt64) = 0 := by decide
  have hfee : ¬ (10 : UInt64) > maxU64 - 20 := by decide +kernel
  rw [validateFields, if_neg (not_not.mpr hchain), if_neg hamount, if_neg hfee]

/-- A payment with the given nonce. -/
def payment (accountNonce : UInt64) : SignedTransaction where
  chainId := 2
  senderPublicKey := List.Vector.replicate 32 7
  recipient := ⟨List.Vector.replicate 32 9⟩
  amount := 20
  fee := 10
  accountNonce := accountNonce
  signature := referenceTag (serializeUnsigned 2 (List.Vector.replicate 32 7)
    ⟨List.Vector.replicate 32 9⟩ 20 10 accountNonce) (List.Vector.replicate 32 7)
  validated := payment_validated accountNonce

/-- Its sender has the confirmed nonce given. -/
def lateState (nextNonce : UInt64) : ChainState :=
  ⟨(∅ : Accounts).insert ((payment 0).sender reference).hash ⟨100, nextNonce⟩⟩

theorem twoPayments_bounded :
    [payment (maxU64 - 1), payment maxU64].length ≤ maximumTransactionsPerBlock := by
  rw [maximumTransactionsPerBlock]
  exact Nat.le_of_ble_eq_true rfl

/-- A block with both. -/
def lastBlock : Block where
  chainId := 2
  height := 1
  previousBlockHash := .zero
  transactionRoot := .zero
  rewardRecipient := some ⟨List.Vector.replicate 32 9⟩
  timestamp := 0
  difficultyTarget := .zero
  miningNonce := 0
  transactions := [payment (maxU64 - 1), payment maxU64]
  bounded := twoPayments_bounded

/-- Far from the limit both payments apply. -/
theorem nonce_limit_agrees_early :
    let m := addAll reference ⟨lateState 5, []⟩ [payment 5, payment 6]
    m.transactions = [payment 5, payment 6] ∧
    ∀ (block : Block) (place : Option Nat), block.transactions ⊆ m.transactions →
      applyBlockState reference (lateState 5) block ≠ .error ⟨.accountNonceExhausted, place⟩ := by
  intro m
  -- the value in place of its name, so that the kernel does not evaluate it to compare the two
  subst m
  have hpool : (addAll reference ⟨lateState 5, []⟩ [payment 5, payment 6]).transactions
        = [payment 5, payment 6] ∧
      ∀ t ∈ (addAll reference ⟨lateState 5, []⟩ [payment 5, payment 6]).transactions,
        t.accountNonce ≠ maxU64 := by
    decide +kernel
  obtain ⟨hagrees, hexact, -⟩ := nonce_limit_agrees reference (lateState 5) [payment 5, payment 6]
  exact ⟨hpool.1, hagrees (hexact.mp hpool.2)⟩

/-- Two nonces are left, and `add` takes a transaction for each; the chain refuses the
second one. -/
theorem last_nonce_admitted :
    let m := addAll reference ⟨lateState (maxU64 - 1), []⟩ [payment (maxU64 - 1)]
    (m.add reference (payment maxU64)).2 = .none ∧
    (m.add reference (payment maxU64)).1.transactions = lastBlock.transactions ∧
    queueOf reference ((payment maxU64).sender reference).hash lastBlock.transactions
      = lastBlock.transactions ∧
    applyBlockState reference (lateState (maxU64 - 1)) lastBlock
      = .error ⟨.accountNonceExhausted, some 1⟩ := by
  decide +kernel

end Mempool

end BBC
