/-
# `BBC.Chain.Ledger` — what one transition does to balances and nonces

Three results about `apply_block_state`, each for an arbitrary state and an
arbitrary block.

* **What passes.**  The loop body accepts a transaction exactly when it is
  `Payable`, and then the accounts become `transferred` (`applyTransaction_ok_iff`).
* **No operation wraps.**  The checked reading of the transition never stops and
  returns what the machine returns (`applyBlockStateWith_checked`).
* **Conservation.**  The accounts lose the fees during the loop and get them back
  with the subsidy at the end, so an accepted block raises the supply by exactly
  one subsidy (`applyBlockState_supply`).
-/
import BBC.Chain.State

namespace BBC

open MapSum

variable {κ : Crypto}

/-! ## The transition, written out -/

/-- The accounts after the sender has been charged. -/
def debited (κ : Crypto) (accounts : Accounts) (t : SignedTransaction) : Accounts :=
  accounts.insert (t.sender κ).hash
    ⟨(accounts.getD (t.sender κ).hash {}).balance - (t.amount + t.fee),
      (accounts.getD (t.sender κ).hash {}).nextNonce + 1⟩

/-- An account map with one balance raised. -/
def credited (accounts : Accounts) (recipient : Address) (amount : UInt64) : Accounts :=
  accounts.insert recipient.hash
    ⟨(accounts.getD recipient.hash {}).balance + amount,
      (accounts.getD recipient.hash {}).nextNonce⟩

/-- The accounts after a transaction. -/
def transferred (κ : Crypto) (accounts : Accounts) (t : SignedTransaction) : Accounts :=
  credited (debited κ accounts t) t.recipient t.amount

theorem applyTransaction_eq (accounts : Accounts) (totalFees : UInt64) (index : Nat)
    (t : SignedTransaction) :
    applyTransaction κ accounts totalFees index t =
      if t.accountNonce ≠ (accounts.getD (t.sender κ).hash {}).nextNonce then
        .error ⟨.invalidAccountNonce, some index⟩
      else if (accounts.getD (t.sender κ).hash {}).nextNonce = maxU64 then
        .error ⟨.accountNonceExhausted, some index⟩
      else if (accounts.getD (t.sender κ).hash {}).balance < t.amount + t.fee then
        .error ⟨.insufficientBalance, some index⟩
      else if ((debited κ accounts t).getD t.recipient.hash {}).balance > room t.amount then
        .error ⟨.recipientBalanceOverflow, some index⟩
      else if totalFees > room t.fee then
        .error ⟨.feeTotalOverflow, some index⟩
      else .ok (transferred κ accounts t, totalFees + t.fee) := by
  unfold room
  rfl

@[simp] theorem applyTransactions_nil (accounts : Accounts) (totalFees : UInt64) (index : Nat) :
    applyTransactions κ accounts totalFees index [] = .ok (accounts, totalFees) := rfl

theorem applyTransactions_cons (accounts : Accounts) (totalFees : UInt64) (index : Nat)
    (t : SignedTransaction) (ts : List SignedTransaction) :
    applyTransactions κ accounts totalFees index (t :: ts) =
      match applyTransaction κ accounts totalFees index t with
      | .error e => .error e
      | .ok (accounts, totalFees) => applyTransactions κ accounts totalFees (index + 1) ts := by
  simp only [applyTransactions, applyTransactionsWith, applyTransaction, Id.run_bind]
  cases (applyTransactionWith Arith.wrapping κ accounts totalFees index t).run <;> rfl

theorem creditMiner_eq (accounts : Accounts) (totalFees : UInt64) (recipient : Address) :
    creditMiner accounts totalFees recipient =
      if totalFees > room blockSubsidy then .error ⟨.rewardOverflow, none⟩
      else if (accounts.getD recipient.hash {}).balance > room (blockSubsidy + totalFees) then
        .error ⟨.rewardOverflow, none⟩
      else .ok (credited accounts recipient (blockSubsidy + totalFees)) := by
  unfold room
  rfl

theorem applyBlockState_eq (state : ChainState) (block : Block) :
    applyBlockState κ state block =
      if block.isGenesis then .error ⟨.genesisHasNoTransition, none⟩
      else match block.rewardRecipient with
      | none => .error ⟨.missingRewardRecipient, none⟩
      | some recipient =>
          match applyTransactions κ state.accounts 0 0 block.transactions with
          | .error e => .error e
          | .ok (accounts, totalFees) =>
              match creditMiner accounts totalFees recipient with
              | .error e => .error e
              | .ok accounts => .ok ⟨accounts⟩ := by
  simp only [applyBlockState, applyBlockStateWith, applyTransactions, creditMiner]
  by_cases hg : block.isGenesis
  · rw [if_pos hg, if_pos hg]
    rfl
  rw [if_neg hg, if_neg hg]
  cases block.rewardRecipient with
  | none => rfl
  | some recipient =>
      simp only [Id.run_bind]
      cases (applyTransactionsWith Arith.wrapping κ state.accounts 0 0 block.transactions).run with
      | error e => rfl
      | ok r =>
          simp only [Id.run_bind]
          cases (creditMinerWith Arith.wrapping r.1 r.2 recipient).run <;> rfl

/-! ## No operation wraps -/

theorem checked_add {a b : UInt64} (h : a.toNat + b.toNat < 2 ^ 64) :
    Arith.checked.add a b = some (a + b) := if_pos h

theorem checked_sub {a b : UInt64} (h : b.toNat ≤ a.toNat) :
    Arith.checked.sub a b = some (a - b) := if_pos h

theorem checked_room (a : UInt64) : Arith.checked.sub maxU64 a = some (room a) := by
  unfold room
  refine checked_sub ?_
  have := a.toNat_lt
  rw [maxU64_toNat]
  omega

theorem checked_succ {a : UInt64} (h : a ≠ maxU64) : Arith.checked.add a 1 = some (a + 1) :=
  checked_add (b := 1) (toNat_lt_of_ne_max h)

theorem applyTransactionWith_checked (accounts : Accounts) (totalFees : UInt64) (index : Nat)
    (t : SignedTransaction) :
    applyTransactionWith Arith.checked κ accounts totalFees index t
      = some (applyTransaction κ accounts totalFees index t) := by
  rw [applyTransaction_eq]
  simp only [applyTransactionWith]
  by_cases hnonce : t.accountNonce ≠ (accounts.getD (t.sender κ).hash {}).nextNonce
  · rw [if_pos hnonce, if_pos hnonce]
    rfl
  rw [if_neg hnonce, if_neg hnonce]
  by_cases hmax : (accounts.getD (t.sender κ).hash {}).nextNonce = maxU64
  · rw [if_pos hmax, if_pos hmax]
    rfl
  rw [if_neg hmax, if_neg hmax, checked_add t.debit_lt]
  simp only [Option.bind_eq_bind, Option.bind_some]
  by_cases hfunds : (accounts.getD (t.sender κ).hash {}).balance < t.amount + t.fee
  · rw [if_pos hfunds, if_pos hfunds]
    rfl
  rw [if_neg hfunds, if_neg hfunds,
    checked_sub (UInt64.le_iff_toNat_le.mp (UInt64.not_lt.mp hfunds)),
    checked_succ hmax, checked_room, checked_room, Option.bind_some, Option.bind_some,
    Option.bind_some, ← debited]
  by_cases hroom : ((debited κ accounts t).getD t.recipient.hash {}).balance > room t.amount
  · rw [if_pos hroom, if_pos hroom]
    rfl
  rw [if_neg hroom, if_neg hroom, checked_add (add_lt_of_not_gt_room hroom),
    Option.bind_some, Option.bind_some]
  by_cases hfees : totalFees > room t.fee
  · rw [if_pos hfees, if_pos hfees]
    rfl
  rw [if_neg hfees, if_neg hfees, checked_add (add_lt_of_not_gt_room hfees)]
  rfl

theorem applyTransactionsWith_checked (ts : List SignedTransaction) :
    ∀ (accounts : Accounts) (totalFees : UInt64) (index : Nat),
      applyTransactionsWith Arith.checked κ accounts totalFees index ts
        = some (applyTransactions κ accounts totalFees index ts) := by
  induction ts with
  | nil => intro _ _ _; rfl
  | cons t ts ih =>
      intro accounts totalFees index
      rw [applyTransactions_cons, applyTransactionsWith, applyTransactionWith_checked]
      simp only [Option.bind_eq_bind, Option.bind_some]
      cases applyTransaction κ accounts totalFees index t with
      | error e => rfl
      | ok r => exact ih r.1 r.2 (index + 1)

theorem creditMinerWith_checked (accounts : Accounts) (totalFees : UInt64) (recipient : Address) :
    creditMinerWith Arith.checked accounts totalFees recipient
      = some (creditMiner accounts totalFees recipient) := by
  rw [creditMiner_eq, creditMinerWith, checked_room, Option.bind_eq_bind, Option.bind_some]
  by_cases hsubsidy : totalFees > room blockSubsidy
  · rw [if_pos hsubsidy, if_pos hsubsidy]
    rfl
  have hfit := add_lt_of_not_gt_room hsubsidy
  rw [if_neg hsubsidy, if_neg hsubsidy, checked_add (by rw [Nat.add_comm]; exact hfit),
    Option.bind_some, checked_room]
  dsimp only
  rw [Option.bind_some]
  by_cases hminer :
      (accounts.getD recipient.hash {}).balance > room (blockSubsidy + totalFees)
  · rw [if_pos hminer, if_pos hminer]
    rfl
  rw [if_neg hminer, if_neg hminer, checked_add (add_lt_of_not_gt_room hminer)]
  rfl

/-- No `uint64` addition or subtraction of `apply_block_state` wraps, whatever
the state and the block. -/
theorem applyBlockStateWith_checked (state : ChainState) (block : Block) :
    applyBlockStateWith Arith.checked κ state block = some (applyBlockState κ state block) := by
  rw [applyBlockState_eq, applyBlockStateWith]
  by_cases hg : block.isGenesis
  · rw [if_pos hg, if_pos hg]
    rfl
  rw [if_neg hg, if_neg hg]
  cases block.rewardRecipient with
  | none => rfl
  | some recipient =>
      simp only [applyTransactionsWith_checked, creditMinerWith_checked, Option.bind_eq_bind,
        Option.bind_some]
      cases applyTransactions κ state.accounts 0 0 block.transactions with
      | error e => rfl
      | ok r => cases h : creditMiner r.1 r.2 recipient <;> simp [h]

/-! ## What passes -/

/-- The conditions under which the loop body lets a transaction through. -/
structure Payable (κ : Crypto) (accounts : Accounts) (totalFees : UInt64)
    (t : SignedTransaction) : Prop where
  nonce : t.accountNonce = (accounts.getD (t.sender κ).hash {}).nextNonce
  notExhausted : (accounts.getD (t.sender κ).hash {}).nextNonce ≠ maxU64
  funded : t.amount.toNat + t.fee.toNat ≤ (accounts.getD (t.sender κ).hash {}).balance.toNat
  recipientRoom :
    ((debited κ accounts t).getD t.recipient.hash {}).balance.toNat + t.amount.toNat < 2 ^ 64
  feeRoom : totalFees.toNat + t.fee.toNat < 2 ^ 64

theorem not_balance_lt_debit {balance : UInt64} {t : SignedTransaction} :
    ¬ balance < t.amount + t.fee ↔ t.amount.toNat + t.fee.toNat ≤ balance.toNat := by
  rw [UInt64.lt_iff_toNat_lt, toNat_add_of_lt t.debit_lt, not_lt]

theorem not_gt_room {a b : UInt64} : ¬ a > room b ↔ a.toNat + b.toNat < 2 ^ 64 := by
  rw [gt_room, not_le]

theorem applyTransaction_ok_iff {accounts : Accounts} {totalFees : UInt64} {index : Nat}
    {t : SignedTransaction} {r : Accounts × UInt64} :
    applyTransaction κ accounts totalFees index t = .ok r ↔
      Payable κ accounts totalFees t ∧ r = (transferred κ accounts t, totalFees + t.fee) := by
  rw [applyTransaction_eq]
  constructor
  · intro h
    split_ifs at h with hnonce hmax hfunds hroom hfees
    cases h
    exact ⟨⟨not_not.mp hnonce, hmax, not_balance_lt_debit.mp hfunds, not_gt_room.mp hroom,
      not_gt_room.mp hfees⟩, rfl⟩
  · rintro ⟨hp, rfl⟩
    rw [if_neg (not_not.mpr hp.nonce), if_neg hp.notExhausted,
      if_neg (not_balance_lt_debit.mpr hp.funded), if_neg (not_gt_room.mpr hp.recipientRoom),
      if_neg (not_gt_room.mpr hp.feeRoom)]

/-- A passing loop either has nothing left or lets its first transaction through. -/
theorem applyTransactions_cons_ok_iff {accounts : Accounts} {totalFees : UInt64} {index : Nat}
    {t : SignedTransaction} {ts : List SignedTransaction} {r : Accounts × UInt64} :
    applyTransactions κ accounts totalFees index (t :: ts) = .ok r ↔
      Payable κ accounts totalFees t ∧
        applyTransactions κ (transferred κ accounts t) (totalFees + t.fee) (index + 1) ts
          = .ok r := by
  rw [applyTransactions_cons]
  cases h : applyTransaction κ accounts totalFees index t with
  | error e =>
      constructor
      · intro he
        cases he
      · rintro ⟨hp, -⟩
        rw [applyTransaction_ok_iff.mpr ⟨hp, rfl⟩] at h
        cases h
  | ok r' =>
      obtain ⟨hp, rfl⟩ := applyTransaction_ok_iff.mp h
      exact ⟨fun hr => ⟨hp, hr⟩, fun hr => hr.2⟩

/-- The conditions under which the miner can be paid. -/
structure Rewardable (accounts : Accounts) (totalFees : UInt64) (recipient : Address) : Prop where
  creditRoom : totalFees.toNat + blockSubsidy.toNat < 2 ^ 64
  minerRoom : (accounts.getD recipient.hash {}).balance.toNat
    + (blockSubsidy.toNat + totalFees.toNat) < 2 ^ 64

theorem creditMiner_ok_iff {accounts accounts' : Accounts} {totalFees : UInt64}
    {recipient : Address} :
    creditMiner accounts totalFees recipient = .ok accounts' ↔
      Rewardable accounts totalFees recipient ∧
        accounts' = credited accounts recipient (blockSubsidy + totalFees) := by
  rw [creditMiner_eq]
  constructor
  · intro h
    split_ifs at h with hsubsidy hminer
    cases h
    have hfit := not_gt_room.mp hsubsidy
    have hroom := not_gt_room.mp hminer
    rw [toNat_add_of_lt (by omega)] at hroom
    exact ⟨⟨hfit, hroom⟩, rfl⟩
  · rintro ⟨hr, rfl⟩
    have hfit := hr.creditRoom
    have hroom := hr.minerRoom
    rw [if_neg (not_gt_room.mpr hfit),
      if_neg (not_gt_room.mpr (by rw [toNat_add_of_lt (by omega)]; exact hroom))]

/-- An accepted block, taken apart. -/
theorem applyBlockState_ok_iff {state state' : ChainState} {block : Block} :
    applyBlockState κ state block = .ok state' ↔
      block.isGenesis = false ∧ ∃ recipient accounts totalFees,
        block.rewardRecipient = some recipient ∧
        applyTransactions κ state.accounts 0 0 block.transactions = .ok (accounts, totalFees) ∧
        Rewardable accounts totalFees recipient ∧
        state' = ⟨credited accounts recipient (blockSubsidy + totalFees)⟩ := by
  rw [applyBlockState_eq]
  constructor
  · intro h
    split_ifs at h with hg
    refine ⟨Bool.not_eq_true _ ▸ hg, ?_⟩
    cases hr : block.rewardRecipient with
    | none => rw [hr] at h; cases h
    | some recipient =>
        rw [hr] at h
        cases ht : applyTransactions κ state.accounts 0 0 block.transactions with
        | error e => rw [ht] at h; cases h
        | ok r =>
            rw [ht] at h
            cases hc : creditMiner r.1 r.2 recipient with
            | error e => simp only [hc] at h; cases h
            | ok accounts' =>
                simp only [hc] at h
                obtain ⟨hrew, rfl⟩ := creditMiner_ok_iff.mp hc
                exact ⟨recipient, r.1, r.2, rfl, rfl, hrew, (Except.ok.inj h).symm⟩
  · rintro ⟨hg, recipient, accounts, totalFees, hr, ht, hrew, rfl⟩
    rw [if_neg (by rw [hg]; exact Bool.false_ne_true), hr, ht]
    simp only [creditMiner_ok_iff.mpr ⟨hrew, rfl⟩]

/-! ## Conservation -/

/-- All the money of an account map, as an unbounded natural. -/
def supply (accounts : Accounts) : Nat := sumBy (fun a => a.balance.toNat) accounts

@[simp] theorem supply_empty : supply ∅ = 0 := sumBy_empty _

theorem supply_insert (accounts : Accounts) (address : Hash256) (a : AccountState) :
    supply (accounts.insert address a) + (accounts.getD address {}).balance.toNat
      = supply accounts + a.balance.toNat :=
  sumBy_insert (fun a : AccountState => a.balance.toNat) rfl accounts address a

theorem balance_le_supply (accounts : Accounts) (address : Hash256) :
    (accounts.getD address {}).balance.toNat ≤ supply accounts :=
  le_sumBy (fun a : AccountState => a.balance.toNat) rfl accounts address

/-- Equal accounts, equal supply. -/
theorem supply_congr {accounts accounts' : Accounts}
    (h : ∀ address, accounts.getD address {} = accounts'.getD address {}) :
    supply accounts = supply accounts' :=
  sumBy_congr (fun a : AccountState => a.balance.toNat) rfl h

theorem supply_credited {accounts : Accounts} {recipient : Address} {amount : UInt64}
    (h : (accounts.getD recipient.hash {}).balance.toNat + amount.toNat < 2 ^ 64) :
    supply (credited accounts recipient amount) = supply accounts + amount.toNat := by
  have hinsert := supply_insert accounts recipient.hash
    ⟨(accounts.getD recipient.hash {}).balance + amount,
      (accounts.getD recipient.hash {}).nextNonce⟩
  simp only [toNat_add_of_lt h] at hinsert
  rw [credited]
  omega

theorem supply_debited {accounts : Accounts} {t : SignedTransaction}
    (h : t.amount.toNat + t.fee.toNat ≤ (accounts.getD (t.sender κ).hash {}).balance.toNat) :
    supply (debited κ accounts t) + (t.amount.toNat + t.fee.toNat) = supply accounts := by
  have hdebit := toNat_add_of_lt t.debit_lt
  have hle : t.amount + t.fee ≤ (accounts.getD (t.sender κ).hash {}).balance := by
    rw [UInt64.le_iff_toNat_le, hdebit]
    exact h
  have hinsert := supply_insert accounts (t.sender κ).hash
    ⟨(accounts.getD (t.sender κ).hash {}).balance - (t.amount + t.fee),
      (accounts.getD (t.sender κ).hash {}).nextNonce + 1⟩
  simp only [UInt64.toNat_sub_of_le _ _ hle, hdebit] at hinsert
  rw [debited]
  omega

/-- A transaction takes its fee out of the accounts, whoever sends to whom. -/
theorem supply_transferred {accounts : Accounts} {totalFees : UInt64} {t : SignedTransaction}
    (h : Payable κ accounts totalFees t) :
    supply (transferred κ accounts t) + t.fee.toNat = supply accounts := by
  have hdebit := supply_debited h.funded
  have hcredit : supply (transferred κ accounts t) = _ := supply_credited h.recipientRoom
  omega

theorem applyTransactions_supply (ts : List SignedTransaction) :
    ∀ {accounts : Accounts} {totalFees : UInt64} {index : Nat} {r : Accounts × UInt64},
      applyTransactions κ accounts totalFees index ts = .ok r →
        supply r.1 + r.2.toNat = supply accounts + totalFees.toNat := by
  induction ts with
  | nil =>
      intro accounts totalFees index r h
      cases h
      rfl
  | cons t ts ih =>
      intro accounts totalFees index r h
      obtain ⟨hp, hrest⟩ := applyTransactions_cons_ok_iff.mp h
      have hsupply := supply_transferred hp
      have hfees := toNat_add_of_lt hp.feeRoom
      have := ih hrest
      omega

/-- An accepted block mints exactly one subsidy. -/
theorem applyBlockState_supply {state state' : ChainState} {block : Block}
    (h : applyBlockState κ state block = .ok state') :
    supply state'.accounts = supply state.accounts + blockSubsidy.toNat := by
  obtain ⟨-, recipient, accounts, totalFees, -, htxs, hrew, rfl⟩ := applyBlockState_ok_iff.mp h
  have hloop := applyTransactions_supply _ htxs
  have hfit := hrew.creditRoom
  have hroom := hrew.minerRoom
  have hcredit : (blockSubsidy + totalFees).toNat = blockSubsidy.toNat + totalFees.toNat :=
    toNat_add_of_lt (by omega)
  rw [supply_credited (by rw [hcredit]; exact hroom), hcredit]
  simp only [UInt64.toNat_zero] at hloop
  omega

/-! ## Nonces -/

/-- The next nonce of an address hash, as a natural. -/
def nonceOf (accounts : Accounts) (address : Hash256) : Nat :=
  (accounts.getD address {}).nextNonce.toNat

@[simp] theorem nonceOf_empty (address : Hash256) : nonceOf ∅ address = 0 := by
  simp [nonceOf]

@[simp] theorem nonceOf_credited (accounts : Accounts) (recipient : Address) (amount : UInt64)
    (address : Hash256) :
    nonceOf (credited accounts recipient amount) address = nonceOf accounts address := by
  rw [nonceOf, credited, getD_insert]
  split
  · rename_i heq
    rw [← heq]
    rfl
  · rfl

theorem nonceOf_transferred {accounts : Accounts} {totalFees : UInt64} {t : SignedTransaction}
    (h : Payable κ accounts totalFees t) (address : Hash256) :
    nonceOf (transferred κ accounts t) address =
      nonceOf accounts address + if (t.sender κ).hash = address then 1 else 0 := by
  rw [transferred, nonceOf_credited, nonceOf, debited, getD_insert]
  split
  · rename_i heq
    rw [← heq]
    exact toNat_add_of_lt (b := 1) (toNat_lt_of_ne_max h.notExhausted)
  · rfl

/-- The nonces of the transactions sent from an address hash, in order. -/
def noncesOf (κ : Crypto) (address : Hash256) (ts : List SignedTransaction) : List Nat :=
  (ts.filter fun t => (t.sender κ).hash = address).map fun t => t.accountNonce.toNat

theorem noncesOf_append (address : Hash256) (ts us : List SignedTransaction) :
    noncesOf κ address (ts ++ us) = noncesOf κ address ts ++ noncesOf κ address us := by
  simp [noncesOf]

/-- A passing loop consumes consecutive nonces of every sender, from the current
one on. -/
theorem applyTransactions_nonces (address : Hash256) (ts : List SignedTransaction) :
    ∀ {accounts : Accounts} {totalFees : UInt64} {index : Nat} {r : Accounts × UInt64},
      applyTransactions κ accounts totalFees index ts = .ok r →
        noncesOf κ address ts
            = List.range' (nonceOf accounts address) (noncesOf κ address ts).length ∧
          nonceOf r.1 address = nonceOf accounts address + (noncesOf κ address ts).length := by
  induction ts with
  | nil =>
      intro accounts totalFees index r h
      cases h
      exact ⟨rfl, rfl⟩
  | cons t ts ih =>
      intro accounts totalFees index r h
      obtain ⟨hp, hrest⟩ := applyTransactions_cons_ok_iff.mp h
      obtain ⟨hrange, hnext⟩ := ih hrest
      rw [nonceOf_transferred hp] at hrange hnext
      by_cases hs : (t.sender κ).hash = address
      · have hcons : noncesOf κ address (t :: ts)
            = nonceOf accounts address :: noncesOf κ address ts := by
          simp [noncesOf, hs, nonceOf, hp.nonce]
        rw [if_pos hs] at hrange hnext
        rw [hcons, List.length_cons, List.range'_succ, ← hrange]
        exact ⟨rfl, by omega⟩
      · have hskip : noncesOf κ address (t :: ts) = noncesOf κ address ts := by
          simp [noncesOf, hs]
        rw [if_neg hs] at hrange hnext
        rw [hskip]
        exact ⟨hrange, hnext⟩

theorem applyBlockState_nonces {state state' : ChainState} {block : Block}
    (h : applyBlockState κ state block = .ok state') (address : Hash256) :
    noncesOf κ address block.transactions
        = List.range' (nonceOf state.accounts address)
            (noncesOf κ address block.transactions).length ∧
      nonceOf state'.accounts address
        = nonceOf state.accounts address + (noncesOf κ address block.transactions).length := by
  obtain ⟨-, recipient, accounts, totalFees, -, htxs, -, rfl⟩ := applyBlockState_ok_iff.mp h
  rw [nonceOf_credited]
  exact applyTransactions_nonces address _ htxs

/-! ## One sender's share -/

/-- What the transactions sent from an address hash take out of its account. -/
def debitsOf (κ : Crypto) (address : Hash256) (ts : List SignedTransaction) : Nat :=
  ((ts.filter fun t => (t.sender κ).hash = address).map
    fun t => t.amount.toNat + t.fee.toNat).sum

/-- The balance of an address hash, as a natural. -/
def balanceOf (accounts : Accounts) (address : Hash256) : Nat :=
  (accounts.getD address {}).balance.toNat

section shares
variable {t : SignedTransaction} {ts : List SignedTransaction} {address : Hash256}

theorem noncesOf_cons_self (h : (t.sender κ).hash = address) :
    noncesOf κ address (t :: ts) = t.accountNonce.toNat :: noncesOf κ address ts := by
  simp [noncesOf, h]

theorem noncesOf_cons_other (h : (t.sender κ).hash ≠ address) :
    noncesOf κ address (t :: ts) = noncesOf κ address ts := by
  simp [noncesOf, h]

theorem debitsOf_cons_self (h : (t.sender κ).hash = address) :
    debitsOf κ address (t :: ts) = t.amount.toNat + t.fee.toNat + debitsOf κ address ts := by
  simp [debitsOf, h]

theorem debitsOf_cons_other (h : (t.sender κ).hash ≠ address) :
    debitsOf κ address (t :: ts) = debitsOf κ address ts := by
  simp [debitsOf, h]

theorem debitsOf_append (address : Hash256) (ts us : List SignedTransaction) :
    debitsOf κ address (ts ++ us) = debitsOf κ address ts + debitsOf κ address us := by
  simp [debitsOf]

theorem length_noncesOf_le (address : Hash256) (ts : List SignedTransaction) :
    (noncesOf κ address ts).length ≤ ts.length := by
  rw [noncesOf, List.length_map]
  exact List.length_filter_le _ _

end shares

/-- Senders that repeat no nonce make no pair of sender and nonce twice. -/
theorem nodup_map_of_noncesOf (ts : List SignedTransaction)
    (h : ∀ address, (noncesOf κ address ts).Nodup) :
    (ts.map fun t => (t.sender κ, t.accountNonce)).Nodup := by
  induction ts with
  | nil => exact List.nodup_nil
  | cons t ts ih =>
      rw [List.map_cons, List.nodup_cons]
      constructor
      · -- a later transaction of the same sender and nonce would repeat a nonce
        intro hmem
        obtain ⟨u, hu, heq⟩ := List.mem_map.mp hmem
        obtain ⟨hsender, hnonce⟩ := Prod.mk.inj heq
        have hnodup := h (t.sender κ).hash
        rw [noncesOf_cons_self rfl, List.nodup_cons] at hnodup
        refine hnodup.1 (List.mem_map.mpr ⟨u, ?_, by rw [hnonce]⟩)
        exact List.mem_filter.mpr ⟨hu, by simp [hsender]⟩
      · refine ih fun address => (h address).sublist ?_
        exact ((List.sublist_cons_self t ts).filter _).map _


/-! ## A body that passes -/

theorem balanceOf_credited {accounts : Accounts} {recipient : Address} {amount : UInt64}
    (h : balanceOf accounts recipient.hash + amount.toNat < 2 ^ 64) (address : Hash256) :
    balanceOf (credited accounts recipient amount) address
      = balanceOf accounts address + if recipient.hash = address then amount.toNat else 0 := by
  rw [balanceOf, credited, getD_insert]
  split
  · rename_i heq
    subst heq
    exact toNat_add_of_lt h
  · rfl

theorem balanceOf_debited {accounts : Accounts} {t : SignedTransaction}
    (h : t.amount.toNat + t.fee.toNat ≤ balanceOf accounts (t.sender κ).hash)
    (address : Hash256) :
    balanceOf (debited κ accounts t) address
        + (if (t.sender κ).hash = address then t.amount.toNat + t.fee.toNat else 0)
      = balanceOf accounts address := by
  have hdebit := toNat_add_of_lt t.debit_lt
  rw [balanceOf, debited, getD_insert]
  split
  · rename_i heq
    subst heq
    have hle : t.amount + t.fee ≤ (accounts.getD (t.sender κ).hash {}).balance := by
      rw [UInt64.le_iff_toNat_le, hdebit]
      exact h
    show ((accounts.getD (t.sender κ).hash {}).balance - (t.amount + t.fee)).toNat + _ = _
    rw [UInt64.toNat_sub_of_le _ _ hle, hdebit]
    exact Nat.sub_add_cancel h
  · rfl

/-- Enough to pass every check of the loop, whatever the order in which the
senders are interleaved: each sender's nonces follow on, its debits fit into what
it has before anyone pays it, and all the money there is fits a machine word. -/
structure Affordable (κ : Crypto) (accounts : Accounts) (totalFees : UInt64)
    (ts : List SignedTransaction) : Prop where
  nonces : ∀ address, noncesOf κ address ts
    = List.range' (nonceOf accounts address) (noncesOf κ address ts).length
  nonceRoom : ∀ address, nonceOf accounts address + (noncesOf κ address ts).length < 2 ^ 64
  funds : ∀ address, debitsOf κ address ts ≤ balanceOf accounts address
  supply : supply accounts + totalFees.toNat < 2 ^ 64

namespace Affordable

variable {accounts : Accounts} {totalFees : UInt64} {t : SignedTransaction}
  {ts : List SignedTransaction}

theorem head (h : Affordable κ accounts totalFees (t :: ts)) : Payable κ accounts totalFees t := by
  have hnonces := h.nonces (t.sender κ).hash
  have hroom := h.nonceRoom (t.sender κ).hash
  have hfunds := h.funds (t.sender κ).hash
  have hsupply := h.supply
  rw [noncesOf_cons_self rfl, List.length_cons] at hnonces hroom
  rw [debitsOf_cons_self rfl] at hfunds
  rw [List.range'_succ] at hnonces
  have hfunded : t.amount.toNat + t.fee.toNat ≤ balanceOf accounts (t.sender κ).hash := by omega
  have hdebited := supply_debited hfunded
  refine ⟨?_, ?_, hfunded, ?_, ?_⟩
  · exact UInt64.toNat_inj.mp (List.cons.inj hnonces).1
  · intro hmax
    have : nonceOf accounts (t.sender κ).hash = maxU64.toNat := congrArg UInt64.toNat hmax
    rw [maxU64_toNat] at this
    omega
  · have hle := balance_le_supply (debited κ accounts t) t.recipient.hash
    omega
  · have hle := balance_le_supply accounts (t.sender κ).hash
    omega

theorem tail (h : Affordable κ accounts totalFees (t :: ts)) :
    Affordable κ (transferred κ accounts t) (totalFees + t.fee) ts := by
  have hp := h.head
  refine ⟨?_, ?_, ?_, ?_⟩
  · intro address
    have hnonces := h.nonces address
    rw [nonceOf_transferred hp]
    by_cases hs : (t.sender κ).hash = address
    · rw [noncesOf_cons_self hs, List.length_cons, List.range'_succ] at hnonces
      rw [if_pos hs]
      exact (List.cons.inj hnonces).2
    · rw [noncesOf_cons_other hs] at hnonces
      rw [if_neg hs]
      exact hnonces
  · intro address
    have hroom := h.nonceRoom address
    rw [nonceOf_transferred hp]
    by_cases hs : (t.sender κ).hash = address
    · rw [noncesOf_cons_self hs, List.length_cons] at hroom
      rw [if_pos hs]
      omega
    · rw [noncesOf_cons_other hs] at hroom
      rw [if_neg hs]
      exact hroom
  · intro address
    have hfunds := h.funds address
    have hdebited := balanceOf_debited (κ := κ) hp.funded address
    have hcredited := balanceOf_credited hp.recipientRoom address
    rw [← transferred] at hcredited
    by_cases hs : (t.sender κ).hash = address
    · rw [debitsOf_cons_self hs] at hfunds
      rw [if_pos hs] at hdebited
      omega
    · rw [debitsOf_cons_other hs] at hfunds
      rw [if_neg hs] at hdebited
      omega
  · have hsupply := supply_transferred hp
    have := h.supply
    rw [toNat_add_of_lt hp.feeRoom]
    omega

end Affordable

theorem applyTransactions_of_affordable (ts : List SignedTransaction) :
    ∀ {accounts : Accounts} {totalFees : UInt64} (index : Nat),
      Affordable κ accounts totalFees ts →
        ∃ r, applyTransactions κ accounts totalFees index ts = .ok r := by
  induction ts with
  | nil =>
      intro accounts totalFees index _
      exact ⟨_, rfl⟩
  | cons t ts ih =>
      intro accounts totalFees index h
      obtain ⟨r, hr⟩ := ih (index + 1) h.tail
      exact ⟨r, applyTransactions_cons_ok_iff.mpr ⟨h.head, hr⟩⟩

/-- A body that is affordable, with room for one more subsidy, is a body that
`apply_block_state` accepts, whoever is paid. -/
theorem applyBlockState_of_affordable {state : ChainState} {block : Block} {recipient : Address}
    (hgenesis : block.isGenesis = false) (hrecipient : block.rewardRecipient = some recipient)
    (hroom : supply state.accounts + blockSubsidy.toNat < 2 ^ 64)
    (h : Affordable κ state.accounts 0 block.transactions) :
    ∃ next, applyBlockState κ state block = .ok next := by
  obtain ⟨⟨accounts, totalFees⟩, htxs⟩ := applyTransactions_of_affordable _ 0 h
  have hsupply := applyTransactions_supply _ htxs
  have hle := balance_le_supply accounts recipient.hash
  simp only [UInt64.toNat_zero] at hsupply
  have hreward : Rewardable accounts totalFees recipient := ⟨by omega, by omega⟩
  exact ⟨_, applyBlockState_ok_iff.mpr
    ⟨hgenesis, recipient, accounts, totalFees, hrecipient, htxs, hreward, rfl⟩⟩

/-! ## Below the supply limit -/

/-- The rejections of a transaction that have nothing to do with an overflow. -/
def StateTransitionError.Ordinary (e : StateTransitionError) : Prop :=
  e = .invalidAccountNonce ∨ e = .accountNonceExhausted ∨ e = .insufficientBalance

/-- The money in the accounts and in the collected fees fits a machine word, so neither
the recipient nor the fee total can overflow. -/
theorem ordinary_applyTransaction {accounts : Accounts} {totalFees : UInt64} {index : Nat}
    {t : SignedTransaction} {e : StateTransitionResult}
    (hsupply : supply accounts + totalFees.toNat < 2 ^ 64)
    (h : applyTransaction κ accounts totalFees index t = .error e) : e.error.Ordinary := by
  rw [applyTransaction_eq] at h
  split_ifs at h with hnonce hmax hfunds hroom hfees
  · cases h
    exact Or.inl rfl
  · cases h
    exact Or.inr (Or.inl rfl)
  · cases h
    exact Or.inr (Or.inr rfl)
  · -- the sender has paid first, so what the recipient gets has left the accounts
    have hdebited := supply_debited (not_balance_lt_debit.mp hfunds)
    have hle := balance_le_supply (debited κ accounts t) t.recipient.hash
    have hover := (gt_room _ _).mp hroom
    omega
  · have hfunded := not_balance_lt_debit.mp hfunds
    have hle := balance_le_supply accounts (t.sender κ).hash
    have hover := (gt_room _ _).mp hfees
    omega

theorem ordinary_applyTransactions (ts : List SignedTransaction) :
    ∀ {accounts : Accounts} {totalFees : UInt64} {index : Nat} {e : StateTransitionResult},
      supply accounts + totalFees.toNat < 2 ^ 64 →
      applyTransactions κ accounts totalFees index ts = .error e → e.error.Ordinary := by
  induction ts with
  | nil => intro accounts totalFees index e _ h; cases h
  | cons t ts ih =>
      intro accounts totalFees index e hsupply h
      rw [applyTransactions_cons] at h
      cases hfirst : applyTransaction κ accounts totalFees index t with
      | error first =>
          rw [hfirst] at h
          cases h
          exact ordinary_applyTransaction hsupply hfirst
      | ok r =>
          rw [hfirst] at h
          obtain ⟨hp, rfl⟩ := applyTransaction_ok_iff.mp hfirst
          have htransferred := supply_transferred hp
          refine ih ?_ h
          rw [toNat_add_of_lt hp.feeRoom]
          omega

/-- With room for one more subsidy a block is rejected for the nonce, an exhausted nonce
or the balance of a sender, and for nothing else. -/
theorem ordinary_applyBlockState {state : ChainState} {block : Block} {recipient : Address}
    {e : StateTransitionResult} (hgenesis : block.isGenesis = false)
    (hrecipient : block.rewardRecipient = some recipient)
    (hsupply : supply state.accounts + blockSubsidy.toNat < 2 ^ 64)
    (h : applyBlockState κ state block = .error e) : e.error.Ordinary := by
  have hstart : supply state.accounts + (0 : UInt64).toNat < 2 ^ 64 := by
    rw [UInt64.toNat_zero]
    omega
  rw [applyBlockState_eq, if_neg (by rw [hgenesis]; exact Bool.false_ne_true), hrecipient] at h
  dsimp only at h
  cases htxs : applyTransactions κ state.accounts 0 0 block.transactions with
  | error first =>
      rw [htxs] at h
      cases h
      exact ordinary_applyTransactions _ hstart htxs
  | ok r =>
      -- the loop has moved the fees out of the accounts; both go to the miner now
      have hconserved := applyTransactions_supply _ htxs
      have hle := balance_le_supply r.1 recipient.hash
      rw [UInt64.toNat_zero] at hconserved
      have hreward : Rewardable r.1 r.2 recipient := ⟨by omega, by omega⟩
      rw [htxs] at h
      simp only [creditMiner_ok_iff.mpr ⟨hreward, rfl⟩] at h
      cases h

end BBC
