/-
# `BBC.Chain.State` — account state and the block transition

`src/chain/state.cpp`.  The state maps an address hash to a balance and a next
nonce; `apply_block_state` moves it over one block or rejects the block.

**The arithmetic is a parameter.**  Every `+` and `-` of the source on `uint64`
goes through a structure `Arith`, so that one text has two readings:

    Arith.wrapping   the machine's: modulo 2^64                (the code)
    Arith.checked    stops at the first operation that wraps   (the question)

`applyBlockState` is the first.  That the second never stops, and agrees, is
`applyBlockStateWith_checked` in `BBC.Chain.Ledger`.
-/
import BBC.Consensus.ProofOfWork
import BBC.Lib.MapSum

namespace BBC

def baseUnitsPerBbc : UInt64 := 100000000
@[irreducible] def blockSubsidy : UInt64 := 50 * baseUnitsPerBbc

@[simp] theorem blockSubsidy_toNat : blockSubsidy.toNat = 5000000000 := by
  unfold blockSubsidy
  rfl

/-- `chain::AccountState`; an absent account is the default. -/
structure AccountState where
  balance : UInt64 := 0
  nextNonce : UInt64 := 0
  deriving DecidableEq, Repr

/-- `ChainState::Accounts`. -/
abbrev Accounts := Std.ExtTreeMap Hash256 AccountState

/-- `chain::ChainState`. -/
structure ChainState where
  accounts : Accounts := ∅
  deriving DecidableEq

/-- `ChainState::account`. -/
def ChainState.account (state : ChainState) (address : Address) : AccountState :=
  state.accounts.getD address.hash {}

/-- `chain::StateTransitionError`. -/
inductive StateTransitionError where
  | none
  | genesisHasNoTransition
  | missingRewardRecipient
  | invalidAccountNonce
  | accountNonceExhausted
  | insufficientBalance
  | recipientBalanceOverflow
  | feeTotalOverflow
  | rewardOverflow
  deriving DecidableEq, Repr

/-- `chain::StateTransitionResult` of a rejected block. -/
structure StateTransitionResult where
  error : StateTransitionError
  transactionIndex : Option Nat
  deriving DecidableEq, Repr

/-! ## Machine arithmetic -/

/-- How two machine words are added and subtracted. -/
structure Arith (m : Type → Type) where
  add : UInt64 → UInt64 → m UInt64
  sub : UInt64 → UInt64 → m UInt64

/-- Unsigned arithmetic as C++ defines it. -/
def Arith.wrapping : Arith Id where
  add a b := pure (a + b)
  sub a b := pure (a - b)

/-- The same arithmetic, undefined where the exact result is not a `uint64`. -/
def Arith.checked : Arith Option where
  add a b := if a.toNat + b.toNat < 2 ^ 64 then some (a + b) else none
  sub a b := if b.toNat ≤ a.toNat then some (a - b) else none

/-! ## The transition -/

section
variable {m : Type → Type} [Monad m] (ar : Arith m) (κ : Crypto)

/-- One turn of the transaction loop of `apply_block_state`.  `sender` and
`recipient` are references into one map, so the recipient is read after the
sender has been written. -/
def applyTransactionWith (accounts : Accounts) (totalFees : UInt64) (index : Nat)
    (value : SignedTransaction) : m (Except StateTransitionResult (Accounts × UInt64)) := do
  let senderHash := (value.sender κ).hash
  let sender := accounts.getD senderHash {}
  if value.accountNonce ≠ sender.nextNonce then
    return .error ⟨.invalidAccountNonce, some index⟩
  if sender.nextNonce = maxU64 then
    return .error ⟨.accountNonceExhausted, some index⟩
  let debit ← ar.add value.amount value.fee
  if sender.balance < debit then
    return .error ⟨.insufficientBalance, some index⟩
  let senderBalance ← ar.sub sender.balance debit
  let senderNonce ← ar.add sender.nextNonce 1
  let accounts := accounts.insert senderHash ⟨senderBalance, senderNonce⟩
  let recipient := accounts.getD value.recipient.hash {}
  let recipientRoom ← ar.sub maxU64 value.amount
  if recipient.balance > recipientRoom then
    return .error ⟨.recipientBalanceOverflow, some index⟩
  let recipientBalance ← ar.add recipient.balance value.amount
  let accounts := accounts.insert value.recipient.hash ⟨recipientBalance, recipient.nextNonce⟩
  let feeRoom ← ar.sub maxU64 value.fee
  if totalFees > feeRoom then
    return .error ⟨.feeTotalOverflow, some index⟩
  let totalFees ← ar.add totalFees value.fee
  return .ok (accounts, totalFees)

/-- The transaction loop. -/
def applyTransactionsWith : Accounts → UInt64 → Nat → List SignedTransaction →
    m (Except StateTransitionResult (Accounts × UInt64))
  | accounts, totalFees, _, [] => pure (.ok (accounts, totalFees))
  | accounts, totalFees, index, value :: rest => do
      match ← applyTransactionWith ar κ accounts totalFees index value with
      | .error e => pure (.error e)
      | .ok (accounts, totalFees) => applyTransactionsWith accounts totalFees (index + 1) rest

/-- The end of `apply_block_state`: the reward. -/
def creditMinerWith (accounts : Accounts) (totalFees : UInt64) (recipient : Address) :
    m (Except StateTransitionResult Accounts) := do
  let subsidyRoom ← ar.sub maxU64 blockSubsidy
  if totalFees > subsidyRoom then
    return .error ⟨.rewardOverflow, none⟩
  let minerCredit ← ar.add blockSubsidy totalFees
  let miner := accounts.getD recipient.hash {}
  let minerRoom ← ar.sub maxU64 minerCredit
  if miner.balance > minerRoom then
    return .error ⟨.rewardOverflow, none⟩
  let minerBalance ← ar.add miner.balance minerCredit
  return .ok (accounts.insert recipient.hash ⟨minerBalance, miner.nextNonce⟩)

/-- `apply_block_state`.  The source assigns its in-out `state` only at the very
end, so a rejected block has no state to return. -/
def applyBlockStateWith (state : ChainState) (block : Block) :
    m (Except StateTransitionResult ChainState) := do
  if block.isGenesis then
    return .error ⟨.genesisHasNoTransition, none⟩
  match block.rewardRecipient with
  | none => return .error ⟨.missingRewardRecipient, none⟩
  | some recipient =>
      match ← applyTransactionsWith ar κ state.accounts 0 0 block.transactions with
      | .error e => return .error e
      | .ok (accounts, totalFees) =>
          match ← creditMinerWith ar accounts totalFees recipient with
          | .error e => return .error e
          | .ok accounts => return .ok ⟨accounts⟩

end

variable (κ : Crypto)

/-- The loop body as the program runs it. -/
def applyTransaction (accounts : Accounts) (totalFees : UInt64) (index : Nat)
    (value : SignedTransaction) : Except StateTransitionResult (Accounts × UInt64) :=
  Id.run (applyTransactionWith Arith.wrapping κ accounts totalFees index value)

/-- The transaction loop as the program runs it. -/
def applyTransactions (accounts : Accounts) (totalFees : UInt64) (index : Nat)
    (transactions : List SignedTransaction) : Except StateTransitionResult (Accounts × UInt64) :=
  Id.run (applyTransactionsWith Arith.wrapping κ accounts totalFees index transactions)

/-- The reward as the program pays it. -/
def creditMiner (accounts : Accounts) (totalFees : UInt64) (recipient : Address) :
    Except StateTransitionResult Accounts :=
  Id.run (creditMinerWith Arith.wrapping accounts totalFees recipient)

/-- The transition as the program runs it. -/
def applyBlockState (state : ChainState) (block : Block) :
    Except StateTransitionResult ChainState :=
  Id.run (applyBlockStateWith Arith.wrapping κ state block)

end BBC
