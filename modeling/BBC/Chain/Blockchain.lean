/-
# `BBC.Chain.Blockchain` — the block tree and `append`

`src/chain/blockchain.cpp`.  Seven fields hold one tree: every accepted block in
arrival order with its node, the index from ids, and the active branch as
indices, flags, blocks and state.

`append` is cut where the source's text has its three parts:

    findParent      the checks that need no account state
    store           the four `push_back`s / `emplace`
    activate        the branch switch, when the new block is heavier

A loop that follows `parent_index` to Genesis is `ParentTree.walk`; a `while`
that is not visibly bounded is fuelled, and the fuel is shown to suffice where
the function is used.
-/
import BBC.Chain.Ledger
import BBC.Lib.ParentTree

namespace BBC

/-- `chain::ChainError`. -/
inductive ChainError where
  | none
  | genesisCannotBeAppended
  | unexpectedChain
  | duplicateBlock
  | heightOverflow
  | unexpectedHeight
  | unexpectedParent
  | timestampNotIncreasing
  | invalidProofOfWork
  | invalidStateTransition
  deriving DecidableEq, Repr

/-- `chain::AppendResult`. -/
structure AppendResult where
  error : ChainError := .none
  transactionIndex : Option Nat := none
  stateError : StateTransitionError := .none
  activeChainChanged : Bool := false
  reorganized : Bool := false
  detachedBlocks : List Block := []
  attachedBlocks : List Block := []

/-- `AppendResult::has_value`. -/
def AppendResult.hasValue (r : AppendResult) : Bool := r.error == .none

/-- `Blockchain::BlockNode`. -/
structure BlockNode where
  parentIndex : Nat := 0
  cumulativeWork : UInt64 := 0
  state : ChainState := {}
  deriving DecidableEq

/-- `chain::Blockchain`. -/
structure Blockchain where
  storedBlocks : List Block
  nodes : List BlockNode
  indexById : Std.ExtTreeMap Hash256 Nat
  activeIndices : List Nat
  activeFlags : List Bool
  blocks : List Block
  state : ChainState
  deriving DecidableEq

/-- What an out-of-range subscript is modelled to return; no such read happens. -/
instance : Inhabited Block where
  default :=
    { chainId := 0, height := 0, previousBlockHash := .zero, transactionRoot := .zero,
      rewardRecipient := none, timestamp := 0, difficultyTarget := .zero, miningNonce := 0,
      transactions := [], bounded := Nat.zero_le _ }

namespace Blockchain

/-- The constructor. -/
def new (κ : Crypto) (chainId : UInt32) : Blockchain where
  storedBlocks := [genesisBlock κ chainId]
  nodes := [{}]
  indexById := (∅ : Std.ExtTreeMap Hash256 Nat).insertIfNew ((genesisBlock κ chainId).id κ) 0
  activeIndices := [0]
  activeFlags := [true]
  blocks := [genesisBlock κ chainId]
  state := {}

/-- `stored_blocks_[i]`. -/
def block (c : Blockchain) (i : Nat) : Block := c.storedBlocks.getD i default

/-- `nodes_[i]`. -/
def node (c : Blockchain) (i : Nat) : BlockNode := c.nodes.getD i {}

/-- `nodes_[i].parent_index`. -/
def parent (c : Blockchain) (i : Nat) : Nat := (c.node i).parentIndex

/-- `active_indices_.back()`. -/
def tipIndex (c : Blockchain) : Nat := c.activeIndices.getLastD 0

/-- `Blockchain::tip`. -/
def tip (c : Blockchain) : Block := c.blocks.getLastD default

/-- `Blockchain::contains`. -/
def contains (c : Blockchain) (blockId : Hash256) : Bool := c.indexById.contains blockId

/-- `Blockchain::cumulative_work`. -/
def cumulativeWork (c : Blockchain) (blockId : Hash256) : Option UInt64 :=
  c.indexById[blockId]?.map fun i => (c.node i).cumulativeWork

/-! ## `append` -/

/-- The checks of `append` that compare a block with its parent. -/
def checkHeader (κ : Crypto) (parentBlock block : Block) : ChainError :=
  if parentBlock.height = maxU64 then .heightOverflow
  else if block.height ≠ parentBlock.height + 1 then .unexpectedHeight
  else if block.timestamp ≤ parentBlock.timestamp then .timestampNotIncreasing
  else if validateProofOfWork κ block ≠ .none then .invalidProofOfWork
  else .none

/-- The checks of `append` up to the proof of work; the result is the parent's index. -/
def findParent (κ : Crypto) (c : Blockchain) (block : Block) : Except ChainError Nat :=
  if block.isGenesis then .error .genesisCannotBeAppended
  else if block.chainId ≠ c.tip.chainId then .error .unexpectedChain
  else if c.indexById.contains (block.id κ) then .error .duplicateBlock
  else
    match c.indexById[block.previousBlockHash]? with
    | none => .error .unexpectedParent
    | some parentIndex =>
        if checkHeader κ (c.block parentIndex) block = .none then .ok parentIndex
        else .error (checkHeader κ (c.block parentIndex) block)

/-- The new block and its node are recorded; the active branch is not touched. -/
def store (κ : Crypto) (c : Blockchain) (block : Block) (parentIndex : Nat)
    (nextState : ChainState) : Blockchain :=
  { c with
    storedBlocks := c.storedBlocks ++ [block]
    nodes := c.nodes ++ [⟨parentIndex, (c.node parentIndex).cumulativeWork + 1, nextState⟩]
    activeFlags := c.activeFlags ++ [false]
    indexById := c.indexById.insertIfNew (block.id κ) c.storedBlocks.length }

/-- The number of leading indices that two branches share. -/
def commonSize : List Nat → List Nat → Nat
  | a :: as, b :: bs => if a = b then commonSize as bs + 1 else 0
  | _, _ => 0

/-- `std::fill` with `false`, then `true` at every active index. -/
def refillFlags (flags : List Bool) (active : List Nat) : List Bool :=
  active.foldl (fun flags i => flags.set i true) (flags.map fun _ => false)

/-- The branch switch at the end of `append`. -/
def activate (c : Blockchain) (newIndex : Nat) : Blockchain × AppendResult :=
  let nextActiveIndices := ParentTree.path c.parent newIndex
  let common := commonSize c.activeIndices nextActiveIndices
  ({ c with
      activeIndices := nextActiveIndices
      activeFlags := refillFlags c.activeFlags nextActiveIndices
      blocks := nextActiveIndices.map c.block
      state := (c.node (nextActiveIndices.getLastD 0)).state },
   { activeChainChanged := true
     reorganized := common < c.activeIndices.length
     detachedBlocks := (c.activeIndices.drop common).map c.block
     attachedBlocks := (nextActiveIndices.drop common).map c.block })

/-- The fork choice: only a strictly heavier block changes the active branch. -/
def choose (c : Blockchain) (newIndex : Nat) : Blockchain × AppendResult :=
  if (c.node newIndex).cumulativeWork ≤ (c.node c.tipIndex).cumulativeWork then (c, {})
  else c.activate newIndex

/-- `Blockchain::append`. -/
def append (κ : Crypto) (c : Blockchain) (block : Block) : Blockchain × AppendResult :=
  match c.findParent κ block with
  | .error e => (c, { error := e })
  | .ok parentIndex =>
      match applyBlockState κ (c.node parentIndex).state block with
      | .error e =>
          (c, { error := .invalidStateTransition
                transactionIndex := e.transactionIndex
                stateError := e.error })
      | .ok nextState => (c.store κ block parentIndex nextState).choose c.storedBlocks.length

/-- A run of `append`s, results ignored. -/
def appendAll (κ : Crypto) (c : Blockchain) (bs : List Block) : Blockchain :=
  bs.foldl (fun c b => (c.append κ b).1) c

/-- A chain grown from Genesis.  Every reachable `Blockchain` is one of these. -/
def replay (κ : Crypto) (chainId : UInt32) (bs : List Block) : Blockchain :=
  (new κ chainId).appendAll κ bs

/-! ## `block_locator` -/

/-- The inner `for`: up to `step` parents up, not past Genesis. -/
def ancestor (c : Blockchain) : Nat → Nat → Nat
  | 0, index => index
  | step + 1, index => if index = 0 then 0 else c.ancestor step (c.parent index)

/-- The `while` of `block_locator`.  `fuel` counts the entries that may still be
added, so it is `maximum_entries - locator.size()`. -/
def locatorLoop (κ : Crypto) (c : Blockchain) (maximumEntries : Nat) :
    Nat → Nat → Nat → Nat → List (UInt64 × Hash256)
  | 0, _, _, _ => []
  | fuel + 1, size, index, step =>
      let entry := ((c.block index).height, (c.block index).id κ)
      let size := size + 1
      if index = 0 then [entry]
      else if size + 1 = maximumEntries then
        entry :: c.locatorLoop κ maximumEntries fuel size 0 step
      else
        let index := c.ancestor step index
        let step := if size ≥ 10 ∧ step ≤ maximumEntries then step * 2 else step
        entry :: c.locatorLoop κ maximumEntries fuel size index step

/-- `Blockchain::block_locator`. -/
def blockLocator (κ : Crypto) (c : Blockchain) (start : Hash256) (maximumEntries : Nat) :
    List (UInt64 × Hash256) :=
  match c.indexById[start]? with
  | none => []
  | some index => c.locatorLoop κ maximumEntries maximumEntries 0 index 1

end Blockchain

end BBC
