/-
# `BBC.Chain.Block` — blocks, their Merkle root and their encoding

`src/chain/block.cpp`.  Like a transaction, a `Block` has no public constructor:
`genesis_block`, `create_block`, `deserialize_block` and `with_mining_nonce` are
the only sources of one (`Block.Obtainable`), and the bound on the number of
transactions holds of each, so the structure carries it.

The 165-byte header, all integers little-endian:

    offset  size  field
         0     4  magic "BBLK"
         4     1  version
         5     4  chain id
         9     8  height
        17    32  previous block hash
        49    32  transaction root
        81    32  reward recipient, zeros when absent
       113     8  timestamp
       121    32  difficulty target
       153     8  mining nonce
       161     4  transaction count

The transactions follow, 161 bytes each.  The block id hashes the header alone.
-/
import BBC.Transaction.Codec

namespace BBC

open ByteCodec

def blockHeaderSize : Nat := 165
def maximumTransactionsPerBlock : Nat := 1000
def maximumBlockSize : Nat := blockHeaderSize + maximumTransactionsPerBlock * signedTransactionSize

/-- `chain::BlockError`, without the two file errors of `save_block`. -/
inductive BlockError where
  | none
  | tooManyTransactions
  | duplicateTransaction
  | invalidSize
  | invalidMagic
  | unsupportedVersion
  | unsupportedChain
  | invalidHeight
  | invalidPreviousHash
  | invalidRewardRecipient
  | invalidTransaction
  | invalidTransactionRoot
  | invalidGenesis
  deriving DecidableEq, Repr

/-- `chain::BlockFields`. -/
structure BlockFields where
  height : UInt64
  previousBlockHash : Hash256
  rewardRecipient : Address
  timestamp : UInt64
  difficultyTarget : Hash256
  miningNonce : UInt64
  transactions : List SignedTransaction
  chainId : UInt32

/-- `chain::Block`. -/
structure Block where
  chainId : UInt32
  height : UInt64
  previousBlockHash : Hash256
  transactionRoot : Hash256
  rewardRecipient : Option Address
  timestamp : UInt64
  difficultyTarget : Hash256
  miningNonce : UInt64
  transactions : List SignedTransaction
  bounded : transactions.length ≤ maximumTransactionsPerBlock
  deriving DecidableEq

def blockMagic : Bytes := [0x42, 0x42, 0x4C, 0x4B]
def blockVersion : Byte := 1
def merkleLeafDomain : Byte := 0
def merkleNodeDomain : Byte := 1
def emptyRootDomain : Byte := 2

namespace Block

def isGenesis (b : Block) : Bool := b.height == 0

/-- `Block::serialize_header`. -/
def serializeHeader (b : Block) : Bytes :=
  blockMagic ++ (blockVersion :: (encodeU32Le b.chainId ++ (encodeU64Le b.height ++
    (b.previousBlockHash.toList ++ (b.transactionRoot.toList ++
      ((match b.rewardRecipient with
        | some recipient => recipient.hash.toList
        | none => (FixedBytes.zero : Hash256).toList) ++
      (encodeU64Le b.timestamp ++ (b.difficultyTarget.toList ++ (encodeU64Le b.miningNonce ++
        encodeU32Le (UInt32.ofNat b.transactions.length))))))))))

/-- `Block::serialize`. -/
def serialize (b : Block) : Bytes :=
  b.serializeHeader ++ b.transactions.flatMap SignedTransaction.serialize

/-- `Block::with_mining_nonce`: Genesis is returned as it is. -/
def withMiningNonce (b : Block) (miningNonce : UInt64) : Block :=
  if b.isGenesis then b else { b with miningNonce := miningNonce }

/-- `Block::id`. -/
def id (κ : Crypto) (b : Block) : Hash256 := κ.sha256 b.serializeHeader

end Block

variable (κ : Crypto)

/-! ## The transaction root -/

def hashLeaf (transactionId : Hash256) : Hash256 :=
  κ.sha256 (merkleLeafDomain :: transactionId.toList)

def hashNode (left right : Hash256) : Hash256 :=
  κ.sha256 (merkleNodeDomain :: (left.toList ++ right.toList))

/-- The inner `for` of `calculate_transaction_root`: neighbours are hashed together. -/
def hashPairs : List Hash256 → List Hash256
  | left :: right :: rest => hashNode κ left right :: hashPairs rest
  | _ => []

/-- One turn of the `while`: an odd level first repeats its last entry. -/
def merkleStep (level : List Hash256) : List Hash256 :=
  hashPairs κ (if level.length % 2 ≠ 0 then level ++ level.getLast?.toList else level)

/-- The `while` loop.  Every turn at least halves a level of two or more entries,
so a level's own length is fuel enough. -/
def merkleLoop : Nat → List Hash256 → Hash256
  | 0, level => level.headD .zero
  | fuel + 1, level =>
      if level.length > 1 then merkleLoop fuel (merkleStep κ level) else level.headD .zero

/-- `calculate_transaction_root`. -/
def calculateTransactionRoot (transactions : List SignedTransaction) : Hash256 :=
  if transactions.isEmpty then κ.sha256 [emptyRootDomain]
  else merkleLoop κ transactions.length (transactions.map fun t => hashLeaf κ (t.id κ))

/-! ## Building blocks -/

/-- The loop of `validate_transactions`; `transactionIds` are the ids seen so far. -/
def validateTransactionsFrom (chainId : UInt32) :
    List Hash256 → List SignedTransaction → BlockError
  | _, [] => .none
  | transactionIds, value :: rest =>
      if value.chainId ≠ chainId then .invalidTransaction
      else if value.id κ ∈ transactionIds then .duplicateTransaction
      else validateTransactionsFrom chainId (transactionIds ++ [value.id κ]) rest

/-- `validate_transactions`. -/
def validateTransactions (transactions : List SignedTransaction) (chainId : UInt32) : BlockError :=
  if transactions.length > maximumTransactionsPerBlock then .tooManyTransactions
  else validateTransactionsFrom κ chainId [] transactions

variable {κ} in
theorem length_le_of_validateTransactions {transactions : List SignedTransaction}
    {chainId : UInt32} (h : validateTransactions κ transactions chainId = .none) :
    transactions.length ≤ maximumTransactionsPerBlock := by
  unfold validateTransactions at h
  split at h
  · cases h
  · rename_i hle
    exact not_lt.mp hle

/-- `maximum_target`. -/
def maximumTarget : Hash256 := List.Vector.replicate 32 0xFF

/-- `genesis_block`. -/
def genesisBlock (chainId : UInt32) : Block where
  chainId := chainId
  height := 0
  previousBlockHash := .zero
  transactionRoot := calculateTransactionRoot κ []
  rewardRecipient := none
  timestamp := 0
  difficultyTarget := maximumTarget
  miningNonce := 0
  transactions := []
  bounded := Nat.zero_le _

/-- `create_block`. -/
def createBlock (fields : BlockFields) : Except BlockError Block :=
  if ¬ SupportedChain fields.chainId then .error .unsupportedChain
  else if fields.height = 0 then .error .invalidHeight
  else if fields.previousBlockHash.isZero then .error .invalidPreviousHash
  else if fields.rewardRecipient.hash.isZero then .error .invalidRewardRecipient
  else if h : validateTransactions κ fields.transactions fields.chainId = .none then
    .ok {
      chainId := fields.chainId
      height := fields.height
      previousBlockHash := fields.previousBlockHash
      transactionRoot := calculateTransactionRoot κ fields.transactions
      rewardRecipient := some fields.rewardRecipient
      timestamp := fields.timestamp
      difficultyTarget := fields.difficultyTarget
      miningNonce := fields.miningNonce
      transactions := fields.transactions
      bounded := length_le_of_validateTransactions h }
  else .error (validateTransactions κ fields.transactions fields.chainId)

/-- The transaction loop of `deserialize_block`. -/
def deserializeTransactions (chainId : UInt32) (encoded : Bytes) :
    Nat → Nat → Except BlockError (List SignedTransaction)
  | 0, _ => .ok []
  | count + 1, offset =>
      match deserializeTransaction κ (subspan encoded offset signedTransactionSize) with
      | .error _ => .error .invalidTransaction
      | .ok value =>
          if value.chainId ≠ chainId then .error .invalidTransaction
          else
            match deserializeTransactions chainId encoded count
                (offset + signedTransactionSize) with
            | .error e => .error e
            | .ok rest => .ok (value :: rest)

/-- The checks of `deserialize_block` that come before any transaction is read. -/
def checkEncoding (encoded : Bytes) : BlockError :=
  if encoded.length < blockHeaderSize ∨ encoded.length > maximumBlockSize then .invalidSize
  else if subspan encoded 0 4 ≠ blockMagic then .invalidMagic
  else if encoded.getD 4 0 ≠ blockVersion then .unsupportedVersion
  else if ¬ SupportedChain (readU32Le encoded 5) then .unsupportedChain
  else if (readU32Le encoded 161).toNat > maximumTransactionsPerBlock then .tooManyTransactions
  else if encoded.length
      ≠ blockHeaderSize + (readU32Le encoded 161).toNat * signedTransactionSize then .invalidSize
  else .none

/-- The part of `deserialize_block` after the transactions have been read. -/
def assembleBlock (encoded : Bytes) (transactions : List SignedTransaction) :
    Except BlockError Block :=
  let chainId := readU32Le encoded 5
  let height := readU64Le encoded 9
  let previousHash : Hash256 := readArray 32 encoded 17
  let encodedRoot : Hash256 := readArray 32 encoded 49
  let rewardHash : Hash256 := readArray 32 encoded 81
  if h : validateTransactions κ transactions chainId = .none then
    if calculateTransactionRoot κ transactions ≠ encodedRoot then .error .invalidTransactionRoot
    else if height = 0 then
      if encoded ≠ (genesisBlock κ chainId).serialize then .error .invalidGenesis
      else .ok (genesisBlock κ chainId)
    else if previousHash.isZero then .error .invalidPreviousHash
    else if rewardHash.isZero then .error .invalidRewardRecipient
    else
      .ok {
        chainId := chainId
        height := height
        previousBlockHash := previousHash
        transactionRoot := encodedRoot
        rewardRecipient := some ⟨rewardHash⟩
        timestamp := readU64Le encoded 113
        difficultyTarget := readArray 32 encoded 121
        miningNonce := readU64Le encoded 153
        transactions := transactions
        bounded := length_le_of_validateTransactions h }
  else .error (validateTransactions κ transactions chainId)

/-- `deserialize_block`: the checks on the encoding, the transactions, the block. -/
def deserializeBlock (encoded : Bytes) : Except BlockError Block :=
  if checkEncoding encoded ≠ .none then .error (checkEncoding encoded)
  else
    match deserializeTransactions κ (readU32Le encoded 5) encoded (readU32Le encoded 161).toNat
      blockHeaderSize with
    | .error e => .error e
    | .ok transactions => assembleBlock κ encoded transactions

/-- The four ways the program obtains a block. -/
inductive Block.Obtainable : Block → Prop
  | genesis {chainId : UInt32} : SupportedChain chainId → Obtainable (genesisBlock κ chainId)
  | created {fields : BlockFields} {b : Block} :
      (∀ t ∈ fields.transactions, t.Obtainable κ) → createBlock κ fields = .ok b → Obtainable b
  | deserialized {encoded : Bytes} {b : Block} :
      deserializeBlock κ encoded = .ok b → Obtainable b
  | nonce {b : Block} (miningNonce : UInt64) :
      Obtainable b → Obtainable (b.withMiningNonce miningNonce)

end BBC
