/-
# `BBC.Transaction.Basic` — signed transactions and their 161-byte encoding

`src/transaction/transaction.cpp`.  A `SignedTransaction` has no public
constructor in the source: one is obtained by signing fields or by decoding
bytes, and both run `validate_fields` first.  The structure therefore carries
the fact that `validate_fields` accepted it.

The layout, all integers little-endian:

    offset  size  field
         0     4  magic "BBTX"
         4     1  version
         5     4  chain id
         9    32  sender public key
        41    32  recipient hash
        73     8  amount
        81     8  fee
        89     8  account nonce
        97    64  signature over the first 97 bytes
-/
import BBC.Core.Encoding
import BBC.Core.Network

namespace BBC

open ByteCodec

def unsignedTransactionSize : Nat := 97
def signedTransactionSize : Nat := 161

/-- `transaction::TransactionError`, without the two file errors of
`save_transaction`. -/
inductive TransactionError where
  | none
  | zeroAmount
  | amountFeeOverflow
  | invalidSize
  | invalidMagic
  | unsupportedVersion
  | unsupportedChain
  | invalidSignature
  deriving DecidableEq, Repr

/-- `transaction::TransactionFields`. -/
structure TransactionFields where
  recipient : Address
  amount : UInt64
  fee : UInt64
  accountNonce : UInt64
  chainId : UInt32
  deriving DecidableEq

/-- `validate_fields`. -/
def validateFields (fields : TransactionFields) : TransactionError :=
  if ¬ SupportedChain fields.chainId then .unsupportedChain
  else if fields.amount = 0 then .zeroAmount
  else if fields.fee > maxU64 - fields.amount then .amountFeeOverflow
  else .none

/-- `transaction::SignedTransaction`. -/
structure SignedTransaction where
  chainId : UInt32
  senderPublicKey : PublicKey
  recipient : Address
  amount : UInt64
  fee : UInt64
  accountNonce : UInt64
  signature : Signature
  validated : validateFields ⟨recipient, amount, fee, accountNonce, chainId⟩ = .none
  deriving DecidableEq

def transactionMagic : Bytes := [0x42, 0x42, 0x54, 0x58]
def transactionVersion : Byte := 1

/-- `serialize_unsigned`: the 97 bytes that are signed. -/
def serializeUnsigned (chainId : UInt32) (senderPublicKey : PublicKey) (recipient : Address)
    (amount fee accountNonce : UInt64) : Bytes :=
  transactionMagic ++ (transactionVersion :: (encodeU32Le chainId ++ (senderPublicKey.toList ++
    (recipient.hash.toList ++ (encodeU64Le amount ++ (encodeU64Le fee ++
      encodeU64Le accountNonce))))))

namespace SignedTransaction

/-- `SignedTransaction::signing_bytes`. -/
def signingBytes (t : SignedTransaction) : Bytes :=
  serializeUnsigned t.chainId t.senderPublicKey t.recipient t.amount t.fee t.accountNonce

/-- `SignedTransaction::serialize`. -/
def serialize (t : SignedTransaction) : Bytes := t.signingBytes ++ t.signature.toList

variable (κ : Crypto)

/-- `SignedTransaction::sender`. -/
def sender (t : SignedTransaction) : Address := Address.fromPublicKey κ t.senderPublicKey

/-- `SignedTransaction::id`. -/
def id (t : SignedTransaction) : Hash256 := κ.sha256 t.serialize

end SignedTransaction

variable (κ : Crypto)

/-- `sign_transaction`. -/
def signTransaction (signer : Wallet κ) (fields : TransactionFields) :
    Except TransactionError SignedTransaction :=
  if h : validateFields fields = .none then
    let signingBytes := serializeUnsigned fields.chainId signer.publicKey fields.recipient
      fields.amount fields.fee fields.accountNonce
    .ok {
      chainId := fields.chainId
      senderPublicKey := signer.publicKey
      recipient := fields.recipient
      amount := fields.amount
      fee := fields.fee
      accountNonce := fields.accountNonce
      signature := signer.sign signingBytes
      validated := h }
  else .error (validateFields fields)

/-- `deserialize_transaction`.  The checks stand in the source's order. -/
def deserializeTransaction (encoded : Bytes) : Except TransactionError SignedTransaction :=
  if encoded.length ≠ signedTransactionSize then .error .invalidSize
  else if subspan encoded 0 4 ≠ transactionMagic then .error .invalidMagic
  else if encoded.getD 4 0 ≠ transactionVersion then .error .unsupportedVersion
  else
    let chainId := readU32Le encoded 5
    if ¬ SupportedChain chainId then .error .unsupportedChain
    else
      let senderPublicKey := readArray 32 encoded 9
      let recipient : Address := ⟨readArray 32 encoded 41⟩
      let amount := readU64Le encoded 73
      let fee := readU64Le encoded 81
      let accountNonce := readU64Le encoded 89
      if h : validateFields ⟨recipient, amount, fee, accountNonce, chainId⟩ = .none then
        let signature := readArray 64 encoded 97
        if κ.verifySignature (encoded.take unsignedTransactionSize) signature senderPublicKey then
          .ok { chainId, senderPublicKey, recipient, amount, fee, accountNonce, signature,
                validated := h }
        else .error .invalidSignature
      else .error (validateFields ⟨recipient, amount, fee, accountNonce, chainId⟩)

/-- The two ways the program obtains a transaction. -/
inductive SignedTransaction.Obtainable : SignedTransaction → Prop
  | signed {signer : Wallet κ} {fields : TransactionFields} {t : SignedTransaction} :
      signTransaction κ signer fields = .ok t → Obtainable t
  | deserialized {encoded : Bytes} {t : SignedTransaction} :
      deserializeTransaction κ encoded = .ok t → Obtainable t

/-! ## What `validate_fields` guarantees -/

namespace SignedTransaction

theorem validateFields_eq_none {fields : TransactionFields} (h : validateFields fields = .none) :
    SupportedChain fields.chainId ∧ 0 < fields.amount.toNat ∧
      fields.amount.toNat + fields.fee.toNat < 2 ^ 64 := by
  unfold validateFields at h
  split at h
  · cases h
  · rename_i hchain
    split at h
    · cases h
    · rename_i hamount
      split at h
      · cases h
      · rename_i hfee
        rw [gt_maxU64_sub] at hfee
        have hpos : fields.amount.toNat ≠ 0 := fun h0 => hamount (UInt64.toNat_inj.mp h0)
        exact ⟨not_not.mp hchain, by omega, by omega⟩

theorem supportedChain (t : SignedTransaction) : SupportedChain t.chainId :=
  (validateFields_eq_none t.validated).1

theorem amount_pos (t : SignedTransaction) : 0 < t.amount.toNat :=
  (validateFields_eq_none t.validated).2.1

/-- `amount() + fee()` does not wrap. -/
theorem debit_lt (t : SignedTransaction) : t.amount.toNat + t.fee.toNat < 2 ^ 64 :=
  (validateFields_eq_none t.validated).2.2

end SignedTransaction

end BBC
