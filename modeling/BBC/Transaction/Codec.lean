/-
# `BBC.Transaction.Codec` — the transaction encoding is exact

`deserialize_transaction` inverts `serialize` on every transaction whose
signature verifies, and whatever it accepts is the serialization of its result.
Every transaction the program can obtain is of that kind: decoding checks the
signature, and signing makes one that verifies (`Crypto.SignatureLaw`).
-/
import BBC.Crypto.Reference
import BBC.Transaction.Basic

namespace BBC

open ByteCodec

namespace SignedTransaction

@[simp] theorem length_signingBytes (t : SignedTransaction) :
    t.signingBytes.length = unsignedTransactionSize := by
  simp [signingBytes, serializeUnsigned, transactionMagic, unsignedTransactionSize]

@[simp] theorem length_serialize (t : SignedTransaction) :
    t.serialize.length = signedTransactionSize := by
  simp [serialize, unsignedTransactionSize, signedTransactionSize]

variable (κ : Crypto)

/-- The signature verifies over the 97 bytes it is made for. -/
def Verified (t : SignedTransaction) : Prop :=
  κ.verifySignature t.signingBytes t.signature t.senderPublicKey = true

/-- The fields of a serialized transaction, read back at their offsets. -/
theorem deserialize_serialize (t : SignedTransaction) (h : t.Verified κ) :
    deserializeTransaction κ t.serialize = .ok t := by
  have hsigned : t.serialize.take unsignedTransactionSize = t.signingBytes :=
    List.take_left' t.length_signingBytes
  -- the layout, walked from the front
  have d0 : t.serialize.drop 0 = transactionMagic ++ ([transactionVersion] ++
      (encodeU32Le t.chainId ++
      (t.senderPublicKey.toList ++ (t.recipient.hash.toList ++ (encodeU64Le t.amount ++
        (encodeU64Le t.fee ++ (encodeU64Le t.accountNonce ++ (t.signature.toList ++ [])))))))) := by
    simp [serialize, signingBytes, serializeUnsigned]
  have d4 := drop_of_drop 4 d0 rfl
  have d5 := drop_of_drop 5 d4 rfl
  have d9 := drop_of_drop 9 d5 (by simp)
  have d41 := drop_of_drop 41 d9 (by simp)
  have d73 := drop_of_drop 73 d41 (by simp)
  have d81 := drop_of_drop 81 d73 (by simp)
  have d89 := drop_of_drop 89 d81 (by simp)
  have d97 := drop_of_drop 97 d89 (by simp)
  have hmagic : subspan t.serialize 0 4 = transactionMagic := subspan_of_drop d0 rfl
  have hversion : t.serialize.getD 4 0 = transactionVersion := by
    rw [List.getD_eq_getElem?_getD, ← List.head?_drop, d4]; rfl
  have hverify : κ.verifySignature t.signingBytes t.signature t.senderPublicKey = true := h
  simp only [deserializeTransaction, length_serialize, hmagic, hversion, readU32Le_of_drop d5,
    readArray_of_drop d9, readArray_of_drop d41, readU64Le_of_drop d73,
    readU64Le_of_drop d81, readU64Le_of_drop d89, readArray_of_drop d97, hsigned, hverify,
    t.supportedChain, t.validated]
  simp

/-- What `deserialize_transaction` accepts is the serialization of its result,
and the signature has been checked over the first 97 bytes. -/
theorem serialize_of_deserialize {encoded : Bytes} {t : SignedTransaction}
    (h : deserializeTransaction κ encoded = .ok t) : t.serialize = encoded ∧ t.Verified κ := by
  simp only [deserializeTransaction] at h
  split_ifs at h with hsize hmagic hversion hchain hfields hverify
  have hlen : encoded.length = 161 := not_not.mp hsize
  have hserialize : t.serialize = encoded := by
    cases h
    -- every field re-encodes to its own window, and the windows tile the string
    simp only [serialize, signingBytes, serializeUnsigned]
    rw [encodeU32Le_readU32Le (by omega), encodeU64Le_readU64Le (by omega),
      encodeU64Le_readU64Le (by omega), encodeU64Le_readU64Le (by omega),
      toList_readArray (by omega), toList_readArray (by omega), toList_readArray (by omega),
      ← not_not.mp hmagic, ← not_not.mp hversion, ← List.singleton_append,
      ← subspan_one 0 (by omega), subspan_eq_drop (show 97 + 64 = encoded.length by omega)]
    simp only [List.append_assoc]
    rw [subspan_append_drop, subspan_append_drop, subspan_append_drop, subspan_append_drop,
      subspan_append_drop, subspan_append_drop, subspan_append_drop, subspan_append_drop,
      List.drop_zero]
  refine ⟨hserialize, ?_⟩
  have hsigned : encoded.take unsignedTransactionSize = t.signingBytes := by
    rw [← hserialize]
    exact List.take_left' t.length_signingBytes
  cases h
  rw [Verified, ← hsigned]
  exact hverify

/-- Every transaction the program obtains has a signature that verifies. -/
theorem Obtainable.verified (hlaw : κ.SignatureLaw) {t : SignedTransaction}
    (h : Obtainable κ t) : t.Verified κ := by
  cases h with
  | @signed signer fields _ hs =>
      unfold signTransaction at hs
      split at hs
      · cases hs
        exact hlaw signer.keyPair _
      · cases hs
  | deserialized hd => exact (serialize_of_deserialize κ hd).2

/-- What `sign_transaction` makes is read back as it was, and what `deserialize_transaction`
accepts is the only encoding of its result, with a positive amount, a debit that does not
wrap, a supported chain and a signature over the first 97 bytes. -/
theorem transaction_encoding_canonical (κ : Crypto) (hlaw : κ.SignatureLaw) :
    (∀ (signer : Wallet κ) (fields : TransactionFields) (t : SignedTransaction),
      signTransaction κ signer fields = .ok t → deserializeTransaction κ t.serialize = .ok t) ∧
    ∀ (encoded : Bytes) (t : SignedTransaction), deserializeTransaction κ encoded = .ok t →
      t.serialize = encoded ∧ 0 < t.amount.toNat ∧ t.amount.toNat + t.fee.toNat < 2 ^ 64 ∧
      SupportedChain t.chainId ∧
      κ.verifySignature (encoded.take 97) t.signature t.senderPublicKey = true := by
  constructor
  · intro signer fields t h
    exact t.deserialize_serialize κ (Obtainable.verified κ hlaw (.signed h))
  · intro encoded t h
    obtain ⟨hserialize, hverified⟩ := serialize_of_deserialize κ h
    refine ⟨hserialize, t.amount_pos, t.debit_lt, t.supportedChain, ?_⟩
    have hsigned : encoded.take 97 = t.signingBytes := by
      rw [← hserialize]
      exact List.take_left' t.length_signingBytes
    rw [hsigned]
    exact hverified

/-- The pair of a seed, as it comes out of `seedKeypair`. -/
def firstKeys : PublicKey × PrivateKey := reference.seedKeypair (List.Vector.replicate 32 1)

theorem seeded_firstKeys :
    ∃ seed, reference.seedKeypair seed = (firstKeys.1, firstKeys.2) :=
  ⟨List.Vector.replicate 32 1, rfl⟩

/-- A wallet of the reference scheme. -/
def firstWallet : Wallet reference where
  keyPair := ⟨firstKeys.1, firstKeys.2, seeded_firstKeys⟩

/-- The fields of a payment. -/
def firstFields : TransactionFields where
  recipient := ⟨List.Vector.replicate 32 9⟩
  amount := 5
  fee := 1
  accountNonce := 0
  chainId := 2

theorem transaction_encoding_canonical_signed :
    ∃ t, signTransaction reference firstWallet firstFields = .ok t ∧
      deserializeTransaction reference t.serialize = .ok t ∧
      reference.verifySignature (t.serialize.take 97) t.signature t.senderPublicKey = true := by
  have hvalid : validateFields firstFields = .none := by decide +kernel
  obtain ⟨hsigned, hdecoded⟩ := transaction_encoding_canonical reference reference_signatureLaw
  have hround := hsigned firstWallet firstFields _ (dif_pos hvalid)
  exact ⟨_, dif_pos hvalid, hround, (hdecoded _ _ hround).2.2.2.2⟩

end SignedTransaction

end BBC
