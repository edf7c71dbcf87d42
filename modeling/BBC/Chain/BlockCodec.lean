/-
# `BBC.Chain.BlockCodec` — decoding a serialized block gives the block back

`Block.WellFormed` collects what the four constructors of a block establish.  The
decoder re-checks exactly that, so it accepts the serialization of a
well-formed block and rebuilds every field from its offset.  Conversely its length
check and its field windows leave no byte unread, so what it accepts is the
serialization of its result.
-/
import BBC.Chain.Block
import BBC.Crypto.Reference

namespace BBC

open ByteCodec

variable (κ : Crypto)

namespace Block

@[simp] theorem length_serializeHeader (b : Block) :
    b.serializeHeader.length = blockHeaderSize := by
  cases h : b.rewardRecipient <;> simp [serializeHeader, h, blockMagic, blockHeaderSize]

theorem length_serialize (b : Block) :
    b.serialize.length = blockHeaderSize + b.transactions.length * signedTransactionSize := by
  simp [serialize, List.length_flatMap, Nat.mul_comm]

theorem length_serialize_le (b : Block) : b.serialize.length ≤ maximumBlockSize := by
  rw [length_serialize, maximumBlockSize]
  exact Nat.add_le_add_left (Nat.mul_le_mul_right _ b.bounded) _

/-- What every constructor of a block establishes. -/
structure WellFormed (b : Block) : Prop where
  supported : SupportedChain b.chainId
  validated : validateTransactions κ b.transactions b.chainId = .none
  root : b.transactionRoot = calculateTransactionRoot κ b.transactions
  verified : ∀ t ∈ b.transactions, t.Verified κ
  shape : b = genesisBlock κ b.chainId ∨
    (b.height ≠ 0 ∧ b.previousBlockHash.isZero = false ∧
      ∃ recipient, b.rewardRecipient = some recipient ∧ recipient.hash.isZero = false)

end Block

/-! ## The transactions of a block -/

variable {κ}

theorem validateTransactionsFrom_chainId {chainId : UInt32} :
    ∀ {ids : List Hash256} {ts : List SignedTransaction},
      validateTransactionsFrom κ chainId ids ts = .none → ∀ t ∈ ts, t.chainId = chainId
  | _, [], _, _, ht => absurd ht List.not_mem_nil
  | ids, value :: rest, h, t, ht => by
      unfold validateTransactionsFrom at h
      split at h
      · cases h
      · rename_i hchain
        split at h
        · cases h
        · rcases List.mem_cons.mp ht with rfl | ht
          · exact not_not.mp hchain
          · exact validateTransactionsFrom_chainId h t ht

theorem validateTransactions_chainId {chainId : UInt32} {ts : List SignedTransaction}
    (h : validateTransactions κ ts chainId = .none) : ∀ t ∈ ts, t.chainId = chainId := by
  unfold validateTransactions at h
  split at h
  · cases h
  · exact validateTransactionsFrom_chainId h

theorem validateTransactionsFrom_none {chainId : UInt32} (ts : List SignedTransaction) :
    ∀ {seen : List Hash256}, (∀ t ∈ ts, t.chainId = chainId) →
      (ts.map (SignedTransaction.id κ)).Nodup → (∀ t ∈ ts, t.id κ ∉ seen) →
        validateTransactionsFrom κ chainId seen ts = .none := by
  induction ts with
  | nil => intro seen _ _ _; rfl
  | cons t ts ih =>
      intro seen hchain hids hseen
      obtain ⟨ht, hts⟩ := List.forall_mem_cons.mp hchain
      obtain ⟨hfirst, hrest⟩ := List.forall_mem_cons.mp hseen
      rw [List.map_cons, List.nodup_cons] at hids
      rw [validateTransactionsFrom, if_neg (not_not.mpr ht), if_neg hfirst]
      refine ih hts hids.2 ?_
      intro u hu hmem
      rcases List.mem_append.mp hmem with hmem | hmem
      · exact hrest u hu hmem
      · exact hids.1 (List.mem_map.mpr ⟨u, hu, List.mem_singleton.mp hmem⟩)

/-- `validate_transactions` accepts a short list of distinct transactions of the chain. -/
theorem validateTransactions_of_nodup {chainId : UInt32} {ts : List SignedTransaction}
    (hlength : ts.length ≤ maximumTransactionsPerBlock) (hchain : ∀ t ∈ ts, t.chainId = chainId)
    (hids : (ts.map (SignedTransaction.id κ)).Nodup) :
    validateTransactions κ ts chainId = .none := by
  rw [validateTransactions, if_neg (not_lt.mpr hlength)]
  exact validateTransactionsFrom_none ts hchain hids fun t _ => List.not_mem_nil

/-- The loop reads back a run of serialized transactions. -/
theorem deserializeTransactions_of_drop {chainId : UInt32} {encoded : Bytes} :
    ∀ {ts : List SignedTransaction} {offset : Nat},
      encoded.drop offset = ts.flatMap SignedTransaction.serialize →
      (∀ t ∈ ts, t.chainId = chainId) → (∀ t ∈ ts, t.Verified κ) →
      deserializeTransactions κ chainId encoded ts.length offset = .ok ts
  | [], _, _, _, _ => rfl
  | t :: ts, offset, hdrop, hchain, hverified => by
      rw [List.flatMap_cons] at hdrop
      have hwindow : subspan encoded offset signedTransactionSize = t.serialize :=
        subspan_of_drop hdrop t.length_serialize
      have htail : encoded.drop (offset + signedTransactionSize)
          = ts.flatMap SignedTransaction.serialize :=
        drop_of_drop _ hdrop (by rw [t.length_serialize])
      have ih := deserializeTransactions_of_drop htail
        (fun u hu => hchain u (List.mem_cons_of_mem _ hu))
        (fun u hu => hverified u (List.mem_cons_of_mem _ hu))
      simp only [List.length_cons, deserializeTransactions, hwindow,
        t.deserialize_serialize κ (hverified t List.mem_cons_self), ih,
        hchain t List.mem_cons_self, ne_eq, not_true_eq_false, if_false]

theorem deserializeTransactions_verified {chainId : UInt32} {encoded : Bytes} :
    ∀ {count offset : Nat} {ts : List SignedTransaction},
      deserializeTransactions κ chainId encoded count offset = .ok ts →
      ∀ t ∈ ts, t.Verified κ
  | 0, _, ts, h, t, ht => by
      cases h
      exact absurd ht List.not_mem_nil
  | count + 1, offset, ts, h, t, ht => by
      unfold deserializeTransactions at h
      split at h
      · cases h
      · rename_i value hvalue
        split at h
        · cases h
        · split at h
          · cases h
          · rename_i rest hrest
            cases h
            rcases List.mem_cons.mp ht with rfl | ht
            · exact (SignedTransaction.serialize_of_deserialize κ hvalue).2
            · exact deserializeTransactions_verified hrest t ht

/-! ## Every obtainable block is well formed -/

namespace Block

theorem wellFormed_genesis {chainId : UInt32} (h : SupportedChain chainId) :
    (genesisBlock κ chainId).WellFormed κ where
  supported := h
  validated := rfl
  root := rfl
  verified := fun _ ht => absurd ht List.not_mem_nil
  shape := Or.inl rfl

/-- What `create_block` has checked when it succeeds, and the block that it fills in. -/
theorem createBlock_ok {fields : BlockFields} {b : Block} (h : createBlock κ fields = .ok b) :
    ∃ hbody : validateTransactions κ fields.transactions fields.chainId = .none,
      SupportedChain fields.chainId ∧ fields.height ≠ 0 ∧
        fields.previousBlockHash.isZero = false ∧ fields.rewardRecipient.hash.isZero = false ∧
        b = {
          chainId := fields.chainId
          height := fields.height
          previousBlockHash := fields.previousBlockHash
          transactionRoot := calculateTransactionRoot κ fields.transactions
          rewardRecipient := some fields.rewardRecipient
          timestamp := fields.timestamp
          difficultyTarget := fields.difficultyTarget
          miningNonce := fields.miningNonce
          transactions := fields.transactions
          bounded := length_le_of_validateTransactions hbody } := by
  unfold createBlock at h
  split_ifs at h with hchain hheight hprev hreward hbody
  cases h
  exact ⟨hbody, hchain, hheight, eq_false_of_ne_true hprev, eq_false_of_ne_true hreward, rfl⟩

theorem createBlock_isOk_iff {fields : BlockFields} :
    (∃ b, createBlock κ fields = .ok b) ↔ SupportedChain fields.chainId ∧ fields.height ≠ 0 ∧
      fields.previousBlockHash.isZero = false ∧ fields.rewardRecipient.hash.isZero = false ∧
      validateTransactions κ fields.transactions fields.chainId = .none := by
  constructor
  · rintro ⟨b, hb⟩
    obtain ⟨hbody, hchain, hheight, hprevious, hreward, -⟩ := createBlock_ok hb
    exact ⟨hchain, hheight, hprevious, hreward, hbody⟩
  · rintro ⟨hchain, hheight, hprevious, hreward, hbody⟩
    rw [createBlock, if_neg (not_not.mpr hchain), if_neg hheight,
      if_neg (Bool.not_eq_true _ ▸ hprevious), if_neg (Bool.not_eq_true _ ▸ hreward),
      dif_pos hbody]
    exact ⟨_, rfl⟩

theorem wellFormed_of_createBlock {fields : BlockFields} {b : Block}
    (hverified : ∀ t ∈ fields.transactions, t.Verified κ)
    (h : createBlock κ fields = .ok b) : b.WellFormed κ := by
  obtain ⟨hbody, hchain, hheight, hprev, hreward, rfl⟩ := createBlock_ok h
  exact {
    supported := hchain
    validated := hbody
    root := rfl
    verified := hverified
    shape := Or.inr ⟨hheight, hprev, _, rfl, hreward⟩ }

theorem supportedChain_of_checkEncoding {encoded : Bytes} (h : checkEncoding encoded = .none) :
    SupportedChain (readU32Le encoded 5) := by
  by_contra hc
  rw [checkEncoding] at h
  split_ifs at h

theorem wellFormed_of_assembleBlock {encoded : Bytes} {transactions : List SignedTransaction}
    {b : Block} (hchain : SupportedChain (readU32Le encoded 5))
    (hverified : ∀ t ∈ transactions, t.Verified κ)
    (h : assembleBlock κ encoded transactions = .ok b) : b.WellFormed κ := by
  unfold assembleBlock at h
  dsimp only at h
  split_ifs at h with hvalid hroot hheight hgenesis hprev hreward
  · cases h
    exact wellFormed_genesis hchain
  · cases h
    exact {
      supported := hchain
      validated := hvalid
      root := (not_not.mp hroot).symm
      verified := hverified
      shape := Or.inr ⟨hheight, eq_false_of_ne_true hprev, _, rfl, eq_false_of_ne_true hreward⟩ }

theorem wellFormed_of_deserializeBlock {encoded : Bytes} {b : Block}
    (h : deserializeBlock κ encoded = .ok b) : b.WellFormed κ := by
  unfold deserializeBlock at h
  split at h
  · cases h
  · rename_i hcheck
    split at h
    · cases h
    · rename_i transactions htxs
      exact wellFormed_of_assembleBlock (supportedChain_of_checkEncoding (not_not.mp hcheck))
        (deserializeTransactions_verified htxs) h

theorem WellFormed.withMiningNonce {b : Block} (h : b.WellFormed κ) (miningNonce : UInt64) :
    (b.withMiningNonce miningNonce).WellFormed κ := by
  unfold Block.withMiningNonce
  split
  · exact h
  · rename_i hgenesis
    exact {
      supported := h.supported
      validated := h.validated
      root := h.root
      verified := h.verified
      shape := by
        rcases h.shape with hg | hs
        · rw [hg] at hgenesis
          exact absurd rfl hgenesis
        · exact Or.inr hs }

theorem Obtainable.wellFormed (hlaw : κ.SignatureLaw) {b : Block} (h : b.Obtainable κ) :
    b.WellFormed κ := by
  induction h with
  | genesis hc => exact wellFormed_genesis hc
  | created hts hc => exact wellFormed_of_createBlock (fun t ht => (hts t ht).verified κ hlaw) hc
  | deserialized hd => exact wellFormed_of_deserializeBlock hd
  | nonce miningNonce _ ih => exact ih.withMiningNonce miningNonce

/-! ## The round trip -/

/-- The 32 bytes that stand for the reward recipient in the header. -/
def rewardBytes (b : Block) : Hash256 :=
  match b.rewardRecipient with
  | some recipient => recipient.hash
  | none => .zero

theorem serialize_layout (b : Block) :
    b.serialize = blockMagic ++ ([blockVersion] ++ (encodeU32Le b.chainId ++
      (encodeU64Le b.height ++ (b.previousBlockHash.toList ++ (b.transactionRoot.toList ++
        (b.rewardBytes.toList ++ (encodeU64Le b.timestamp ++ (b.difficultyTarget.toList ++
          (encodeU64Le b.miningNonce ++ (encodeU32Le (UInt32.ofNat b.transactions.length) ++
            b.transactions.flatMap SignedTransaction.serialize)))))))))) := by
  cases h : b.rewardRecipient <;> simp [serialize, serializeHeader, rewardBytes, h]

/-- What the decoder reads out of an encoding of `b`, field by field. -/
structure ReadsAs (encoded : Bytes) (b : Block) : Prop where
  magic : subspan encoded 0 4 = blockMagic
  version : encoded.getD 4 0 = blockVersion
  chainId : readU32Le encoded 5 = b.chainId
  height : readU64Le encoded 9 = b.height
  previousBlockHash : readArray 32 encoded 17 = b.previousBlockHash
  transactionRoot : readArray 32 encoded 49 = b.transactionRoot
  reward : readArray 32 encoded 81 = b.rewardBytes
  timestamp : readU64Le encoded 113 = b.timestamp
  target : readArray 32 encoded 121 = b.difficultyTarget
  miningNonce : readU64Le encoded 153 = b.miningNonce
  count : (readU32Le encoded 161).toNat = b.transactions.length
  body : encoded.drop blockHeaderSize = b.transactions.flatMap SignedTransaction.serialize

theorem readsAs_serialize (b : Block) : ReadsAs b.serialize b := by
  have hle : b.transactions.length ≤ 1000 := b.bounded
  have hcount : (UInt32.ofNat b.transactions.length).toNat = b.transactions.length :=
    UInt32.toNat_ofNat_of_lt' (by show _ < 2 ^ 32; omega)
  -- the layout, walked from the front
  have d0 : b.serialize.drop 0 = _ := b.serialize_layout
  have d4 := drop_of_drop 4 d0 rfl
  have d5 := drop_of_drop 5 d4 rfl
  have d9 := drop_of_drop 9 d5 (by simp)
  have d17 := drop_of_drop 17 d9 (by simp)
  have d49 := drop_of_drop 49 d17 (by simp)
  have d81 := drop_of_drop 81 d49 (by simp)
  have d113 := drop_of_drop 113 d81 (by simp)
  have d121 := drop_of_drop 121 d113 (by simp)
  have d153 := drop_of_drop 153 d121 (by simp)
  have d161 := drop_of_drop 161 d153 (by simp)
  exact {
    magic := subspan_of_drop d0 rfl
    version := by rw [List.getD_eq_getElem?_getD, ← List.head?_drop, d4]; rfl
    chainId := readU32Le_of_drop d5
    height := readU64Le_of_drop d9
    previousBlockHash := readArray_of_drop d17
    transactionRoot := readArray_of_drop d49
    reward := readArray_of_drop d81
    timestamp := readU64Le_of_drop d113
    target := readArray_of_drop d121
    miningNonce := readU64Le_of_drop d153
    count := by rw [readU32Le_of_drop d161, hcount]
    body := drop_of_drop _ d161 (by simp [blockHeaderSize]) }

theorem checkEncoding_serialize {b : Block} (h : SupportedChain b.chainId) :
    checkEncoding b.serialize = .none := by
  have hr := b.readsAs_serialize
  have hlen := b.length_serialize
  have hmax := b.length_serialize_le
  have hbound := b.bounded
  unfold checkEncoding
  rw [if_neg (by omega), if_neg (not_not.mpr hr.magic), if_neg (not_not.mpr hr.version),
    if_neg (by rw [hr.chainId]; exact not_not.mpr h), if_neg (by rw [hr.count]; omega),
    if_neg (by rw [hr.count]; exact not_not.mpr hlen)]

theorem assembleBlock_serialize {b : Block} (h : b.WellFormed κ) :
    assembleBlock κ b.serialize b.transactions = .ok b := by
  have hr := b.readsAs_serialize
  simp only [assembleBlock, hr.chainId, hr.height, hr.previousBlockHash, hr.transactionRoot,
    hr.reward, hr.timestamp, hr.target, hr.miningNonce, h.validated, ← h.root]
  rcases h.shape with hg | ⟨hheight, hprev, recipient, hrecipient, hzero⟩
  · have hheight : b.height = 0 := by rw [hg]; rfl
    simp [hheight, ← hg]
  · have hreward : b.rewardBytes = recipient.hash := by rw [rewardBytes, hrecipient]
    simp [hheight, hprev, hreward, hzero, ← hrecipient]

/-- The serialization of a well-formed block decodes to that block. -/
theorem deserialize_serialize {b : Block} (h : b.WellFormed κ) :
    deserializeBlock κ b.serialize = .ok b := by
  have hr := b.readsAs_serialize
  have htxs := deserializeTransactions_of_drop hr.body (validateTransactions_chainId h.validated)
    h.verified
  rw [deserializeBlock, checkEncoding_serialize h.supported, hr.chainId, hr.count, htxs]
  exact assembleBlock_serialize h

/-! ## The decoder accepts nothing else -/

end Block

/-- The loop has read the whole rest of the string. -/
theorem flatMap_of_deserializeTransactions {chainId : UInt32} {encoded : Bytes} :
    ∀ {count offset : Nat} {ts : List SignedTransaction},
      deserializeTransactions κ chainId encoded count offset = .ok ts →
      offset + count * signedTransactionSize = encoded.length →
      ts.length = count ∧ ts.flatMap SignedTransaction.serialize = encoded.drop offset
  | 0, offset, ts, h, hlen => by
      cases h
      rw [Nat.zero_mul, Nat.add_zero] at hlen
      exact ⟨rfl, (List.drop_of_length_le (Nat.le_of_eq hlen.symm)).symm⟩
  | count + 1, offset, ts, h, hlen => by
      unfold deserializeTransactions at h
      split at h
      · cases h
      · rename_i value hvalue
        split at h
        · cases h
        · split at h
          · cases h
          · rename_i rest hrest
            cases h
            rw [Nat.succ_mul] at hlen
            obtain ⟨hcount, hbody⟩ := flatMap_of_deserializeTransactions hrest (by omega)
            refine ⟨by rw [List.length_cons, hcount], ?_⟩
            rw [List.flatMap_cons, hbody, (SignedTransaction.serialize_of_deserialize κ hvalue).1,
              subspan_append_drop]

namespace Block

/-- What passed the first checks has the magic, the version and the exact length. -/
theorem layout_of_checkEncoding {encoded : Bytes} (h : checkEncoding encoded = .none) :
    subspan encoded 0 4 = blockMagic ∧ encoded.getD 4 0 = blockVersion ∧
      encoded.length = blockHeaderSize + (readU32Le encoded 161).toNat * signedTransactionSize := by
  rw [checkEncoding] at h
  split_ifs at h with hsize hmagic hversion hchain hcount hlen
  exact ⟨not_not.mp hmagic, not_not.mp hversion, not_not.mp hlen⟩

/-- An assembled block re-encodes to the string it was read from. -/
theorem serialize_of_assembleBlock {encoded : Bytes} {transactions : List SignedTransaction}
    {b : Block} (hcheck : checkEncoding encoded = .none)
    (hcount : transactions.length = (readU32Le encoded 161).toNat)
    (hbody : transactions.flatMap SignedTransaction.serialize = encoded.drop blockHeaderSize)
    (h : assembleBlock κ encoded transactions = .ok b) : b.serialize = encoded := by
  obtain ⟨hmagic, hversion, hlen⟩ := layout_of_checkEncoding hcheck
  have hmin : 165 ≤ encoded.length := by
    rw [hlen]
    exact Nat.le_add_right _ _
  unfold assembleBlock at h
  dsimp only at h
  split_ifs at h with hvalid hroot hheight hgenesis hprev hreward
  · cases h
    exact (not_not.mp hgenesis).symm
  · cases h
    -- every field re-encodes to its own window, and the windows tile the string
    rw [serialize_layout]
    simp only [rewardBytes]
    rw [hcount, UInt32.ofNat_toNat, hbody, encodeU32Le_readU32Le (by omega),
      encodeU32Le_readU32Le (by omega), encodeU64Le_readU64Le (by omega),
      encodeU64Le_readU64Le (by omega), encodeU64Le_readU64Le (by omega),
      toList_readArray (by omega), toList_readArray (by omega), toList_readArray (by omega),
      toList_readArray (by omega), ← hmagic, ← hversion, ← subspan_one 0 (by omega),
      blockHeaderSize]
    rw [subspan_append_drop, subspan_append_drop, subspan_append_drop, subspan_append_drop,
      subspan_append_drop, subspan_append_drop, subspan_append_drop, subspan_append_drop,
      subspan_append_drop, subspan_append_drop, subspan_append_drop, List.drop_zero]

/-- Whatever the decoder accepts is the serialization of its result. -/
theorem serialize_of_deserializeBlock {encoded : Bytes} {b : Block}
    (h : deserializeBlock κ encoded = .ok b) : b.serialize = encoded := by
  unfold deserializeBlock at h
  split at h
  · cases h
  · rename_i hcheck
    have hlayout := layout_of_checkEncoding (not_not.mp hcheck)
    split at h
    · cases h
    · rename_i transactions htxs
      obtain ⟨hcount, hbody⟩ := flatMap_of_deserializeTransactions htxs hlayout.2.2.symm
      exact serialize_of_assembleBlock (not_not.mp hcheck) hcount hbody h

/-- The encoding is canonical: it decodes to the block, the decoder accepts nothing
but encodings, and so two blocks with one encoding are one. -/
theorem encoding_canonical (κ : Crypto) (hlaw : κ.SignatureLaw) :
    (∀ b : Block, b.Obtainable κ → deserializeBlock κ b.serialize = .ok b) ∧
    (∀ (x : Bytes) (b : Block), deserializeBlock κ x = .ok b → b.serialize = x) ∧
    (∀ x : Bytes, (∃ b, deserializeBlock κ x = .ok b) ↔
      ∃ b : Block, b.Obtainable κ ∧ b.serialize = x) ∧
    (∀ a b : Block, a.Obtainable κ → b.Obtainable κ → a.serialize = b.serialize → a = b) := by
  have hround : ∀ b : Block, b.Obtainable κ → deserializeBlock κ b.serialize = .ok b :=
    fun b hb => deserialize_serialize (hb.wellFormed hlaw)
  refine ⟨hround, fun x b h => serialize_of_deserializeBlock h, ?_, ?_⟩
  · intro x
    constructor
    · rintro ⟨b, hb⟩
      exact ⟨b, .deserialized hb, serialize_of_deserializeBlock hb⟩
    · rintro ⟨b, hb, rfl⟩
      exact ⟨b, hround b hb⟩
  · intro a b ha hb hab
    have hda := hround a ha
    rw [hab, hround b hb] at hda
    exact (Except.ok.inj hda).symm

theorem encoding_canonical_reference :
    (∀ b : Block, b.Obtainable reference → deserializeBlock reference b.serialize = .ok b) ∧
    (∀ (x : Bytes) (b : Block), deserializeBlock reference x = .ok b → b.serialize = x) ∧
    (∀ x : Bytes, (∃ b, deserializeBlock reference x = .ok b) ↔
      ∃ b : Block, b.Obtainable reference ∧ b.serialize = x) ∧
    (∀ a b : Block, a.Obtainable reference → b.Obtainable reference →
      a.serialize = b.serialize → a = b) :=
  encoding_canonical reference reference_signatureLaw

end Block

end BBC
