/-
# `BBC.Chain.BlockReads` — the decoders read inside their argument

`deserialize_transaction` and `deserialize_block` take a view of bytes and index it
without asking.  Here every read is made with the bounds of the view, and a read that
leaves it stops the decoder (`none`).  Nothing ever stops: the size tests come first, and
the decoders return what they return without the bounds.
-/
import BBC.Chain.Block

namespace BBC

open ByteCodec

/-! ## Reads with bounds -/

def readByteIn (input : Bytes) (offset : Nat) : Option Byte :=
  inside input offset 1 (input.getD offset 0)

def readU16In (input : Bytes) (offset : Nat) : Option UInt16 :=
  inside input offset 2 (readU16Le input offset)

def readU32In (input : Bytes) (offset : Nat) : Option UInt32 :=
  inside input offset 4 (readU32Le input offset)

def readU64In (input : Bytes) (offset : Nat) : Option UInt64 :=
  inside input offset 8 (readU64Le input offset)

def readArrayIn (n : Nat) (input : Bytes) (offset : Nat) : Option (FixedBytes n) :=
  inside input offset n (readArray n input offset)

def subspanIn (input : Bytes) (offset size : Nat) : Option Bytes :=
  inside input offset size (subspan input offset size)

section bounds
variable {input : Bytes} {offset : Nat}

theorem readByteIn_eq (h : offset + 1 ≤ input.length) :
    readByteIn input offset = some (input.getD offset 0) := inside_eq h _

theorem readU16In_eq (h : offset + 2 ≤ input.length) :
    readU16In input offset = some (readU16Le input offset) := inside_eq h _

theorem readU32In_eq (h : offset + 4 ≤ input.length) :
    readU32In input offset = some (readU32Le input offset) := inside_eq h _

theorem readU64In_eq (h : offset + 8 ≤ input.length) :
    readU64In input offset = some (readU64Le input offset) := inside_eq h _

theorem readArrayIn_eq {n : Nat} (h : offset + n ≤ input.length) :
    readArrayIn n input offset = some (readArray n input offset) := inside_eq h _

theorem subspanIn_eq {size : Nat} (h : offset + size ≤ input.length) :
    subspanIn input offset size = some (subspan input offset size) := inside_eq h _

end bounds

/-! ## A transaction -/

/-- The reads of `deserialize_transaction` behind its size test, in the source's order; the
source reads the signature, and the bytes it signs, only if all before has passed. -/
def readTransactionFields (encoded : Bytes) : Option Unit := do
  let _ ← subspanIn encoded 0 4
  let _ ← readByteIn encoded 4
  let _ ← readU32In encoded 5
  let _ ← readArrayIn 32 encoded 9
  let _ ← readArrayIn 32 encoded 41
  let _ ← readU64In encoded 73
  let _ ← readU64In encoded 81
  let _ ← readU64In encoded 89
  let _ ← readArrayIn 64 encoded 97
  let _ ← subspanIn encoded 0 unsignedTransactionSize
  pure ()

/-- `deserialize_transaction` with bounds. -/
def deserializeTransactionIn (κ : Crypto) (encoded : Bytes) :
    Option (Except TransactionError SignedTransaction) :=
  if encoded.length ≠ signedTransactionSize then some (.error .invalidSize)
  else do
    let _ ← readTransactionFields encoded
    pure (deserializeTransaction κ encoded)

theorem readTransactionFields_eq {encoded : Bytes} (h : encoded.length = signedTransactionSize) :
    readTransactionFields encoded = some () := by
  have hsize : encoded.length = 161 := h
  simp [readTransactionFields, readByteIn, readU32In, readU64In, readArrayIn, subspanIn, inside,
    hsize, unsignedTransactionSize]

theorem deserializeTransactionIn_eq (κ : Crypto) (encoded : Bytes) :
    deserializeTransactionIn κ encoded = some (deserializeTransaction κ encoded) := by
  by_cases h : encoded.length = signedTransactionSize
  · rw [deserializeTransactionIn, if_neg (not_not.mpr h), readTransactionFields_eq h]
    rfl
  · rw [deserializeTransactionIn, if_pos h, deserializeTransaction, if_pos h]

/-! ## A block -/

/-- The reads of `deserialize_block` between its first size test and its second. -/
def readCountFields (encoded : Bytes) : Option Unit := do
  let _ ← subspanIn encoded 0 4
  let _ ← readByteIn encoded 4
  let _ ← readU32In encoded 5
  let _ ← readU32In encoded 161
  pure ()

/-- The header fields it reads behind the second one. -/
def readHeaderFields (encoded : Bytes) : Option Unit := do
  let _ ← readU64In encoded 9
  let _ ← readArrayIn 32 encoded 17
  let _ ← readArrayIn 32 encoded 49
  let _ ← readArrayIn 32 encoded 81
  let _ ← readU64In encoded 113
  let _ ← readArrayIn 32 encoded 121
  let _ ← readU64In encoded 153
  pure ()

/-- The transaction loop with bounds. -/
def deserializeTransactionsIn (κ : Crypto) (chainId : UInt32) (encoded : Bytes) :
    Nat → Nat → Option (Except BlockError (List SignedTransaction))
  | 0, _ => some (.ok [])
  | count + 1, offset => do
      let window ← subspanIn encoded offset signedTransactionSize
      match ← deserializeTransactionIn κ window with
      | .error _ => pure (.error .invalidTransaction)
      | .ok value =>
          if value.chainId ≠ chainId then pure (.error .invalidTransaction)
          else
            match ← deserializeTransactionsIn κ chainId encoded count
              (offset + signedTransactionSize) with
            | .error e => pure (.error e)
            | .ok rest => pure (.ok (value :: rest))

/-- `deserialize_block` with bounds. -/
def deserializeBlockIn (κ : Crypto) (encoded : Bytes) : Option (Except BlockError Block) :=
  if encoded.length < blockHeaderSize ∨ encoded.length > maximumBlockSize then
    some (.error .invalidSize)
  else do
    let _ ← readCountFields encoded
    if checkEncoding encoded ≠ .none then pure (.error (checkEncoding encoded))
    else
      let _ ← readHeaderFields encoded
      match ← deserializeTransactionsIn κ (readU32Le encoded 5) encoded
        (readU32Le encoded 161).toNat blockHeaderSize with
      | .error e => pure (.error e)
      | .ok transactions => pure (assembleBlock κ encoded transactions)

theorem readCountFields_eq {encoded : Bytes} (h : blockHeaderSize ≤ encoded.length) :
    readCountFields encoded = some () := by
  have hsize : 165 ≤ encoded.length := h
  have hfits : ∀ {k : Nat}, k ≤ 165 → k ≤ encoded.length := fun hk => Nat.le_trans hk hsize
  simp [readCountFields, readByteIn, readU32In, subspanIn, inside, hfits]

theorem readHeaderFields_eq {encoded : Bytes} (h : blockHeaderSize ≤ encoded.length) :
    readHeaderFields encoded = some () := by
  have hsize : 165 ≤ encoded.length := h
  have hfits : ∀ {k : Nat}, k ≤ 165 → k ≤ encoded.length := fun hk => Nat.le_trans hk hsize
  simp [readHeaderFields, readU64In, readArrayIn, inside, hfits]

/-- The windows tile what follows the header. -/
theorem deserializeTransactionsIn_eq (κ : Crypto) (chainId : UInt32) (encoded : Bytes)
    (count : Nat) :
    ∀ {offset : Nat}, offset + count * signedTransactionSize ≤ encoded.length →
      deserializeTransactionsIn κ chainId encoded count offset
        = some (deserializeTransactions κ chainId encoded count offset) := by
  induction count with
  | zero => intro offset _; rfl
  | succ count ih =>
      intro offset hfits
      rw [Nat.succ_mul] at hfits
      rw [deserializeTransactionsIn, deserializeTransactions, subspanIn_eq (by omega)]
      simp only [Option.bind_eq_bind, Option.bind_some, deserializeTransactionIn_eq]
      cases deserializeTransaction κ (subspan encoded offset signedTransactionSize) with
      | error e => rfl
      | ok value =>
          dsimp only
          rw [ih (by omega)]
          split_ifs
          · rfl
          · cases deserializeTransactions κ chainId encoded count
              (offset + signedTransactionSize) with
            | error e => rfl
            | ok rest => rfl

/-- `deserialize_block` reads inside its argument, whatever the bytes are. -/
theorem deserializeBlockIn_eq (κ : Crypto) (encoded : Bytes) :
    deserializeBlockIn κ encoded = some (deserializeBlock κ encoded) := by
  rw [deserializeBlockIn, deserializeBlock]
  by_cases hsize : encoded.length < blockHeaderSize ∨ encoded.length > maximumBlockSize
  · have hcheck : checkEncoding encoded = .invalidSize := by
      rw [checkEncoding, if_pos hsize]
    rw [if_pos hsize, hcheck, if_pos (by decide)]
  · have hheader : blockHeaderSize ≤ encoded.length := by
      have := not_or.mp hsize
      omega
    rw [if_neg hsize, readCountFields_eq hheader]
    simp only [Option.bind_eq_bind, Option.bind_some]
    by_cases hcheck : checkEncoding encoded = .none
    · rw [if_neg (not_not.mpr hcheck), if_neg (not_not.mpr hcheck), readHeaderFields_eq hheader]
      have hlength : blockHeaderSize + (readU32Le encoded 161).toNat * signedTransactionSize
          ≤ encoded.length := by
        rw [checkEncoding] at hcheck
        split_ifs at hcheck with _ _ _ _ hlength
        exact Nat.le_of_eq (not_not.mp hlength).symm
      simp only [Option.bind_some, deserializeTransactionsIn_eq κ _ encoded _ hlength]
      cases deserializeTransactions κ (readU32Le encoded 5) encoded
        (readU32Le encoded 161).toNat blockHeaderSize with
      | error e => rfl
      | ok transactions => rfl
    · rw [if_pos hcheck, if_pos hcheck]
      rfl

end BBC
