/-
# `BBC.Consensus.Mining` — the search for a nonce

`mine_block` of `src/consensus/proof_of_work.cpp`.  The header is serialized once and
every turn of the loop overwrites the eight bytes of its nonce.  A nonce that meets
the target is written into the candidate; the result then passes
`validate_proof_of_work` because the bytes that were hashed are its header.
-/
import BBC.Consensus.ProofOfWork

namespace BBC

/-- `block_mining_nonce_offset`. -/
def blockMiningNonceOffset : Nat := 153

/-- `write_mining_nonce`. -/
def writeMiningNonce (header : Bytes) (miningNonce : UInt64) : Bytes :=
  header.take blockMiningNonceOffset
    ++ (encodeU64Le miningNonce ++ header.drop (blockMiningNonceOffset + 8))

/-- `consensus::MiningResult`. -/
structure MiningResult where
  value : Except ProofOfWorkError Block
  attempts : UInt64
  nextNonce : Option UInt64 := none

/-- The `while` of `mine_block`, with the attempts that remain. -/
def mineLoop (κ : Crypto) (candidate : Block) (networkTarget : Hash256) :
    Nat → UInt64 → UInt64 → MiningResult
  | 0, nonce, attempts => ⟨.error .attemptLimitReached, attempts, some nonce⟩
  | remaining + 1, nonce, attempts =>
      if hashMeetsTarget (κ.sha256 (writeMiningNonce candidate.serializeHeader nonce))
          networkTarget then
        ⟨.ok (candidate.withMiningNonce nonce), attempts + 1, none⟩
      else if nonce = maxU64 then ⟨.error .nonceExhausted, attempts + 1, none⟩
      else mineLoop κ candidate networkTarget remaining (nonce + 1) (attempts + 1)

/-- `mine_block`. -/
def mineBlock (κ : Crypto) (candidate : Block) (maximumAttempts : UInt64) : MiningResult :=
  if candidate.isGenesis then ⟨.error .genesisNotMineable, 0, none⟩
  else if candidate.difficultyTarget ≠ fixedDifficultyTarget candidate.chainId then
    ⟨.error .unexpectedTarget, 0, none⟩
  else
    mineLoop κ candidate (fixedDifficultyTarget candidate.chainId) maximumAttempts.toNat
      candidate.miningNonce 0

variable {κ : Crypto} {candidate : Block}

/-- Everything before the nonce, the nonce, and the transaction count. -/
theorem serializeHeader_eq_nonce (b : Block) :
    ∃ front back : Bytes, front.length = blockMiningNonceOffset ∧
      ∀ nonce, ({ b with miningNonce := nonce } : Block).serializeHeader
        = front ++ (encodeU64Le nonce ++ back) := by
  refine ⟨blockMagic ++ (blockVersion :: (encodeU32Le b.chainId ++ (encodeU64Le b.height ++
    (b.previousBlockHash.toList ++ (b.transactionRoot.toList ++
      (b.rewardRecipient.elim (FixedBytes.zero : Hash256).toList
          (fun recipient => recipient.hash.toList) ++
      (encodeU64Le b.timestamp ++ b.difficultyTarget.toList))))))),
    encodeU32Le (UInt32.ofNat b.transactions.length), ?_, ?_⟩
  · cases b.rewardRecipient <;> simp [blockMagic, blockMiningNonceOffset]
  · intro nonce
    cases b.rewardRecipient <;> simp [Block.serializeHeader]

/-- The bytes that are hashed are the header of the block with that nonce. -/
theorem writeMiningNonce_serializeHeader (hmineable : candidate.isGenesis = false)
    (nonce : UInt64) :
    writeMiningNonce candidate.serializeHeader nonce
      = (candidate.withMiningNonce nonce).serializeHeader := by
  obtain ⟨front, back, hfront, heq⟩ := serializeHeader_eq_nonce candidate
  have hself : candidate.serializeHeader
      = front ++ (encodeU64Le candidate.miningNonce ++ back) := heq candidate.miningNonce
  have hskip : (front ++ (encodeU64Le candidate.miningNonce ++ back)).drop
      (blockMiningNonceOffset + 8) = back := by
    rw [← hfront, ← List.append_assoc]
    exact List.drop_left' (by simp)
  rw [Block.withMiningNonce, hmineable, if_neg Bool.false_ne_true, heq nonce, writeMiningNonce,
    hself, hskip, List.take_left' hfront]

/-- A nonce that the loop returns meets the target. -/
theorem mineLoop_ok {networkTarget : Hash256} {b : Block} (remaining : Nat) :
    ∀ {nonce attempts : UInt64},
      (mineLoop κ candidate networkTarget remaining nonce attempts).value = .ok b →
      ∃ found, b = candidate.withMiningNonce found ∧
        hashMeetsTarget (κ.sha256 (writeMiningNonce candidate.serializeHeader found))
          networkTarget = true := by
  induction remaining with
  | zero => intro nonce attempts h; cases h
  | succ remaining ih =>
      intro nonce attempts h
      rw [mineLoop] at h
      split at h
      · rename_i hmeets
        cases h
        exact ⟨nonce, rfl, hmeets⟩
      split at h
      · cases h
      · exact ih h

theorem validateProofOfWork_eq_none {b : Block} (hmineable : b.isGenesis = false)
    (htarget : b.difficultyTarget = fixedDifficultyTarget b.chainId)
    (hmeets : hashMeetsTarget (b.id κ) (fixedDifficultyTarget b.chainId) = true) :
    validateProofOfWork κ b = .none := by
  rw [validateProofOfWork, hmineable, if_neg Bool.false_ne_true, if_neg (not_not.mpr htarget),
    if_neg (not_not.mpr hmeets)]

/-- A block that `mine_block` returns is the candidate with a nonce that passes. -/
theorem mineBlock_ok {maximumAttempts : UInt64} {b : Block}
    (h : (mineBlock κ candidate maximumAttempts).value = .ok b) :
    b.height = candidate.height ∧ b.chainId = candidate.chainId ∧
      b.previousBlockHash = candidate.previousBlockHash ∧ b.isGenesis = false ∧
      validateProofOfWork κ b = .none := by
  rw [mineBlock] at h
  by_cases hgenesis : candidate.isGenesis = true
  · rw [if_pos hgenesis] at h
    cases h
  have hmineable : candidate.isGenesis = false := by simpa using hgenesis
  rw [if_neg hgenesis] at h
  by_cases htarget : candidate.difficultyTarget = fixedDifficultyTarget candidate.chainId
  · rw [if_neg (not_not.mpr htarget)] at h
    obtain ⟨nonce, rfl, hmeets⟩ := mineLoop_ok _ h
    rw [writeMiningNonce_serializeHeader hmineable] at hmeets
    have hsolved : candidate.withMiningNonce nonce = { candidate with miningNonce := nonce } := by
      rw [Block.withMiningNonce, hmineable, if_neg Bool.false_ne_true]
    rw [hsolved] at hmeets ⊢
    exact ⟨rfl, rfl, rfl, hmineable, validateProofOfWork_eq_none hmineable htarget hmeets⟩
  · rw [if_pos htarget] at h
    cases h

end BBC
