/-
# `BBC.Consensus.ProofOfWork` — the fixed target and its check

`src/consensus/proof_of_work.cpp`.  The target is a constant of the network, a
block must carry it, and the block id must lie strictly below it in the
lexicographic order of byte arrays.
-/
import BBC.Chain.BlockCodec

namespace BBC

/-- `consensus::ProofOfWorkError`. -/
inductive ProofOfWorkError where
  | none
  | genesisNotMineable
  | unexpectedTarget
  | targetNotMet
  | attemptLimitReached
  | nonceExhausted
  deriving DecidableEq, Repr

/-- `fixed_difficulty_target`: an unknown chain falls back to the development target. -/
def fixedDifficultyTarget (chainId : UInt32) : Hash256 :=
  match networkParametersForChain chainId with
  | some network => network.difficultyTarget
  | none => (networkParameters .development).difficultyTarget

/-- `hash_meets_target`. -/
def hashMeetsTarget (hash target : Hash256) : Bool := hash.lessThan target

/-- `validate_proof_of_work`. -/
def validateProofOfWork (κ : Crypto) (block : Block) : ProofOfWorkError :=
  if block.isGenesis then .none
  else if block.difficultyTarget ≠ fixedDifficultyTarget block.chainId then .unexpectedTarget
  else if ¬ hashMeetsTarget (block.id κ) (fixedDifficultyTarget block.chainId) then .targetNotMet
  else .none

end BBC
