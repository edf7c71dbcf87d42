/-
# `BBC.Crypto.Reference` — a `Crypto` that runs

The hash is SHA-256 itself, so block ids and proofs of work come out as the
program computes them.  Ed25519 is replaced by the simplest scheme with the same
interface and the same contract: a key pair is a seed and its digest, and a
signature is a digest of the message and the public key.  It is for evaluating
the model on concrete blocks; no general result mentions it.
-/
import BBC.Crypto.Basic
import BBC.Lib.Sha256

namespace BBC

def sha256 (message : Bytes) : Hash256 := ⟨Sha256.digest message, Sha256.length_digest message⟩

def joinHalves (a b : FixedBytes 32) : FixedBytes 64 := ⟨a.toList ++ b.toList, by simp⟩

def upperHalf (a : FixedBytes 64) : FixedBytes 32 := ⟨a.toList.drop 32, by simp⟩

theorem upperHalf_joinHalves (a b : FixedBytes 32) : upperHalf (joinHalves a b) = b := by
  refine Subtype.ext ?_
  show (a.toList ++ b.toList).drop 32 = b.toList
  exact List.drop_left' a.toList_length

/-- The signature of the reference scheme. -/
def referenceTag (message : Bytes) (key : PublicKey) : Signature :=
  joinHalves (sha256 (message ++ key.toList)) (sha256 (key.toList ++ message))

/-- As in libsodium, the second half of a private key is its public key. -/
def reference : Crypto where
  sha256 := sha256
  seedKeypair seed := (sha256 seed.toList, joinHalves seed (sha256 seed.toList))
  signDetached message key := referenceTag message (upperHalf key)
  verifyDetached signature message key := signature = referenceTag message key

theorem reference_signatureLaw : reference.SignatureLaw := by
  rintro ⟨publicKey, privateKey, seed, hseed⟩ message
  obtain ⟨rfl, rfl⟩ := Prod.mk.inj hseed
  refine decide_eq_true ?_
  show referenceTag message (upperHalf (joinHalves seed (sha256 seed.toList))) = _
  rw [upperHalf_joinHalves]

end BBC
