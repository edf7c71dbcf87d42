/-
# `BBC.Crypto.Basic` — byte strings, digests, keys and the two primitives

`include/bbc/crypto/types.hpp` fixes the sizes of everything that is hashed or
signed; `hash.cpp` and `keys.cpp` are thin wrappers around libsodium.  libsodium
is not part of the repository, so its functions are the fields of a structure
`Crypto` and every definition of the development takes one as a parameter:

    sha256          crypto_hash_sha256
    seedKeypair     crypto_sign_seed_keypair
    signDetached    crypto_sign_detached
    verifyDetached  crypto_sign_verify_detached

Nothing is assumed about them here.  Results that need a property of a
primitive name it as a hypothesis (`Crypto.SignatureLaw`, or the absence of a
collision among the strings that were actually hashed).
-/
import BBC.Lib.ByteCodec

namespace BBC

abbrev Byte := UInt8

abbrev Bytes := List Byte

/-- `std::array<Byte, n>`. -/
abbrev FixedBytes (n : Nat) := List.Vector Byte n

abbrev PublicKey := FixedBytes 32
abbrev PrivateKey := FixedBytes 64
abbrev Signature := FixedBytes 64
abbrev Hash256 := FixedBytes 32

/-! ## The order of `std::array`

`std::array` compares lexicographically, byte by byte.  The order is what
`std::map<Hash256, …>` sorts by, what breaks ties between equal fees, and what a
proof of work is measured against. -/

namespace FixedBytes

variable {n : Nat}

instance : Ord (FixedBytes n) := ⟨fun a b => compare a.toList b.toList⟩

theorem compare_def (a b : FixedBytes n) : compare a b = compare a.toList b.toList := rfl

instance : Std.TransOrd (FixedBytes n) where
  eq_swap {a b} := by
    rw [compare_def, compare_def]
    exact Std.OrientedOrd.eq_swap
  isLE_trans {a b c} hab hbc := by
    rw [compare_def] at *
    exact Std.TransOrd.isLE_trans hab hbc

instance : Std.LawfulEqOrd (FixedBytes n) where
  eq_of_compare {a b} h := by
    rw [compare_def] at h
    exact Subtype.ext (Std.LawfulEqOrd.eq_of_compare h)

/-- The same two facts for `Hash256`, as constants: they are arguments of every map. -/
instance transOrdHash256 : Std.TransOrd (FixedBytes 32) := inferInstance

instance lawfulEqOrdHash256 : Std.LawfulEqOrd (FixedBytes 32) := inferInstance

/-- `a < b` of two arrays of the same size. -/
def lessThan (a b : FixedBytes n) : Bool := compare a b == .lt

/-- The value-initialised array, `Hash256{}`. -/
def zero : FixedBytes n := List.Vector.replicate n 0

/-- `is_zero` of `block.cpp`. -/
def isZero (a : FixedBytes n) : Bool := a.toList.all (· == 0)

end FixedBytes

/-! ## libsodium -/

/-- The functions of libsodium that the program calls. -/
structure Crypto where
  sha256 : Bytes → Hash256
  seedKeypair : FixedBytes 32 → PublicKey × PrivateKey
  signDetached : Bytes → PrivateKey → Signature
  verifyDetached : Signature → Bytes → PublicKey → Bool

variable (κ : Crypto)

/-- `crypto::verify_signature`. -/
def Crypto.verifySignature (message : Bytes) (signature : Signature) (key : PublicKey) : Bool :=
  κ.verifyDetached signature message key

/-- A `KeyPair`, as its two factories build it: `generate` draws a seed,
`from_private_key` accepts only a private key that its own seed reproduces. -/
structure KeyPair where
  publicKey : PublicKey
  privateKey : PrivateKey
  seeded : ∃ seed, κ.seedKeypair seed = (publicKey, privateKey)

/-- `KeyPair::sign`. -/
def KeyPair.sign {κ : Crypto} (pair : KeyPair κ) (message : Bytes) : Signature :=
  κ.signDetached message pair.privateKey

/-- The documented contract of the signature scheme: a detached signature made
with the private key of a pair verifies under its public key. -/
def Crypto.SignatureLaw : Prop :=
  ∀ (pair : KeyPair κ) (message : Bytes),
    κ.verifySignature message (pair.sign message) pair.publicKey = true

/-! ## Addresses and wallets -/

/-- `wallet::Address`.  The printable `value_` is a function of the hash and is
read by no modelled function. -/
structure Address where
  hash : Hash256
  deriving DecidableEq

/-- `Address::from_public_key`. -/
def Address.fromPublicKey (key : PublicKey) : Address := ⟨κ.sha256 key.toList⟩

/-- `wallet::Wallet`: a key pair that signs. -/
structure Wallet where
  keyPair : KeyPair κ

namespace Wallet

variable {κ}

def publicKey (w : Wallet κ) : PublicKey := w.keyPair.publicKey

def sign (w : Wallet κ) (message : Bytes) : Signature := w.keyPair.sign message

def address (w : Wallet κ) : Address := Address.fromPublicKey κ w.publicKey

end Wallet

end BBC
