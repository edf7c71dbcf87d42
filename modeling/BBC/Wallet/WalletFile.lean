/-
# `BBC.Wallet.WalletFile` — a wallet under a password

`src/wallet/wallet_file.cpp`, with `KeyPair::from_private_key` of `src/crypto/keys.cpp`.
A wallet file has 176 bytes:

    0    4   magic "BBCW"            24   16   salt
    4    1   version                 40   24   nonce
    5    3   algorithms, reserved    64   32   public key
    8   16   limits of the hash      96   80   the private key, encrypted

The key of the encryption is a hash of the password and the salt, and the first 96 bytes
are authenticated with it.  Of what libsodium does, a load relies on this only: what has
been encrypted decrypts, and what decrypts has been encrypted (`Vault.Law`).  So the files
that load are exactly those that a save of the same wallet under the same password writes
for some salt and nonce (`loads_iff_sealed`).
-/
import BBC.Crypto.Reference
import BBC.Storage.SavedFile

namespace BBC

open ByteCodec NewFiles

variable {κ : Crypto}

/-! ## libsodium -/

/-- The functions of libsodium that lock a private key. -/
structure Vault where
  /-- `crypto_pwhash`: the password, the salt and the two limits. -/
  pwhash : Bytes → FixedBytes 16 → UInt64 → UInt64 → FixedBytes 32
  /-- `crypto_aead_xchacha20poly1305_ietf_encrypt`: the message, what is authenticated with
  it, the nonce and the key. -/
  encrypt : Bytes → Bytes → FixedBytes 24 → FixedBytes 32 → Bytes
  decrypt : Bytes → Bytes → FixedBytes 24 → FixedBytes 32 → Option Bytes

/-- A ciphertext is sixteen bytes longer than the message, and it decrypts to a message if
and only if it is the encryption of it. -/
structure Vault.Law (vault : Vault) : Prop where
  length : ∀ message header nonce key,
    (vault.encrypt message header nonce key).length = message.length + 16
  decrypt : ∀ ciphertext header nonce key message,
    vault.decrypt ciphertext header nonce key = some message ↔
      ciphertext = vault.encrypt message header nonce key

/-- A private key begins with the seed of its pair. -/
def Crypto.SeedLaw (κ : Crypto) : Prop :=
  ∀ seed : FixedBytes 32, (κ.seedKeypair seed).2.toList.take 32 = seed.toList

/-! ## A wallet from its private key -/

/-- The first half of a private key. -/
def PrivateKey.seed (key : PrivateKey) : FixedBytes 32 :=
  ⟨key.toList.take 32, by rw [List.length_take, key.toList_length]; rfl⟩

/-- `KeyPair::from_private_key`. -/
def KeyPair.fromPrivateKey (κ : Crypto) (privateKey : Bytes) : Option (KeyPair κ) :=
  if hsize : privateKey.length = 64 then
    let copy : PrivateKey := ⟨privateKey, hsize⟩
    if hcanonical : (κ.seedKeypair (PrivateKey.seed copy)).2 = copy then
      some ⟨(κ.seedKeypair (PrivateKey.seed copy)).1, copy, PrivateKey.seed copy,
        Prod.ext rfl hcanonical⟩
    else none
  else none

/-- `Wallet::restore_from_private_key`. -/
def Wallet.restoreFromPrivateKey (κ : Crypto) (privateKey : Bytes) : Option (Wallet κ) :=
  (KeyPair.fromPrivateKey κ privateKey).map Wallet.mk

theorem KeyPair.fromPrivateKey_eq_some {privateKey : Bytes} {pair : KeyPair κ}
    (h : KeyPair.fromPrivateKey κ privateKey = some pair) :
    pair.privateKey.toList = privateKey := by
  rw [fromPrivateKey] at h
  split at h
  · dsimp only at h
    split at h
    · cases h
      rfl
    · cases h
  · cases h

theorem KeyPair.fromPrivateKey_privateKey (hseed : κ.SeedLaw) (pair : KeyPair κ) :
    KeyPair.fromPrivateKey κ pair.privateKey.toList = some pair := by
  obtain ⟨publicKey, privateKey, seed, hseeded⟩ := pair
  have hprivate : (κ.seedKeypair seed).2 = privateKey := congrArg Prod.snd hseeded
  have hown : PrivateKey.seed privateKey = seed := by
    refine Subtype.ext ?_
    show privateKey.toList.take 32 = seed.toList
    rw [← hprivate]
    exact hseed seed
  have hsize : privateKey.toList.length = 64 := privateKey.toList_length
  have hcopy : (⟨privateKey.toList, hsize⟩ : PrivateKey) = privateKey := Subtype.ext rfl
  rw [fromPrivateKey, dif_pos hsize]
  simp only [hcopy, hown, hseeded, dif_pos]

theorem Wallet.restoreFromPrivateKey_eq_some {privateKey : Bytes} {w : Wallet κ}
    (h : Wallet.restoreFromPrivateKey κ privateKey = some w) :
    w.keyPair.privateKey.toList = privateKey := by
  obtain ⟨pair, hpair, rfl⟩ := Option.map_eq_some_iff.mp h
  exact KeyPair.fromPrivateKey_eq_some hpair

theorem Wallet.restoreFromPrivateKey_privateKey (hseed : κ.SeedLaw) (w : Wallet κ) :
    Wallet.restoreFromPrivateKey κ w.keyPair.privateKey.toList = some w :=
  Option.map_eq_some_iff.mpr ⟨_, KeyPair.fromPrivateKey_privateKey hseed w.keyPair, rfl⟩

/-! ## The file -/

/-- `WalletFileError`. -/
inductive WalletFileError where
  | emptyPassword
  | fileAlreadyExists
  | ioError
  | invalidFormat
  | unsupportedVersion
  | keyDerivationFailed
  | authenticationFailed
  deriving DecidableEq, Repr

def walletMagic : Bytes := [66, 66, 67, 87]
def walletFormatVersion : Byte := 1
def argon2idAlgorithm : Byte := 1
def xchacha20Poly1305Algorithm : Byte := 1
def reservedByte : Byte := 0
def argon2idOperationsLimit : UInt64 := 2
def argon2idMemoryLimit : UInt64 := 64 * 1024 * 1024
def authenticatedHeaderSize : Nat := 4 + 4 + 2 * 8 + 16 + 24 + 32
def encryptedPrivateKeySize : Nat := 64 + 16
def walletFileSize : Nat := authenticatedHeaderSize + encryptedPrivateKeySize

/-- `derive_encryption_key`; `ok` is false when libsodium gets no memory. -/
def deriveEncryptionKey (vault : Vault) (ok : Bool) (password : Bytes) (salt : FixedBytes 16)
    (operationsLimit memoryLimit : UInt64) : Option (FixedBytes 32) :=
  if ok then some (vault.pwhash password salt operationsLimit memoryLimit) else none

def authenticatedHeader (salt : FixedBytes 16) (nonce : FixedBytes 24) (key : PublicKey) : Bytes :=
  walletMagic ++ ([walletFormatVersion, argon2idAlgorithm, xchacha20Poly1305Algorithm, reservedByte]
    ++ (encodeU64Le argon2idOperationsLimit ++ (encodeU64Le argon2idMemoryLimit
      ++ (salt.toList ++ (nonce.toList ++ key.toList)))))

/-- What is written for a wallet. -/
def Wallet.sealed (vault : Vault) (w : Wallet κ) (password : Bytes) (salt : FixedBytes 16)
    (nonce : FixedBytes 24) : Bytes :=
  let header := authenticatedHeader salt nonce w.publicKey
  header ++ vault.encrypt w.keyPair.privateKey.toList header nonce
    (vault.pwhash password salt argon2idOperationsLimit argon2idMemoryLimit)

/-- What the outside world does to one `Wallet::save`. -/
structure WalletSaveIo where
  salt : FixedBytes 16
  nonce : FixedBytes 24
  deriveOk : Bool := true
  file : CreateIo := {}

/-- `Wallet::save`: the file, before and after. -/
def Wallet.save (vault : Vault) (w : Wallet κ) (password : Bytes) (io : WalletSaveIo)
    (file : Option Bytes) : Option Bytes × Except WalletFileError Unit :=
  if password = [] then (file, .error .emptyPassword)
  else if ¬ io.file.existsOk then (file, .error .ioError)
  else if file.isSome then (file, .error .fileAlreadyExists)
  else
    match deriveEncryptionKey vault io.deriveOk password io.salt argon2idOperationsLimit
        argon2idMemoryLimit with
    | none => (file, .error .keyDerivationFailed)
    | some key =>
        let header := authenticatedHeader io.salt io.nonce w.publicKey
        let ciphertext := vault.encrypt w.keyPair.privateKey.toList header io.nonce key
        if ciphertext.length ≠ encryptedPrivateKeySize then (file, .error .ioError)
        else if ¬ io.file.openOk then (none, .error .ioError)
        else
          match io.file.shortWrite with
          | some n =>
              (if io.file.removeOk then none else some ((header ++ ciphertext).take n),
                .error .ioError)
          | none => (some (header ++ ciphertext), .ok ())

/-- What the outside world does to one `load_wallet`. -/
structure WalletLoadIo where
  sizeOk : Bool := true
  readOk : Bool := true
  deriveOk : Bool := true

/-- `load_wallet`. -/
def loadWallet (κ : Crypto) (vault : Vault) (password : Bytes) (io : WalletLoadIo)
    (file : Option Bytes) : Except WalletFileError (Wallet κ) :=
  if password = [] then .error .emptyPassword
  else
    match file with
    | none => .error .ioError
    | some encoded =>
        if ¬ io.sizeOk then .error .ioError
        else if encoded.length ≠ walletFileSize then .error .invalidFormat
        else if ¬ io.readOk then .error .ioError
        else if encoded.take 4 ≠ walletMagic then .error .invalidFormat
        else if encoded.getD 4 0 ≠ walletFormatVersion then .error .unsupportedVersion
        else if encoded.getD 5 0 ≠ argon2idAlgorithm ∨ encoded.getD 6 0 ≠ xchacha20Poly1305Algorithm
            ∨ encoded.getD 7 0 ≠ reservedByte then .error .invalidFormat
        else if readU64Le encoded 8 ≠ argon2idOperationsLimit
            ∨ readU64Le encoded 16 ≠ argon2idMemoryLimit then .error .invalidFormat
        else
          match deriveEncryptionKey vault io.deriveOk password (readArray 16 encoded 24)
              (readU64Le encoded 8) (readU64Le encoded 16) with
          | none => .error .keyDerivationFailed
          | some key =>
              match vault.decrypt (encoded.drop authenticatedHeaderSize)
                  (encoded.take authenticatedHeaderSize) (readArray 24 encoded 40) key with
              | none => .error .authenticationFailed
              | some privateKey =>
                  if privateKey.length ≠ 64 then .error .invalidFormat
                  else
                    match Wallet.restoreFromPrivateKey κ privateKey with
                    | none => .error .authenticationFailed
                    | some w =>
                        if w.publicKey ≠ readArray 32 encoded 64 then .error .authenticationFailed
                        else .ok w

/-! ## The first 96 bytes -/

/-- What `load_wallet` reads in a file that it takes. -/
structure WalletHeader (encoded : Bytes) (salt : FixedBytes 16) (nonce : FixedBytes 24)
    (key : PublicKey) : Prop where
  magic : encoded.take 4 = walletMagic
  version : encoded.getD 4 0 = walletFormatVersion
  argon2id : encoded.getD 5 0 = argon2idAlgorithm
  xchacha20Poly1305 : encoded.getD 6 0 = xchacha20Poly1305Algorithm
  reserved : encoded.getD 7 0 = reservedByte
  operationsLimit : readU64Le encoded 8 = argon2idOperationsLimit
  memoryLimit : readU64Le encoded 16 = argon2idMemoryLimit
  salt : readArray 16 encoded 24 = salt
  nonce : readArray 24 encoded 40 = nonce
  publicKey : readArray 32 encoded 64 = key

section header
variable {encoded : Bytes} {salt : FixedBytes 16} {nonce : FixedBytes 24} {key : PublicKey}

theorem length_authenticatedHeader :
    (authenticatedHeader salt nonce key).length = authenticatedHeaderSize := by
  simp only [authenticatedHeader, List.length_append, length_encodeU64Le, length_toList]
  rfl

/-- A header reads as what it was made of. -/
theorem walletHeader_append (ciphertext : Bytes) :
    WalletHeader (authenticatedHeader salt nonce key ++ ciphertext) salt nonce key := by
  have hassoc : authenticatedHeader salt nonce key ++ ciphertext
      = walletMagic ++ ([walletFormatVersion, argon2idAlgorithm, xchacha20Poly1305Algorithm,
          reservedByte] ++ (encodeU64Le argon2idOperationsLimit ++ (encodeU64Le argon2idMemoryLimit
            ++ (salt.toList ++ (nonce.toList ++ (key.toList ++ ciphertext)))))) := by
    simp only [authenticatedHeader, List.append_assoc]
  rw [hassoc]
  have h4 := drop_of_drop 4 (List.drop_zero (l := walletMagic ++ ([walletFormatVersion,
    argon2idAlgorithm, xchacha20Poly1305Algorithm, reservedByte] ++ (encodeU64Le
      argon2idOperationsLimit ++ (encodeU64Le argon2idMemoryLimit ++ (salt.toList ++ (nonce.toList
        ++ (key.toList ++ ciphertext)))))))) rfl
  have h8 := drop_of_drop 8 h4 rfl
  have h16 := drop_of_drop 16 h8 (by simp)
  have h24 := drop_of_drop 24 h16 (by simp)
  have h40 := drop_of_drop 40 h24 (by simp)
  have h64 := drop_of_drop 64 h40 (by simp)
  exact ⟨rfl, rfl, rfl, rfl, rfl, readU64Le_of_drop h8, readU64Le_of_drop h16,
    readArray_of_drop h24, readArray_of_drop h40, readArray_of_drop h64⟩

/-- What reads as a header is one. -/
theorem WalletHeader.take_eq (h : WalletHeader encoded salt nonce key)
    (hsize : encoded.length = walletFileSize) :
    encoded.take authenticatedHeaderSize = authenticatedHeader salt nonce key := by
  have hlength : encoded.length = 176 := hsize
  have hbyte : ∀ off : Nat, off < 8 → subspan encoded off 1 = [encoded.getD off 0] :=
    fun off hoff => subspan_one 0 (by omega)
  have hwhole : encoded = authenticatedHeader salt nonce key ++ encoded.drop 96 := by
    have h0 := subspan_append_drop encoded 0 4
    have h4 := subspan_append_drop encoded 4 1
    have h5 := subspan_append_drop encoded 5 1
    have h6 := subspan_append_drop encoded 6 1
    have h7 := subspan_append_drop encoded 7 1
    have h8 := subspan_append_drop encoded 8 8
    have h16 := subspan_append_drop encoded 16 8
    have h24 := subspan_append_drop encoded 24 16
    have h40 := subspan_append_drop encoded 40 24
    have h64 := subspan_append_drop encoded 64 32
    rw [← toList_readArray (by omega), h.publicKey] at h64
    rw [← toList_readArray (by omega), h.nonce] at h40
    rw [← toList_readArray (by omega), h.salt] at h24
    rw [← encodeU64Le_readU64Le (by omega), h.memoryLimit] at h16
    rw [← encodeU64Le_readU64Le (by omega), h.operationsLimit] at h8
    rw [hbyte 7 (by decide), h.reserved] at h7
    rw [hbyte 6 (by decide), h.xchacha20Poly1305] at h6
    rw [hbyte 5 (by decide), h.argon2id] at h5
    rw [hbyte 4 (by decide), h.version] at h4
    have hmagic : subspan encoded 0 4 = walletMagic := h.magic
    rw [hmagic, List.drop_zero] at h0
    simp only [authenticatedHeader, List.append_assoc]
    conv_lhs => rw [← h0, ← h4, ← h5, ← h6, ← h7, ← h8, ← h16, ← h24, ← h40, ← h64]
    rfl
  rw [hwhole, List.take_left' length_authenticatedHeader]

end header

/-! ## What loads -/

section loads
variable {vault : Vault} {password : Bytes} {w : Wallet κ}

/-- A check that has been passed. -/
theorem passed_check {ε α : Type} {p : Prop} [Decidable p] {e : ε} {rest : Except ε α} {value : α}
    (h : (if p then .error e else rest) = .ok value) : ¬ p ∧ rest = .ok value := by
  by_cases hp : p
  · rw [if_pos hp] at h
    cases h
  · rw [if_neg hp] at h
    exact ⟨hp, h⟩

/-- A load that succeeds has passed every check. -/
theorem loadWallet_ok {io : WalletLoadIo} {file : Option Bytes}
    (h : loadWallet κ vault password io file = .ok w) :
    password ≠ [] ∧ ∃ encoded salt nonce privateKey, file = some encoded ∧
      encoded.length = walletFileSize ∧ WalletHeader encoded salt nonce w.publicKey ∧
      vault.decrypt (encoded.drop authenticatedHeaderSize) (encoded.take authenticatedHeaderSize)
        nonce (vault.pwhash password salt argon2idOperationsLimit argon2idMemoryLimit)
        = some privateKey ∧
      Wallet.restoreFromPrivateKey κ privateKey = some w := by
  unfold loadWallet at h
  obtain ⟨hpassword, h⟩ := passed_check h
  cases file with
  | none => cases h
  | some encoded =>
      dsimp only at h
      obtain ⟨-, h⟩ := passed_check h
      obtain ⟨hsize, h⟩ := passed_check h
      obtain ⟨-, h⟩ := passed_check h
      obtain ⟨hmagic, h⟩ := passed_check h
      obtain ⟨hversion, h⟩ := passed_check h
      obtain ⟨halgorithms, h⟩ := passed_check h
      obtain ⟨hlimits, h⟩ := passed_check h
      obtain ⟨h5, h67⟩ := not_or.mp halgorithms
      obtain ⟨h6, h7⟩ := not_or.mp h67
      obtain ⟨hoperations, hmemory⟩ := not_or.mp hlimits
      rw [not_not] at hsize hmagic hversion h5 h6 h7 hoperations hmemory
      rw [deriveEncryptionKey, hoperations, hmemory] at h
      cases hderive : io.deriveOk with
      | false =>
          rw [hderive] at h
          cases h
      | true =>
          rw [hderive, if_pos rfl] at h
          dsimp only at h
          split at h
          · cases h
          rename_i privateKey hdecrypted
          obtain ⟨-, h⟩ := passed_check h
          cases hrestored : Wallet.restoreFromPrivateKey κ privateKey with
          | none =>
              rw [hrestored] at h
              cases h
          | some restored =>
              rw [hrestored] at h
              obtain ⟨hpublic, h⟩ := passed_check h
              cases h
              exact ⟨hpassword, encoded, _, _, privateKey, rfl, hsize,
                ⟨hmagic, hversion, h5, h6, h7, hoperations, hmemory, rfl, rfl,
                  (not_not.mp hpublic).symm⟩, hdecrypted, hrestored⟩

theorem length_sealed (hlaw : vault.Law) (w : Wallet κ) (password : Bytes) (salt : FixedBytes 16)
    (nonce : FixedBytes 24) : (w.sealed vault password salt nonce).length = walletFileSize := by
  have hprivate : w.keyPair.privateKey.toList.length = 64 := w.keyPair.privateKey.toList_length
  simp only [Wallet.sealed, List.length_append, length_authenticatedHeader, hlaw.length, hprivate]
  rfl

/-- What is left of a load when the checks of the header have passed. -/
theorem loadWallet_of_header (hpassword : password ≠ []) {encoded : Bytes}
    (hsize : encoded.length = walletFileSize) {salt : FixedBytes 16} {nonce : FixedBytes 24}
    {key : PublicKey} (h : WalletHeader encoded salt nonce key) :
    loadWallet κ vault password {} (some encoded)
      = match vault.decrypt (encoded.drop authenticatedHeaderSize)
            (encoded.take authenticatedHeaderSize) nonce
            (vault.pwhash password salt argon2idOperationsLimit argon2idMemoryLimit) with
        | none => .error .authenticationFailed
        | some privateKey =>
            if privateKey.length ≠ 64 then .error .invalidFormat
            else
              match Wallet.restoreFromPrivateKey κ privateKey with
              | none => .error .authenticationFailed
              | some w => if w.publicKey ≠ key then .error .authenticationFailed else .ok w := by
  have halgorithms : ¬ (encoded.getD 5 0 ≠ argon2idAlgorithm
      ∨ encoded.getD 6 0 ≠ xchacha20Poly1305Algorithm ∨ encoded.getD 7 0 ≠ reservedByte) := by
    simp only [h.argon2id, h.xchacha20Poly1305, h.reserved, ne_eq, not_true_eq_false, or_self,
      not_false_eq_true]
  have hlimits : ¬ (readU64Le encoded 8 ≠ argon2idOperationsLimit
      ∨ readU64Le encoded 16 ≠ argon2idMemoryLimit) := by
    simp only [h.operationsLimit, h.memoryLimit, ne_eq, not_true_eq_false, or_self,
      not_false_eq_true]
  unfold loadWallet
  rw [if_neg hpassword]
  dsimp only
  rw [if_neg (not_not.mpr rfl), if_neg (not_not.mpr hsize), if_neg (not_not.mpr rfl),
    if_neg (not_not.mpr h.magic), if_neg (not_not.mpr h.version), if_neg halgorithms,
    if_neg hlimits, deriveEncryptionKey, if_pos rfl, h.operationsLimit, h.memoryLimit, h.salt,
    h.nonce, h.publicKey]

/-- What a save has written loads under its password. -/
theorem loadWallet_sealed (hlaw : vault.Law) (hseed : κ.SeedLaw) (hpassword : password ≠ [])
    (w : Wallet κ) (salt : FixedBytes 16) (nonce : FixedBytes 24) :
    loadWallet κ vault password {} (some (w.sealed vault password salt nonce)) = .ok w := by
  have hsize := length_sealed hlaw w password salt nonce
  have hheader : WalletHeader (w.sealed vault password salt nonce) salt nonce w.publicKey :=
    walletHeader_append _
  have hdecrypted : vault.decrypt
      ((w.sealed vault password salt nonce).drop authenticatedHeaderSize)
      ((w.sealed vault password salt nonce).take authenticatedHeaderSize) nonce
      (vault.pwhash password salt argon2idOperationsLimit argon2idMemoryLimit)
      = some w.keyPair.privateKey.toList := by
    rw [hheader.take_eq hsize]
    exact (hlaw.decrypt _ _ _ _ _).mpr (List.drop_left' length_authenticatedHeader)
  rw [loadWallet_of_header hpassword hsize hheader, hdecrypted]
  dsimp only
  rw [if_neg (not_not.mpr w.keyPair.privateKey.toList_length),
    Wallet.restoreFromPrivateKey_privateKey hseed]
  exact if_neg (not_not.mpr rfl)

/-- Under another password it fails to authenticate, or loads as a wallet of the same public
key. -/
theorem loadWallet_sealed_other (hlaw : vault.Law) (w : Wallet κ) (salt : FixedBytes 16)
    (nonce : FixedBytes 24) {other : Bytes} (hother : other ≠ []) :
    loadWallet κ vault other {} (some (w.sealed vault password salt nonce))
        = .error .authenticationFailed ∨
      ∃ w', loadWallet κ vault other {} (some (w.sealed vault password salt nonce)) = .ok w' ∧
        w'.publicKey = w.publicKey := by
  have hsize := length_sealed hlaw w password salt nonce
  have hheader : WalletHeader (w.sealed vault password salt nonce) salt nonce w.publicKey :=
    walletHeader_append _
  rw [loadWallet_of_header hother hsize hheader]
  split
  · exact Or.inl rfl
  rename_i privateKey hdecrypted
  have hlong := congrArg List.length ((hlaw.decrypt _ _ _ _ _).mp hdecrypted)
  rw [List.length_drop, hsize, hlaw.length] at hlong
  have hprivate : privateKey.length = 64 := by
    have hsizes : walletFileSize - authenticatedHeaderSize = 64 + 16 := rfl
    omega
  rw [if_neg (not_not.mpr hprivate)]
  split
  · exact Or.inl rfl
  split
  · exact Or.inl rfl
  rename_i restored _ hpublic
  exact Or.inr ⟨restored, rfl, not_not.mp hpublic⟩

/-- Whatever the outside world does, a file that loads is the one that a save writes. -/
theorem sealed_of_loadWallet (hlaw : vault.Law) {io : WalletLoadIo} {file : Option Bytes}
    (h : loadWallet κ vault password io file = .ok w) :
    password ≠ [] ∧ ∃ salt nonce, file = some (w.sealed vault password salt nonce) := by
  obtain ⟨hpassword, encoded, salt, nonce, privateKey, rfl, hsize, hheader,
    hdecrypted, hrestored⟩ :=
    loadWallet_ok h
  have hprivate := Wallet.restoreFromPrivateKey_eq_some hrestored
  have htake := hheader.take_eq hsize
  have hencrypted := (hlaw.decrypt _ _ _ _ _).mp hdecrypted
  refine ⟨hpassword, salt, nonce, ?_⟩
  rw [Wallet.sealed, hprivate, ← htake, ← hencrypted, List.take_append_drop]

end loads

/-- The files that load under a password as a wallet are those that a save of this wallet
under this password writes. -/
theorem loads_iff_sealed (κ : Crypto) (hseed : κ.SeedLaw) (vault : Vault) (hlaw : vault.Law)
    (password : Bytes) (file : Option Bytes) (w : Wallet κ) :
    (loadWallet κ vault password {} file = .ok w ↔
      password ≠ [] ∧ ∃ salt nonce, file = some (w.sealed vault password salt nonce)) ∧
    ∀ io, loadWallet κ vault password io file = .ok w →
      loadWallet κ vault password {} file = .ok w := by
  have hsealed : password ≠ [] ∧ (∃ salt nonce, file = some (w.sealed vault password salt nonce)) →
      loadWallet κ vault password {} file = .ok w := by
    rintro ⟨hpassword, salt, nonce, rfl⟩
    exact loadWallet_sealed hlaw hseed hpassword w salt nonce
  exact ⟨⟨sealed_of_loadWallet hlaw, hsealed⟩, fun io h => hsealed (sealed_of_loadWallet hlaw h)⟩

/-! ## Saves -/

/-- A save, as a creation of a file.  One that gets no key does not look for the file's
place. -/
def Wallet.call {ρ : Type} (vault : Vault) (w : Wallet κ) (password : Bytes) (path : ρ)
    (io : WalletSaveIo) : Call ρ :=
  ⟨path, w.sealed vault password io.salt io.nonce,
    if password ≠ [] ∧ io.deriveOk = true then io.file else { existsOk := false }⟩

theorem Wallet.save_eq_create {ρ : Type} {vault : Vault} (hlaw : vault.Law) (w : Wallet κ)
    (password : Bytes) (path : ρ) (io : WalletSaveIo) (file : Option Bytes) :
    let call := w.call vault password path io
    (w.save vault password io file).1 = (create call.io file call.encoded).1 ∧
      ((w.save vault password io file).2 = .ok () ↔
        (create call.io file call.encoded).2 = .done) := by
  intro call
  have hprivate : w.keyPair.privateKey.toList.length = 64 := w.keyPair.privateKey.toList_length
  by_cases hpassword : password = []
  · have hcall : call.io = { existsOk := false } := if_neg fun hboth => hboth.1 hpassword
    rw [hcall, Wallet.save, if_pos hpassword]
    exact ⟨rfl, by simp [create]⟩
  cases hderive : io.deriveOk with
  | false =>
      have hcall : call.io = { existsOk := false } :=
        if_neg fun hboth => Bool.false_ne_true (hderive.symm.trans hboth.2)
      rw [hcall, Wallet.save, if_neg hpassword, deriveEncryptionKey, hderive]
      cases io.file.existsOk <;> cases file <;> simp [create]
  | true =>
      have hcall : call.io = io.file := if_pos ⟨hpassword, hderive⟩
      have hsize : ¬ (vault.encrypt w.keyPair.privateKey.toList
          (authenticatedHeader io.salt io.nonce w.publicKey) io.nonce (vault.pwhash password io.salt
            argon2idOperationsLimit argon2idMemoryLimit)).length ≠ encryptedPrivateKeySize := by
        rw [hlaw.length, hprivate]
        exact not_not.mpr rfl
      rw [hcall, Wallet.save, if_neg hpassword, deriveEncryptionKey, if_pos hderive]
      dsimp only
      rw [if_neg hsize, create]
      split
      · exact ⟨rfl, by simp⟩
      split
      · exact ⟨rfl, by simp⟩
      rename_i hnone
      split
      · exact ⟨rfl, by simp⟩
      cases io.file.shortWrite with
      | some n => exact ⟨rfl, by simp⟩
      | none => exact ⟨rfl, by simp⟩

/-- However many files are saved afterwards, none that exists is changed.  A save of a wallet
that succeeds has found no file, and what it leaves loads as the wallet under the password;
under another one it does not authenticate, or has the same public key.  A save that fails has
changed nothing, or where a short write could not be removed leaves a beginning of the file
that no password opens. -/
theorem wallet_file_final (κ : Crypto) (hseed : κ.SeedLaw) (vault : Vault) (hlaw : vault.Law)
    {ρ : Type} [DecidableEq ρ] (disk : Disk ρ) (path : ρ) (w : Wallet κ) (password : Bytes)
    (io : WalletSaveIo) (later : List (Call ρ)) :
    let saved := w.save vault password io (disk path)
    let now := Function.update disk path saved.1
    let after := Runs.run NewFiles.step now later
    (∀ name bytes, disk name = some bytes → after name = some bytes) ∧
    (saved.2 = .ok () → disk path = none ∧ loadWallet κ vault password {} (after path) = .ok w ∧
      ∀ other, other ≠ [] →
        loadWallet κ vault other {} (after path) = .error .authenticationFailed ∨
          ∃ w', loadWallet κ vault other {} (after path) = .ok w' ∧ w'.publicKey = w.publicKey) ∧
    (saved.2 ≠ .ok () → now = disk ∨
      ∃ n, io.file.shortWrite = some n ∧ io.file.removeOk = false ∧ disk path = none ∧
        after path = some ((w.sealed vault password io.salt io.nonce).take n) ∧
        (n < walletFileSize → ∀ other loadIo w',
          loadWallet κ vault other loadIo (after path) ≠ .ok w')) := by
  intro saved now after
  obtain ⟨hfile, hreport⟩ := w.save_eq_create hlaw password path io (disk path)
  have hnow : now = NewFiles.step disk (w.call vault password path io) :=
    congrArg (Function.update disk path) hfile
  refine ⟨?_, ?_, ?_⟩
  · intro name bytes hname
    have hkept := kept_run later (kept_step hname (w.call vault password path io))
    rw [← hnow] at hkept
    exact hkept
  · intro hok
    have hdone := hreport.mp hok
    have hwritten := written_run hdone later
    rw [← hnow] at hwritten
    have hafter : after path = some (w.sealed vault password io.salt io.nonce) := hwritten
    have hpassword : password ≠ [] := by
      rintro rfl
      cases hok
    rw [hafter]
    exact ⟨(create_done hdone).1, loadWallet_sealed hlaw hseed hpassword w _ _,
      fun other hother => loadWallet_sealed_other hlaw w _ _ hother⟩
  · intro hfailed
    rcases cut_run (mt hreport.mpr hfailed) later with hsame |
      ⟨n, hwrite, hremove, hfresh, hpart⟩
    · exact Or.inl (hnow.trans hsame)
    · have hafter : after path = some ((w.sealed vault password io.salt io.nonce).take n) := by
        rw [← hnow] at hpart
        exact hpart
      have hio : io.file.shortWrite = some n ∧ io.file.removeOk = false := by
        rw [Wallet.call] at hwrite hremove
        split at hwrite
        · rename_i hready
          rw [if_pos hready] at hremove
          exact ⟨hwrite, hremove⟩
        · cases hwrite
      refine Or.inr ⟨n, hio.1, hio.2, hfresh, hafter, ?_⟩
      · intro hshort other loadIo w' hload
        obtain ⟨-, encoded, -, -, -, hencoded, hsize, -⟩ := loadWallet_ok hload
        rw [hafter] at hencoded
        cases hencoded
        rw [List.length_take, length_sealed hlaw] at hsize
        omega

/-! ## A vault that runs -/

namespace ReferenceVault

/-- The byte of the key stream at a place. -/
def stream (nonce : FixedBytes 24) (key : FixedBytes 32) (place : Nat) : Byte :=
  (sha256 (key.toList ++ nonce.toList ++ leBytes 8 (place / 32))).toList.getD (place % 32) 0

def mask (nonce : FixedBytes 24) (key : FixedBytes 32) (message : Bytes) : Bytes :=
  message.mapIdx fun place byte => byte ^^^ stream nonce key place

def tag (header : Bytes) (nonce : FixedBytes 24) (key : FixedBytes 32) (masked : Bytes) : Bytes :=
  let keyed := key.toList ++ nonce.toList ++ leBytes 8 header.length ++ header ++ masked
  (sha256 keyed).toList.take 16

theorem mask_mask (nonce : FixedBytes 24) (key : FixedBytes 32) (message : Bytes) :
    mask nonce key (mask nonce key message) = message := by
  refine List.ext_getElem (by simp [mask]) ?_
  intro place h₁ h₂
  simp only [mask, List.getElem_mapIdx]
  rw [UInt8.xor_assoc, UInt8.xor_self, UInt8.xor_zero]

theorem length_mask (nonce : FixedBytes 24) (key : FixedBytes 32) (message : Bytes) :
    (mask nonce key message).length = message.length := by
  simp [mask]

theorem length_tag (header : Bytes) (nonce : FixedBytes 24) (key : FixedBytes 32) (masked : Bytes) :
    (tag header nonce key masked).length = 16 := by
  simp [tag]

end ReferenceVault

open ReferenceVault in
/-- A stream cipher and a tag, both made of SHA-256. -/
def referenceVault : Vault where
  pwhash password salt operationsLimit memoryLimit :=
    sha256 (salt.toList ++ encodeU64Le operationsLimit ++ encodeU64Le memoryLimit ++ password)
  encrypt message header nonce key :=
    mask nonce key message ++ tag header nonce key (mask nonce key message)
  decrypt ciphertext header nonce key :=
    let masked := ciphertext.take (ciphertext.length - 16)
    if ciphertext.drop (ciphertext.length - 16) = tag header nonce key masked then
      some (mask nonce key masked)
    else none

open ReferenceVault in
theorem referenceVault_law : referenceVault.Law where
  length message header nonce key := by
    simp [referenceVault, length_mask, length_tag]
  decrypt ciphertext header nonce key message := by
    simp only [referenceVault]
    constructor
    · intro h
      split at h
      · rename_i htag
        have hmessage := Option.some.inj h
        rw [← hmessage, mask_mask, ← htag, List.take_append_drop]
      · cases h
    · rintro rfl
      have hlength : (mask nonce key message
          ++ tag header nonce key (mask nonce key message)).length - 16
          = (mask nonce key message).length := by
        simp [length_tag]
      rw [hlength, List.take_left, List.drop_left, if_pos rfl, mask_mask]

theorem reference_seedLaw : reference.SeedLaw := by
  intro seed
  exact List.take_left' seed.toList_length

theorem loads_iff_sealed_first :
    (∃ w, loadWallet reference referenceVault [112] {}
      (some (SignedTransaction.firstWallet.sealed referenceVault [112] .zero .zero)) = .ok w) ∧
    ∀ w, loadWallet reference referenceVault [] {}
      (some (SignedTransaction.firstWallet.sealed referenceVault [112] .zero .zero)) ≠ .ok w := by
  refine ⟨⟨SignedTransaction.firstWallet, ?_⟩, ?_⟩
  · exact (loads_iff_sealed reference reference_seedLaw referenceVault referenceVault_law [112] _
      SignedTransaction.firstWallet).1.mpr ⟨by decide, _, _, rfl⟩
  · intro w h
    exact ((loads_iff_sealed reference reference_seedLaw referenceVault referenceVault_law [] _
      w).1.mp h).1 rfl

theorem wallet_file_final_first :
    loadWallet reference referenceVault [112] {}
        (Runs.run NewFiles.step
          (Function.update (fun _ : Nat => none) 0
            (SignedTransaction.firstWallet.save referenceVault [112]
              ⟨.zero, .zero, true, {}⟩ none).1)
          [⟨0, [1], {}⟩] 0) = .ok SignedTransaction.firstWallet ∧
      loadWallet reference referenceVault [112] {}
        (Runs.run NewFiles.step
          (Function.update (fun _ : Nat => none) 0
            (SignedTransaction.firstWallet.save referenceVault [112]
              ⟨.zero, .zero, true, { shortWrite := some 100, removeOk := false }⟩ none).1)
          [] 0) ≠ .ok SignedTransaction.firstWallet := by
  obtain ⟨-, hsaved, -⟩ := wallet_file_final reference reference_seedLaw referenceVault
    referenceVault_law (fun _ : Nat => none) 0 SignedTransaction.firstWallet [112]
    ⟨.zero, .zero, true, {}⟩ [⟨0, [1], {}⟩]
  obtain ⟨-, -, hcut⟩ := wallet_file_final reference reference_seedLaw referenceVault
    referenceVault_law (fun _ : Nat => none) 0 SignedTransaction.firstWallet [112]
    ⟨.zero, .zero, true, { shortWrite := some 100, removeOk := false }⟩ []
  constructor
  · refine (hsaved ?_).2.1
    exact (SignedTransaction.firstWallet.save_eq_create referenceVault_law [112] (0 : Nat)
      ⟨.zero, .zero, true, {}⟩ none).2.mpr rfl
  · have hfailed := mt (SignedTransaction.firstWallet.save_eq_create referenceVault_law [112]
      (0 : Nat) ⟨.zero, .zero, true, { shortWrite := some 100, removeOk := false }⟩ none).2.mp
      (fun hdone => by cases hdone)
    intro hload
    rcases hcut hfailed with hsame | ⟨n, hn, -, -, -, hrefused⟩
    · have hnone := congrFun hsame 0
      obtain ⟨-, encoded, -, -, -, hencoded, -⟩ := loadWallet_ok hload
      exact absurd (hencoded.symm.trans hnone) (by rintro ⟨⟩)
    · cases hn
      exact hrefused (by decide) _ _ _ hload

end BBC
