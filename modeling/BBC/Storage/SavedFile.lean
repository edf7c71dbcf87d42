/-
# `BBC.Storage.SavedFile` — blocks and transactions in files of their own

`src/chain/block_file.cpp` and `src/transaction/transaction_file.cpp`.  The two pairs of
functions differ in the encoding, in the sizes that are read at all and in their errors:

    save_block          load_block          165 … 161165 bytes
    save_transaction    load_transaction    161 bytes

A save refuses a file that exists, and removes what it could not write whole.  Neither
encoding has a proper beginning that decodes, so a file that was left behind in part is not
taken for a shorter value.
-/
import BBC.Chain.BlockCodec
import BBC.Lib.NewFiles

namespace BBC

open ByteCodec NewFiles

variable {κ : Crypto}

/-! ## The two pairs -/

/-- The errors of a file, and those of the decoder behind it. -/
inductive FileError (ε : Type) where
  | ioError
  | fileAlreadyExists
  | format (error : ε)
  deriving DecidableEq, Repr

/-- What the outside world does to one load. -/
structure LoadIo where
  sizeOk : Bool := true
  readOk : Bool := true

/-- What a save reports in the words of its caller. -/
def saveError {ε : Type} : Created → Option (FileError ε)
  | .done => none
  | .alreadyExists => some .fileAlreadyExists
  | .failed => some .ioError

/-- The common part of the loads: the size is checked before anything is read. -/
def loadSized {ε α : Type} (io : LoadIo) (sizes : Nat → Bool) (invalidSize : ε)
    (decode : Bytes → Except ε α) (file : Option Bytes) : Except (FileError ε) α :=
  match file with
  | none => .error .ioError
  | some encoded =>
      if ¬ io.sizeOk then .error .ioError
      else if ¬ sizes encoded.length then .error (.format invalidSize)
      else if ¬ io.readOk then .error .ioError
      else
        match decode encoded with
        | .error e => .error (.format e)
        | .ok value => .ok value

/-- `save_block`. -/
def saveBlock {ρ : Type} (block : Block) (path : ρ) (io : CreateIo) : Call ρ :=
  ⟨path, block.serialize, io⟩

/-- `load_block`. -/
def loadBlock (κ : Crypto) (io : LoadIo) (file : Option Bytes) :
    Except (FileError BlockError) Block :=
  loadSized io (fun size => blockHeaderSize ≤ size && size ≤ maximumBlockSize) .invalidSize
    (deserializeBlock κ) file

/-- `save_transaction`. -/
def saveTransaction {ρ : Type} (transaction : SignedTransaction) (path : ρ) (io : CreateIo) :
    Call ρ :=
  ⟨path, transaction.serialize, io⟩

/-- `load_transaction`. -/
def loadTransaction (κ : Crypto) (io : LoadIo) (file : Option Bytes) :
    Except (FileError TransactionError) SignedTransaction :=
  loadSized io (fun size => size == signedTransactionSize) .invalidSize
    (deserializeTransaction κ) file

/-! ## What loads -/

section
variable {ε α : Type} {sizes : Nat → Bool} {invalidSize : ε} {decode : Bytes → Except ε α}

theorem loadSized_ok {encoded : Bytes} (hsize : sizes encoded.length = true) {value : α}
    (hdecode : decode encoded = .ok value) :
    loadSized {} sizes invalidSize decode (some encoded) = .ok value := by
  rw [loadSized, if_neg (not_not.mpr rfl), if_neg (not_not.mpr hsize), if_neg (not_not.mpr rfl),
    hdecode]

/-- Whatever the outside world does, what is loaded has been decoded. -/
theorem decoded_of_loadSized {io : LoadIo} {file : Option Bytes} {value : α}
    (h : loadSized io sizes invalidSize decode file = .ok value) :
    ∃ encoded, file = some encoded ∧ decode encoded = .ok value := by
  cases file with
  | none => cases h
  | some encoded =>
      refine ⟨encoded, rfl, ?_⟩
      rw [loadSized] at h
      split at h
      · cases h
      split at h
      · cases h
      split at h
      · cases h
      cases hdecode : decode encoded with
      | error e =>
          rw [hdecode] at h
          cases h
      | ok decoded =>
          rw [hdecode] at h
          cases h
          rfl

end

theorem loadBlock_serialize {b : Block} (h : b.WellFormed κ) :
    loadBlock κ {} (some b.serialize) = .ok b := by
  refine loadSized_ok ?_ (Block.deserialize_serialize h)
  rw [Bool.and_eq_true, decide_eq_true_eq, decide_eq_true_eq, b.length_serialize]
  have hmax := b.length_serialize_le
  rw [b.length_serialize] at hmax
  exact ⟨Nat.le_add_right _ _, hmax⟩

theorem loadTransaction_serialize {t : SignedTransaction} (h : t.Verified κ) :
    loadTransaction κ {} (some t.serialize) = .ok t := by
  refine loadSized_ok ?_ (t.deserialize_serialize κ h)
  rw [t.length_serialize]
  exact beq_self_eq_true _

/-- What loads is saved as the bytes it was loaded from. -/
theorem loadBlock_ok {io : LoadIo} {file : Option Bytes} {b : Block}
    (h : loadBlock κ io file = .ok b) : file = some b.serialize ∧ b.WellFormed κ := by
  obtain ⟨encoded, rfl, hdecoded⟩ := decoded_of_loadSized h
  rw [Block.serialize_of_deserializeBlock hdecoded]
  exact ⟨rfl, Block.wellFormed_of_deserializeBlock hdecoded⟩

theorem loadTransaction_ok {io : LoadIo} {file : Option Bytes} {t : SignedTransaction}
    (h : loadTransaction κ io file = .ok t) : file = some t.serialize ∧ t.Verified κ := by
  obtain ⟨encoded, rfl, hdecoded⟩ := decoded_of_loadSized h
  obtain ⟨hserialize, hverified⟩ := SignedTransaction.serialize_of_deserialize κ hdecoded
  rw [hserialize]
  exact ⟨rfl, hverified⟩

/-! ## What does not load -/

theorem subspan_take {l : Bytes} {n off size : Nat} (h : off + size ≤ n) :
    subspan (l.take n) off size = subspan l off size := by
  rw [subspan, subspan, List.drop_take, List.take_take, Nat.min_eq_left (by omega)]

/-- A proper beginning of a block's encoding is no block's encoding: the count of
transactions in it says how long it has to be. -/
theorem Block.serialize_ne_take {b d : Block} {n : Nat} (h : n < b.serialize.length) :
    d.serialize ≠ b.serialize.take n := by
  intro heq
  have hlength := congrArg List.length heq
  rw [List.length_take, Nat.min_eq_left (Nat.le_of_lt h), d.length_serialize] at hlength
  have hcount : (readU32Le d.serialize 161).toNat = (readU32Le b.serialize 161).toNat := by
    rw [heq, readU32Le, readU32Le, readLe, readLe, subspan_take]
    simp only [blockHeaderSize] at hlength
    omega
  rw [d.readsAs_serialize.count, b.readsAs_serialize.count] at hcount
  rw [b.length_serialize, ← hcount] at h
  omega

/-- A file with a part of a block does not load. -/
theorem loadBlock_take {b : Block} {n : Nat} (h : n < b.serialize.length)
    (io : LoadIo) (d : Block) :
    loadBlock κ io (some (b.serialize.take n)) ≠ .ok d := by
  intro hload
  exact Block.serialize_ne_take h (Option.some.inj (loadBlock_ok hload).1).symm

theorem loadTransaction_take {t : SignedTransaction} {n : Nat} (h : n < t.serialize.length)
    (io : LoadIo) (u : SignedTransaction) :
    loadTransaction κ io (some (t.serialize.take n)) ≠ .ok u := by
  intro hload
  have hlength := congrArg List.length (Option.some.inj (loadTransaction_ok hload).1)
  rw [List.length_take, Nat.min_eq_left (Nat.le_of_lt h), u.length_serialize] at hlength
  rw [t.length_serialize] at h
  omega

/-! ## Runs of saves -/

/-- What is put into a file. -/
inductive Saved where
  | block (block : Block)
  | transaction (transaction : SignedTransaction)

namespace Saved

/-- Its bytes. -/
def encoded : Saved → Bytes
  | .block b => b.serialize
  | .transaction t => t.serialize

/-- The program has it. -/
def Obtainable (κ : Crypto) : Saved → Prop
  | .block b => b.Obtainable κ
  | .transaction t => t.Obtainable κ

/-- `save_block` or `save_transaction`. -/
def save {ρ : Type} (path : ρ) (io : CreateIo) : Saved → Call ρ
  | .block b => saveBlock b path io
  | .transaction t => saveTransaction t path io

/-- The file loads as what was saved. -/
def Loads (κ : Crypto) (file : Option Bytes) : Saved → Prop
  | .block b => loadBlock κ {} file = .ok b
  | .transaction t => loadTransaction κ {} file = .ok t

/-- The file loads neither as a block nor as a transaction of this kind. -/
def Refused (κ : Crypto) (file : Option Bytes) : Saved → Prop
  | .block _ => ∀ io d, loadBlock κ io file ≠ .ok d
  | .transaction _ => ∀ io u, loadTransaction κ io file ≠ .ok u

theorem loads_encoded (hlaw : κ.SignatureLaw) {value : Saved} (h : value.Obtainable κ) :
    value.Loads κ (some value.encoded) := by
  cases value with
  | block b => exact loadBlock_serialize (h.wellFormed hlaw)
  | transaction t => exact loadTransaction_serialize (h.verified κ hlaw)

theorem refused_take {value : Saved} {n : Nat} (h : n < value.encoded.length) :
    value.Refused κ (some (value.encoded.take n)) := by
  cases value with
  | block b => exact loadBlock_take h
  | transaction t => exact loadTransaction_take h

theorem encoded_save {ρ : Type} (path : ρ) (io : CreateIo) (value : Saved) :
    (value.save path io).encoded = value.encoded ∧ (value.save path io).path = path ∧
      (value.save path io).io = io := by
  cases value <;> exact ⟨rfl, rfl, rfl⟩

end Saved

/-- Saves of any values under any names, with failures anywhere, each by a process of its own
and one after the other.  A file that exists is never written again.  A save that succeeds is
read back as its value by every later load.  A save that does not leaves the disk as it was,
or where a short write could not be removed a new file that was cut short, and that file is
refused for as long as it is there. -/
theorem saved_files_final (κ : Crypto) (hlaw : κ.SignatureLaw) {ρ : Type} [DecidableEq ρ]
    (disk : Disk ρ) (path : ρ) (io : CreateIo) (value : Saved) (hvalue : value.Obtainable κ)
    (later : List (Call ρ)) :
    let call := value.save path io
    let now := NewFiles.step disk call
    let after := Runs.run NewFiles.step now later
    (∀ name bytes, disk name = some bytes → after name = some bytes) ∧
    (call.result disk = .done → disk path = none ∧ value.Loads κ (after path)) ∧
    (call.result disk ≠ .done → now = disk ∨
      ∃ n, io.shortWrite = some n ∧ io.removeOk = false ∧ disk path = none ∧
        after path = some (value.encoded.take n) ∧
        (n < value.encoded.length → value.Refused κ (after path))) := by
  intro call now after
  obtain ⟨hencoded, hpath, hio⟩ := value.encoded_save path io
  refine ⟨?_, ?_, ?_⟩
  · intro name bytes hname
    exact kept_run later (kept_step hname call)
  · intro hdone
    have hwritten := written_run hdone later
    rw [hpath, hencoded] at hwritten
    refine ⟨?_, ?_⟩
    · rw [← hpath]
      exact (create_done hdone).1
    · show value.Loads κ (Runs.run NewFiles.step now later path)
      rw [hwritten]
      exact Saved.loads_encoded hlaw hvalue
  · intro hfailed
    rcases cut_run hfailed later with hsame | ⟨n, hwrite, hremove, hfresh, hpart⟩
    · exact Or.inl hsame
    · rw [hio] at hwrite hremove
      rw [hpath] at hfresh
      rw [hpath, hencoded] at hpart
      have hafter : after path = some (value.encoded.take n) := hpart
      refine Or.inr ⟨n, hwrite, hremove, hfresh, hafter, ?_⟩
      intro hlt
      rw [hafter]
      exact Saved.refused_take hlt

/-- A wallet signs a payment; the first save of it is cut short after 100 bytes and the file
stays behind, and the second goes to another name. -/
theorem saved_files_final_payment :
    ∃ t, signTransaction reference SignedTransaction.firstWallet
        SignedTransaction.firstFields = .ok t ∧
      (∀ io u, loadTransaction reference io (some (t.serialize.take 100)) ≠ .ok u) ∧
      loadTransaction reference {} (some t.serialize) = .ok t := by
  have hvalid : validateFields SignedTransaction.firstFields = .none := by decide +kernel
  obtain ⟨t, ht⟩ : ∃ t, signTransaction reference SignedTransaction.firstWallet
      SignedTransaction.firstFields = .ok t := ⟨_, dif_pos hvalid⟩
  have hobtainable : (Saved.transaction t).Obtainable reference := .signed ht
  have hlength := t.length_serialize
  obtain ⟨-, -, hcut⟩ := saved_files_final reference reference_signatureLaw (fun _ : Nat => none) 0
    { shortWrite := some 100, removeOk := false } (.transaction t) hobtainable []
  obtain ⟨-, hwhole, -⟩ := saved_files_final reference reference_signatureLaw
    (fun _ : Nat => none) 1 {} (.transaction t) hobtainable []
  refine ⟨t, ht, ?_, ?_⟩
  · rcases hcut (fun h => by cases h) with hsame | ⟨n, hn, -, -, hfile, hrefused⟩
    · have hnow := congrFun hsame 0
      rw [NewFiles.step, Saved.save, saveTransaction, Function.update_self] at hnow
      cases hnow
    · cases hn
      rw [hfile] at hrefused
      exact hrefused (by rw [Saved.encoded, hlength]; decide)
  · exact (hwhole rfl).2

end BBC
