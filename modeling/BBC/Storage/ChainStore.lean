/-
# `BBC.Storage.ChainStore` — the block log on disk

`src/storage/chain_store.cpp`.  `blocks.dat` is a log of records, one per stored
block in arrival order:

    offset  size
         0     4  "BBRC"
         4     1  version
         5     3  zero
         8     4  payload size, little endian
        12     n  the serialized block
      12+n    32  SHA-256 of the payload

A `ChainStore` value stands for the object together with the file it names, so
`blocksFile` is a field.  Everything the operating system or SQLite may refuse is
an input (`AppendIo`, `OpenIo`): a write may stop short, a rebuild may fail.  The
rows of `chain.db` are written and never read back, so only the outcome of
`rebuild_database` is modelled.
-/
import BBC.Chain.ArrivalOrder

namespace BBC

open ByteCodec

/-- `storage::ChainStoreError`. -/
inductive ChainStoreError where
  | none
  | alreadyInitialized
  | notInitialized
  | ioError
  | invalidRecordHeader
  | invalidRecordSize
  | invalidRecordChecksum
  | invalidGenesisRecord
  | invalidBlockRecord
  | invalidChain
  | databaseError
  deriving DecidableEq, Repr

/-- `storage::ChainStoreAppendResult`. -/
structure ChainStoreAppendResult where
  storageError : ChainStoreError := .none
  chainResult : AppendResult := {}

/-- `ChainStoreAppendResult::has_value`. -/
def ChainStoreAppendResult.hasValue (r : ChainStoreAppendResult) : Bool :=
  r.storageError == .none && r.chainResult.hasValue

/-- `storage::ChainStore`, with the content of `blocks_path()`. -/
structure ChainStore where
  blocksFile : Bytes
  blockchain : Blockchain
  records : List (Nat × Nat)
  deriving DecidableEq

def recordMagic : Bytes := [0x42, 0x42, 0x52, 0x43]
def recordVersion : Byte := 1
def recordHeaderSize : Nat := 12
def recordChecksumSize : Nat := 32

/-- `encode_record`. -/
def encodeRecord (κ : Crypto) (block : Block) : Bytes :=
  let payload := block.serialize
  recordMagic ++ (recordVersion :: ([0, 0, 0] ++ (encodeU32Le (UInt32.ofNat payload.length)
    ++ (payload ++ (κ.sha256 payload).toList))))

/-- The largest `sqlite3_int64`. -/
def maxSqliteInt : Nat := 2 ^ 63 - 1

/-- What the outside world does to one `ChainStore::append`. -/
structure AppendIo where
  /-- `std::filesystem::file_size` succeeds. -/
  sizeOk : Bool := true
  /-- The stream opens. -/
  openOk : Bool := true
  /-- `some n`: the stream fails after `n` bytes have reached the file. -/
  shortWrite : Option Nat := none
  /-- The SQLite calls of `rebuild_database` succeed. -/
  databaseOk : Bool := true
  /-- The truncating `resize_file` succeeds. -/
  resizeOk : Bool := true

/-- What the outside world does to one `ChainStore::open`; reads are per record. -/
structure OpenIo where
  statusOk : Bool := true
  sizeOk : Bool := true
  openOk : Bool := true
  headerOk : Nat → Bool := fun _ => true
  payloadOk : Nat → Bool := fun _ => true
  databaseOk : Bool := true

/-- What `ChainStore::initialize` finds, and whether it can make the directory and
write the first record. -/
structure InitializeIo where
  existsOk : Bool := true
  existing : Bool := false
  writeOk : Bool := true

namespace ChainStore

/-- `rebuild_database`: SQLite may fail at any call, and the loop over the blocks
has two conditions of its own. -/
def rebuildDatabase (κ : Crypto) (s : ChainStore) (databaseOk : Bool) : ChainStoreError :=
  if ¬ databaseOk then .databaseError
  else if s.blockchain.storedBlocks.length ≠ s.records.length then .databaseError
  else if (s.blockchain.storedBlocks.zip s.records).all fun (block, location) =>
      (s.blockchain.cumulativeWork (block.id κ)).isSome
        && decide (location.1 ≤ maxSqliteInt) && decide (location.2 ≤ maxSqliteInt) then .none
  else .databaseError

/-! ## `append` -/

/-- `resize_file` back to the size before the write. -/
def truncate (io : AppendIo) (file : Bytes) (size : Nat) : Bytes :=
  if io.resizeOk then file.take size else file

/-- `ChainStore::append`. -/
def append (κ : Crypto) (s : ChainStore) (block : Block) (io : AppendIo) :
    ChainStore × ChainStoreAppendResult :=
  let appended := s.blockchain.append κ block
  if ¬ appended.2.hasValue then (s, { chainResult := appended.2 })
  else if ¬ io.sizeOk ∨ s.blocksFile.length > 2 ^ 64 - 1 then (s, { storageError := .ioError })
  else if ¬ io.openOk then (s, { storageError := .ioError })
  else
    let originalSize := s.blocksFile.length
    let record := encodeRecord κ block
    match io.shortWrite with
    | some n =>
        ({ s with blocksFile := truncate io (s.blocksFile ++ record.take n) originalSize },
          { storageError := .ioError })
    | none =>
        let next : ChainStore :=
          { blocksFile := s.blocksFile ++ record
            blockchain := appended.1
            records := s.records ++ [(originalSize, record.length)] }
        if next.rebuildDatabase κ io.databaseOk = .none then (next, { chainResult := appended.2 })
        else
          ({ s with blocksFile := truncate io next.blocksFile originalSize },
            { storageError :=
                if io.resizeOk then next.rebuildDatabase κ io.databaseOk else .ioError })

/-! ## `open` -/

/-- One record of the scan loop: the block and the size of its record. -/
def readRecord (κ : Crypto) (io : OpenIo) (index : Nat) (file : Bytes) (offset : Nat) :
    Except ChainStoreError (Block × Nat) :=
  if file.length - offset < recordHeaderSize + recordChecksumSize then .error .invalidRecordSize
  else if ¬ io.headerOk index then .error .ioError
  else if subspan file offset 4 ≠ recordMagic
      ∨ subspan file (offset + 4) 4 ≠ [recordVersion, 0, 0, 0] then .error .invalidRecordHeader
  else
    let payloadSize := (readU32Le file (offset + 8)).toNat
    let recordSize := recordHeaderSize + payloadSize + recordChecksumSize
    if payloadSize < blockHeaderSize ∨ payloadSize > maximumBlockSize then .error .invalidRecordSize
    else if recordSize > file.length - offset then .error .invalidRecordSize
    else if ¬ io.payloadOk index then .error .ioError
    else
      let payload := subspan file (offset + recordHeaderSize) payloadSize
      let checksum : Hash256 := readArray 32 file (offset + recordHeaderSize + payloadSize)
      if κ.sha256 payload ≠ checksum then .error .invalidRecordChecksum
      else
        match deserializeBlock κ payload with
        | .error _ => .error .invalidBlockRecord
        | .ok block => .ok (block, recordSize)

/-- What the scan does with a decoded block: the first must be Genesis, the
others are appended. -/
def replayRecord (κ : Crypto) (chainId : UInt32) (chain : Blockchain) (first : Bool)
    (block : Block) : Except ChainStoreError Blockchain :=
  if first then
    if ¬ block.isGenesis ∨ block.id κ ≠ (genesisBlock κ chainId).id κ then
      .error .invalidGenesisRecord
    else .ok chain
  else
    let appended := chain.append κ block
    if appended.2.hasValue then .ok appended.1 else .error .invalidChain

/-- The scan loop.  A record is never empty, so the file size is fuel enough. -/
def scan (κ : Crypto) (chainId : UInt32) (io : OpenIo) (file : Bytes) :
    Nat → Nat → Blockchain → List (Nat × Nat) →
      Except ChainStoreError (Blockchain × List (Nat × Nat))
  | 0, _, chain, records => .ok (chain, records)
  | fuel + 1, offset, chain, records =>
      if ¬ offset < file.length then .ok (chain, records)
      else
        match readRecord κ io records.length file offset with
        | .error e => .error e
        | .ok (block, recordSize) =>
            match replayRecord κ chainId chain records.isEmpty block with
            | .error e => .error e
            | .ok chain =>
                scan κ chainId io file fuel (offset + recordSize) chain
                  (records ++ [(offset, recordSize)])

/-- `ChainStore::open`; `none` is a path that is no regular file. -/
def openStore (κ : Crypto) (chainId : UInt32) (io : OpenIo) (blocksFile : Option Bytes) :
    Except ChainStoreError ChainStore :=
  match blocksFile with
  | none => .error (if io.statusOk then .notInitialized else .ioError)
  | some file =>
      if ¬ io.sizeOk ∨ file.length > 2 ^ 64 - 1 then .error .ioError
      else if ¬ io.openOk then .error .ioError
      else
        match scan κ chainId io file file.length 0 (Blockchain.new κ chainId) [] with
        | .error e => .error e
        | .ok (chain, records) =>
            if records.isEmpty then .error .invalidGenesisRecord
            else
              let store : ChainStore := ⟨file, chain, records⟩
              if store.rebuildDatabase κ io.databaseOk ≠ .none then
                .error (store.rebuildDatabase κ io.databaseOk)
              else .ok store

/-- `ChainStore::initialize`. -/
def initializeStore (κ : Crypto) (chainId : UInt32) (files : InitializeIo) (io : OpenIo) :
    Except ChainStoreError ChainStore :=
  if ¬ files.existsOk then .error .ioError
  else if files.existing then .error .alreadyInitialized
  else if ¬ files.writeOk then .error .ioError
  else openStore κ chainId io (some (encodeRecord κ (genesisBlock κ chainId)))

/-- A run of `append`s under the given outside behaviour, results ignored. -/
def appendAll (κ : Crypto) (s : ChainStore) (ops : List (Block × AppendIo)) : ChainStore :=
  ops.foldl (fun s op => (s.append κ op.1 op.2).1) s

end ChainStore

end BBC
