/-
# `BBC.Storage.BlockLog` — the file and the tree in memory stay one

`ChainStore.Inv` relates the three things a store keeps: the file is the records
of the stored blocks in arrival order, the offset table is where those records
stand, and the chain is what appending them one by one gives.  A failed `append`
truncates the file back and leaves everything; a successful one adds one record
to all three.

Opening a file that is such a log scans the records back (`scan_of_drop`) and
appends the same blocks in the same order, so it returns the store itself
(`Inv.reopen`).
-/
import BBC.Storage.ChainStore

namespace BBC

open ByteCodec Blockchain

variable {κ : Crypto} {chainId : UInt32}

/-! ## Appending what was accepted -/

theorem accepted_append (bs : List Block) :
    ∀ (c : Blockchain) (ds : List Block),
      accepted κ c (bs ++ ds) = accepted κ c bs ++ accepted κ (c.appendAll κ bs) ds := by
  induction bs with
  | nil => intro c ds; rfl
  | cons b bs ih =>
      intro c ds
      rw [List.cons_append, accepted, accepted, ih]
      split
      · rfl
      · rfl

/-- In a run that accepts everything, the first block is accepted and so is the
rest after it. -/
theorem accepted_cons_eq_self {c : Blockchain} {b : Block} {bs : List Block}
    (h : accepted κ c (b :: bs) = b :: bs) :
    (c.append κ b).2.hasValue = true ∧ accepted κ (c.append κ b).1 bs = bs := by
  rw [accepted] at h
  by_cases hv : (c.append κ b).2.hasValue = true
  · rw [if_pos hv] at h
    exact ⟨hv, (List.cons.inj h).2⟩
  · rw [if_neg hv] at h
    have hlen := (accepted_sublist (κ := κ) bs (c.append κ b).1).length_le
    rw [h, List.length_cons] at hlen
    omega

/-! ## Records -/

theorem length_encodeRecord (b : Block) :
    (encodeRecord κ b).length = recordHeaderSize + b.serialize.length + recordChecksumSize := by
  simp only [encodeRecord, recordMagic, recordHeaderSize, recordChecksumSize, List.length_append,
    List.length_cons, List.length_nil, length_encodeU32Le, List.Vector.toList_length]
  omega

theorem encodeRecord_ne_nil (b : Block) : encodeRecord κ b ≠ [] := by
  intro h
  have hlen := length_encodeRecord (κ := κ) b
  rw [h, List.length_nil] at hlen
  simp only [recordHeaderSize] at hlen
  omega

theorem blockHeaderSize_le_length (b : Block) : blockHeaderSize ≤ b.serialize.length := by
  rw [b.length_serialize]
  exact Nat.le_add_right _ _

/-- Where the records of consecutive blocks stand in a log. -/
def locations (κ : Crypto) : Nat → List Block → List (Nat × Nat)
  | _, [] => []
  | offset, b :: bs =>
      (offset, (encodeRecord κ b).length) :: locations κ (offset + (encodeRecord κ b).length) bs

theorem locations_append (bs : List Block) :
    ∀ (offset : Nat) (ds : List Block),
      locations κ offset (bs ++ ds) = locations κ offset bs
        ++ locations κ (offset + (bs.flatMap (encodeRecord κ)).length) ds := by
  induction bs with
  | nil => intro offset ds; rfl
  | cons b bs ih =>
      intro offset ds
      rw [List.cons_append, locations, ih, locations, List.cons_append, List.flatMap_cons,
        List.length_append, Nat.add_assoc]

/-- The record of the `i`-th block starts where the records before it end. -/
theorem getElem?_locations (bs : List Block) :
    ∀ (offset : Nat) {i : Nat} {b : Block}, bs[i]? = some b →
      (locations κ offset bs)[i]? = some (offset + ((bs.take i).flatMap (encodeRecord κ)).length,
        (encodeRecord κ b).length) := by
  induction bs with
  | nil => intro offset i b h; cases h
  | cons d bs ih =>
      intro offset i b h
      cases i with
      | zero =>
          cases h
          rfl
      | succ i =>
          rw [List.getElem?_cons_succ] at h
          rw [locations, List.getElem?_cons_succ, ih _ h, List.take_succ_cons, List.flatMap_cons,
            List.length_append, Nat.add_assoc]

theorem length_locations (bs : List Block) :
    ∀ offset, (locations κ offset bs).length = bs.length := by
  induction bs with
  | nil => intro offset; rfl
  | cons b bs ih =>
      intro offset
      rw [locations, List.length_cons, ih, List.length_cons]

namespace ChainStore

theorem readRecord_of_drop {io : OpenIo} {index offset : Nat} {file post : Bytes} {b : Block}
    (hheader : io.headerOk index = true) (hpayload : io.payloadOk index = true)
    (hb : b.WellFormed κ) (h : file.drop offset = encodeRecord κ b ++ post) :
    readRecord κ io index file offset = .ok (b, (encodeRecord κ b).length) := by
  have hlen := congrArg List.length h
  rw [List.length_drop, List.length_append, length_encodeRecord] at hlen
  have hmin := blockHeaderSize_le_length b
  have hmax := b.length_serialize_le
  have hmax' : b.serialize.length ≤ 161165 := hmax
  have hsize : (UInt32.ofNat b.serialize.length).toNat = b.serialize.length :=
    UInt32.toNat_ofNat_of_lt' (show b.serialize.length < 2 ^ 32 by omega)
  -- the layout, walked from the front
  have d0 : file.drop offset = recordMagic ++ ([recordVersion, 0, 0, 0] ++
      (encodeU32Le (UInt32.ofNat b.serialize.length) ++ (b.serialize ++
        ((κ.sha256 b.serialize).toList ++ post)))) := by
    rw [h]
    simp [encodeRecord]
  have d4 := drop_of_drop (offset + 4) d0 rfl
  have d8 := drop_of_drop (offset + 8) d4 rfl
  have d12 := drop_of_drop (offset + recordHeaderSize) d8
    (by rw [length_encodeU32Le, recordHeaderSize])
  have dsum := drop_of_drop (offset + recordHeaderSize + b.serialize.length) d12 rfl
  have hpayloadSize : (readU32Le file (offset + 8)).toNat = b.serialize.length := by
    rw [readU32Le_of_drop d8, hsize]
  have hmagic : subspan file offset 4 = recordMagic := subspan_of_drop d0 rfl
  have hversion : subspan file (offset + 4) 4 = [recordVersion, 0, 0, 0] := subspan_of_drop d4 rfl
  have hfit : ¬ file.length - offset < recordHeaderSize + recordChecksumSize := by omega
  rw [readRecord, if_neg hfit, if_neg (not_not.mpr hheader),
    if_neg (not_or.mpr ⟨not_not.mpr hmagic, not_not.mpr hversion⟩)]
  dsimp only
  rw [hpayloadSize, if_neg (by omega), if_neg (by omega), if_neg (not_not.mpr hpayload),
    subspan_of_drop d12 rfl, readArray_of_drop dsum, if_neg (not_not.mpr rfl),
    Block.deserialize_serialize hb, length_encodeRecord]

theorem scan_record {io : OpenIo} (hheader : ∀ k, io.headerOk k = true)
    (hpayload : ∀ k, io.payloadOk k = true) {file rest : Bytes} {fuel offset : Nat}
    {chain : Blockchain} {records : List (Nat × Nat)} {b : Block} (hne : records ≠ [])
    (hb : b.WellFormed κ) (hvalue : (chain.append κ b).2.hasValue = true)
    (hdrop : file.drop offset = encodeRecord κ b ++ rest) :
    scan κ chainId io file (fuel + 1) offset chain records
      = scan κ chainId io file fuel (offset + (encodeRecord κ b).length) (chain.append κ b).1
          (records ++ [(offset, (encodeRecord κ b).length)]) := by
  have hlt : offset < file.length := by
    have hlen := congrArg List.length hdrop
    rw [List.length_drop, List.length_append, length_encodeRecord] at hlen
    simp only [recordHeaderSize] at hlen
    omega
  have hempty : records.isEmpty = false := by
    rw [List.isEmpty_eq_false_iff]
    exact hne
  have hstep : replayRecord κ chainId chain records.isEmpty b = .ok (chain.append κ b).1 := by
    rw [hempty]
    exact if_pos hvalue
  rw [scan, if_neg (not_not.mpr hlt), readRecord_of_drop (hheader _) (hpayload _) hb hdrop]
  dsimp only
  rw [hstep]

/-- The scan of a log appends its blocks and notes where their records stand. -/
theorem scan_of_drop {io : OpenIo} (hheader : ∀ k, io.headerOk k = true)
    (hpayload : ∀ k, io.payloadOk k = true) {file : Bytes} (bs : List Block) :
    ∀ {fuel offset : Nat} {chain : Blockchain} {records : List (Nat × Nat)},
      records ≠ [] → bs.length ≤ fuel → (∀ b ∈ bs, b.WellFormed κ) →
      file.drop offset = bs.flatMap (encodeRecord κ) → accepted κ chain bs = bs →
        scan κ chainId io file fuel offset chain records
          = .ok (chain.appendAll κ bs, records ++ locations κ offset bs) := by
  induction bs with
  | nil =>
      intro fuel offset chain records _ _ _ hdrop _
      have hend : ¬ offset < file.length := by
        intro hlt
        have hlen := congrArg List.length hdrop
        rw [List.length_drop] at hlen
        simp only [List.flatMap_nil, List.length_nil] at hlen
        omega
      rw [locations, List.append_nil]
      cases fuel with
      | zero => rfl
      | succ fuel => rw [scan, if_pos hend]; rfl
  | cons b bs ih =>
      intro fuel offset chain records hne hfuel hwf hdrop hacc
      obtain ⟨fuel, rfl⟩ : ∃ k, fuel = k + 1 := ⟨fuel - 1, by rw [List.length_cons] at hfuel; omega⟩
      obtain ⟨hb, hbs⟩ := List.forall_mem_cons.mp hwf
      obtain ⟨hvalue, hrest⟩ := accepted_cons_eq_self hacc
      rw [List.flatMap_cons] at hdrop
      rw [scan_record hheader hpayload hne hb hvalue hdrop,
        ih (by simp) (by rw [List.length_cons] at hfuel; omega) hbs
          (drop_of_drop _ hdrop rfl) hrest, locations, List.append_assoc]
      rfl

theorem replayRecord_genesis (κ : Crypto) (chainId : UInt32) :
    replayRecord κ chainId (Blockchain.new κ chainId) true (genesisBlock κ chainId)
      = .ok (Blockchain.new κ chainId) := by
  refine (if_pos rfl).trans (if_neg ?_)
  rintro (hg | hid)
  · exact hg rfl
  · exact hid rfl

/-- The first record must be Genesis; the rest follows. -/
theorem scan_log {io : OpenIo} (hheader : ∀ k, io.headerOk k = true)
    (hpayload : ∀ k, io.payloadOk k = true) (hchain : SupportedChain chainId) {file : Bytes}
    {bs : List Block} {fuel : Nat} (hfuel : bs.length < fuel) (hwf : ∀ b ∈ bs, b.WellFormed κ)
    (hfile : file = (genesisBlock κ chainId :: bs).flatMap (encodeRecord κ))
    (hacc : accepted κ (Blockchain.new κ chainId) bs = bs) :
    scan κ chainId io file fuel 0 (Blockchain.new κ chainId) []
      = .ok (Blockchain.replay κ chainId bs, locations κ 0 (genesisBlock κ chainId :: bs)) := by
  obtain ⟨fuel, rfl⟩ : ∃ k, fuel = k + 1 := ⟨fuel - 1, by omega⟩
  have hdrop : file.drop 0 = encodeRecord κ (genesisBlock κ chainId)
      ++ bs.flatMap (encodeRecord κ) := by
    rw [List.drop_zero, hfile, List.flatMap_cons]
  have hlt : 0 < file.length := by
    have hlen := congrArg List.length hdrop
    rw [List.length_drop, List.length_append, length_encodeRecord] at hlen
    simp only [recordHeaderSize] at hlen
    omega
  have hgenesis : replayRecord κ chainId (Blockchain.new κ chainId)
      ([] : List (Nat × Nat)).isEmpty (genesisBlock κ chainId)
        = .ok (Blockchain.new κ chainId) := replayRecord_genesis κ chainId
  rw [scan, if_neg (not_not.mpr hlt),
    readRecord_of_drop (hheader _) (hpayload _) (Block.wellFormed_genesis hchain) hdrop]
  dsimp only
  rw [hgenesis]
  dsimp only
  rw [scan_of_drop hheader hpayload bs (by simp) (by omega) hwf (drop_of_drop _ hdrop rfl) hacc]
  rfl

/-! ## The invariant -/

/-- File, offset table and chain describe the same blocks. -/
structure Inv (κ : Crypto) (chainId : UInt32) (s : ChainStore) : Prop where
  supported : SupportedChain chainId
  log : s.blocksFile = s.blockchain.storedBlocks.flatMap (encodeRecord κ)
  records : s.records = locations κ 0 s.blockchain.storedBlocks
  replayed : ∃ bs, accepted κ (Blockchain.new κ chainId) bs = bs ∧
    s.blockchain = Blockchain.replay κ chainId bs
  wellFormed : ∀ b ∈ s.blockchain.storedBlocks, b.WellFormed κ
  database : s.rebuildDatabase κ true = .none

/-- A rebuild that succeeded has seen every location fit a SQLite integer. -/
theorem le_of_rebuildDatabase {s : ChainStore} {databaseOk : Bool}
    (h : s.rebuildDatabase κ databaseOk = .none) :
    databaseOk = true ∧ ∀ p ∈ s.blockchain.storedBlocks.zip s.records,
      p.2.1 ≤ maxSqliteInt ∧ p.2.2 ≤ maxSqliteInt := by
  rw [rebuildDatabase] at h
  split_ifs at h with hok hlen hall
  refine ⟨hok, ?_⟩
  intro p hp
  have hthis := List.all_eq_true.mp hall p hp
  simp only [Bool.and_eq_true, decide_eq_true_eq] at hthis
  exact ⟨hthis.1.2, hthis.2⟩

theorem zip_locations_getLast (bs : List Block) (b : Block) :
    (b, (bs.flatMap (encodeRecord κ)).length, (encodeRecord κ b).length)
      ∈ (bs ++ [b]).zip (locations κ 0 (bs ++ [b])) := by
  rw [locations_append, List.zip_append (length_locations bs 0).symm, Nat.zero_add]
  exact List.mem_append_right _ List.mem_cons_self

/-- The log of a store that has been indexed is short enough to be opened. -/
theorem Inv.length_le {s : ChainStore} (h : s.Inv κ chainId) :
    s.blocksFile.length ≤ 2 ^ 64 - 1 := by
  have hbounds := (le_of_rebuildDatabase h.database).2
  rw [h.records] at hbounds
  rw [h.log]
  rcases List.eq_nil_or_concat s.blockchain.storedBlocks with hnil | ⟨bs, b, hconcat⟩
  · rw [hnil]
    exact Nat.zero_le _
  · rw [hconcat] at hbounds ⊢
    rw [List.concat_eq_append] at hbounds ⊢
    obtain ⟨h1, h2⟩ := hbounds _ (zip_locations_getLast bs b)
    have hlen : ((bs ++ [b]).flatMap (encodeRecord κ)).length
        = (bs.flatMap (encodeRecord κ)).length + (encodeRecord κ b).length := by
      simp
    rw [hlen]
    simp only [maxSqliteInt] at h1 h2
    omega

theorem length_le_log (bs : List Block) : bs.length ≤ (bs.flatMap (encodeRecord κ)).length := by
  induction bs with
  | nil => exact Nat.le_refl _
  | cons b bs ih =>
      have hlen := length_encodeRecord (κ := κ) b
      rw [List.flatMap_cons, List.length_cons, List.length_append]
      simp only [recordHeaderSize] at hlen
      omega

theorem openStore_log {io : OpenIo} (hsize : io.sizeOk = true) (hopen : io.openOk = true)
    (hheader : ∀ k, io.headerOk k = true) (hpayload : ∀ k, io.payloadOk k = true)
    (hchain : SupportedChain chainId) {file : Bytes} {bs : List Block}
    (hwf : ∀ b ∈ bs, b.WellFormed κ)
    (hfile : file = (genesisBlock κ chainId :: bs).flatMap (encodeRecord κ))
    (hacc : accepted κ (Blockchain.new κ chainId) bs = bs)
    (hlength : file.length ≤ 2 ^ 64 - 1)
    (hdatabase : rebuildDatabase κ ⟨file, Blockchain.replay κ chainId bs,
      locations κ 0 (genesisBlock κ chainId :: bs)⟩ io.databaseOk = .none) :
    openStore κ chainId io (some file) = .ok ⟨file, Blockchain.replay κ chainId bs,
      locations κ 0 (genesisBlock κ chainId :: bs)⟩ := by
  have hfuel : bs.length < file.length := by
    have hlog := length_le_log (κ := κ) (genesisBlock κ chainId :: bs)
    rw [← hfile, List.length_cons] at hlog
    exact hlog
  have hguard : ¬ (¬ io.sizeOk = true ∨ file.length > 2 ^ 64 - 1) :=
    not_or.mpr ⟨not_not.mpr hsize, Nat.not_lt.mpr hlength⟩
  rw [openStore, if_neg hguard, if_neg (not_not.mpr hopen),
    scan_log hheader hpayload hchain hfuel hwf hfile hacc]
  dsimp only
  rw [if_neg (by rw [locations]; exact Bool.false_ne_true), if_neg (not_not.mpr hdatabase)]

/-- Opening the file of a store returns that store. -/
theorem Inv.reopen {s : ChainStore} (h : s.Inv κ chainId) :
    openStore κ chainId {} (some s.blocksFile) = .ok s := by
  obtain ⟨bs, hacc, hreplay⟩ := h.replayed
  have hstored : s.blockchain.storedBlocks = genesisBlock κ chainId :: bs := by
    rw [hreplay, storedBlocks_replay, hacc]
  have hself : (⟨s.blocksFile, Blockchain.replay κ chainId bs,
      locations κ 0 (genesisBlock κ chainId :: bs)⟩ : ChainStore) = s := by
    rw [← hreplay, ← hstored, ← h.records]
  have hopen : openStore κ chainId {} (some s.blocksFile) = _ := openStore_log rfl rfl
    (fun _ => rfl) (fun _ => rfl) h.supported
    (fun b hb => h.wellFormed b (by rw [hstored]; exact List.mem_cons_of_mem _ hb))
    (by rw [h.log, hstored]) hacc h.length_le (by rw [hself]; exact h.database)
  rw [hopen, hself]

/-! ## The steps -/

theorem truncate_append {io : AppendIo} (hio : io.resizeOk = true) (file extra : Bytes) :
    truncate io (file ++ extra) file.length = file := by
  rw [truncate, if_pos hio, List.take_left]

/-- What one `append` can do when truncation works: nothing, or one more record. -/
theorem append_cases (κ : Crypto) (s : ChainStore) (b : Block) (io : AppendIo)
    (hio : io.resizeOk = true) :
    ((s.append κ b io).1 = s ∧ (s.append κ b io).2.hasValue = false) ∨
      ((s.blockchain.append κ b).2.hasValue = true ∧
        (s.append κ b io).2 = { chainResult := (s.blockchain.append κ b).2 } ∧
        (s.append κ b io).1 =
          { blocksFile := s.blocksFile ++ encodeRecord κ b
            blockchain := (s.blockchain.append κ b).1
            records := s.records ++ [(s.blocksFile.length, (encodeRecord κ b).length)] } ∧
        (s.append κ b io).1.rebuildDatabase κ io.databaseOk = .none) := by
  unfold append
  dsimp only
  by_cases hv : (s.blockchain.append κ b).2.hasValue = true
  · rw [if_neg (not_not.mpr hv)]
    by_cases hsize : ¬ io.sizeOk = true ∨ s.blocksFile.length > 2 ^ 64 - 1
    · rw [if_pos hsize]
      exact Or.inl ⟨rfl, rfl⟩
    rw [if_neg hsize]
    by_cases hopen : ¬ io.openOk = true
    · rw [if_pos hopen]
      exact Or.inl ⟨rfl, rfl⟩
    rw [if_neg hopen]
    cases io.shortWrite with
    | some n =>
        dsimp only
        rw [truncate_append hio]
        exact Or.inl ⟨rfl, rfl⟩
    | none =>
        dsimp only
        split
        · rename_i hdatabase
          exact Or.inr ⟨hv, rfl, rfl, hdatabase⟩
        · rename_i hdatabase
          rw [truncate_append hio]
          refine Or.inl ⟨rfl, ?_⟩
          rw [ChainStoreAppendResult.hasValue, beq_eq_false_iff_ne.mpr hdatabase, Bool.false_and]
  · rw [if_pos hv]
    refine Or.inl ⟨rfl, ?_⟩
    rw [ChainStoreAppendResult.hasValue]
    simpa using hv

theorem Inv.append {s : ChainStore} (h : s.Inv κ chainId) {b : Block} (hb : b.WellFormed κ)
    {io : AppendIo} (hio : io.resizeOk = true) : (s.append κ b io).1.Inv κ chainId := by
  rcases append_cases κ s b io hio with ⟨hs, -⟩ | ⟨hv, -, hs, hdatabase⟩
  · rw [hs]
    exact h
  · obtain ⟨bs, hacc, hreplay⟩ := h.replayed
    have hstored : (s.blockchain.append κ b).1.storedBlocks = s.blockchain.storedBlocks ++ [b] := by
      have happend := storedBlocks_appendAll (κ := κ) [b] s.blockchain
      rw [accepted, if_pos hv] at happend
      exact happend
    obtain ⟨hok, -⟩ := le_of_rebuildDatabase hdatabase
    rw [hok] at hdatabase
    rw [hs] at hdatabase ⊢
    refine ⟨h.supported, ?_, ?_, ⟨bs ++ [b], ?_, ?_⟩, ?_, hdatabase⟩
    · rw [hstored, List.flatMap_append, ← h.log]
      simp
    · rw [hstored, locations_append, ← h.records, ← h.log, Nat.zero_add]
      rfl
    · have hrun : (Blockchain.new κ chainId).appendAll κ bs = s.blockchain := hreplay.symm
      rw [accepted_append, hacc, hrun, accepted, if_pos hv]
      rfl
    · rw [replay_concat, ← hreplay]
    · intro d hd
      rw [hstored] at hd
      rcases List.mem_append.mp hd with hd | hd
      · exact h.wellFormed d hd
      · rw [List.mem_singleton.mp hd]
        exact hb

theorem Inv.appendAll (ops : List (Block × AppendIo)) :
    ∀ {s : ChainStore}, s.Inv κ chainId → (∀ op ∈ ops, op.1.WellFormed κ) →
      (∀ op ∈ ops, op.2.resizeOk = true) → (s.appendAll κ ops).Inv κ chainId := by
  induction ops with
  | nil => intro s h _ _; exact h
  | cons op ops ih =>
      intro s h hwf hio
      obtain ⟨hop, hops⟩ := List.forall_mem_cons.mp hwf
      obtain ⟨hop', hops'⟩ := List.forall_mem_cons.mp hio
      exact ih (h.append hop hop') hops hops'

/-! ## A new store -/

/-- What `readRecord` has checked when it returns a block. -/
structure RecordRead (κ : Crypto) (file : Bytes) (offset : Nat) (b : Block)
    (size : Nat) : Prop where
  magic : subspan file offset 4 = recordMagic
  version : subspan file (offset + 4) 4 = [recordVersion, 0, 0, 0]
  room : size ≤ file.length - offset
  size : size = recordHeaderSize + (readU32Le file (offset + 8)).toNat + recordChecksumSize
  checksum : κ.sha256 (subspan file (offset + recordHeaderSize) (readU32Le file (offset + 8)).toNat)
    = readArray 32 file (offset + recordHeaderSize + (readU32Le file (offset + 8)).toNat)
  decoded : deserializeBlock κ (subspan file (offset + recordHeaderSize)
    (readU32Le file (offset + 8)).toNat) = .ok b

theorem readRecord_ok {io : OpenIo} {index offset : Nat} {file : Bytes} {r : Block × Nat}
    (h : readRecord κ io index file offset = .ok r) :
    io.headerOk index = true ∧ io.payloadOk index = true ∧ RecordRead κ file offset r.1 r.2 := by
  rw [readRecord] at h
  split at h
  · cases h
  split at h
  · cases h
  rename_i hheader
  split at h
  · cases h
  rename_i hprefix
  obtain ⟨hmagic, hversion⟩ := not_or.mp hprefix
  dsimp only at h
  split at h
  · cases h
  split at h
  · cases h
  rename_i hroom
  split at h
  · cases h
  rename_i hpayload
  split at h
  · cases h
  rename_i hchecksum
  split at h
  · cases h
  · rename_i block hblock
    cases h
    exact ⟨not_not.mp hheader, not_not.mp hpayload, not_not.mp hmagic, not_not.mp hversion,
      Nat.not_lt.mp hroom, rfl, not_not.mp hchecksum, hblock⟩

/-- The first record of a new store is readable only on a supported chain. -/
theorem supportedChain_of_readRecord {io : OpenIo} {r : Block × Nat}
    (h : readRecord κ io 0 (encodeRecord κ (genesisBlock κ chainId)) 0 = .ok r) :
    io.headerOk 0 = true ∧ io.payloadOk 0 = true ∧ SupportedChain chainId := by
  obtain ⟨hheader, hpayload, hread⟩ := readRecord_ok h
  have hdecoded := hread.decoded
  refine ⟨hheader, hpayload, ?_⟩
  have d0 : (encodeRecord κ (genesisBlock κ chainId)).drop 0 = recordMagic ++
      ([recordVersion, 0, 0, 0] ++ (encodeU32Le (UInt32.ofNat
          (genesisBlock κ chainId).serialize.length)
        ++ ((genesisBlock κ chainId).serialize ++
          (κ.sha256 (genesisBlock κ chainId).serialize).toList))) := by
    simp [encodeRecord]
  have d8 := drop_of_drop 8 (drop_of_drop 4 d0 rfl) rfl
  have d12 := drop_of_drop (0 + recordHeaderSize) d8 (by rw [length_encodeU32Le, recordHeaderSize])
  have hlen : (genesisBlock κ chainId).serialize.length = 165 :=
    (genesisBlock κ chainId).length_serialize
  have hsize : (readU32Le (encodeRecord κ (genesisBlock κ chainId)) (0 + 8)).toNat
      = (genesisBlock κ chainId).serialize.length := by
    rw [Nat.zero_add, readU32Le_of_drop d8, hlen]
    rfl
  rw [hsize, subspan_of_drop d12 rfl] at hdecoded
  rw [deserializeBlock] at hdecoded
  split at hdecoded
  · cases hdecoded
  · rename_i hcheck
    have hread := Block.supportedChain_of_checkEncoding (not_not.mp hcheck)
    rw [(genesisBlock κ chainId).readsAs_serialize.chainId] at hread
    exact hread

/-- The scan of a new file: one record, Genesis. -/
theorem scan_genesis {io : OpenIo} {r : Blockchain × List (Nat × Nat)}
    (h : scan κ chainId io (encodeRecord κ (genesisBlock κ chainId))
      (encodeRecord κ (genesisBlock κ chainId)).length 0 (Blockchain.new κ chainId) [] = .ok r) :
    SupportedChain chainId ∧
      r = (Blockchain.new κ chainId, locations κ 0 [genesisBlock κ chainId]) := by
  have hpos : 0 < (encodeRecord κ (genesisBlock κ chainId)).length :=
    List.length_pos_of_ne_nil (encodeRecord_ne_nil _)
  obtain ⟨fuel, hfuel⟩ : ∃ k, (encodeRecord κ (genesisBlock κ chainId)).length = k + 1 :=
    ⟨(encodeRecord κ (genesisBlock κ chainId)).length - 1, by omega⟩
  rw [hfuel, scan, if_neg (not_not.mpr hpos)] at h
  cases hread : readRecord κ io ([] : List (Nat × Nat)).length
      (encodeRecord κ (genesisBlock κ chainId)) 0 with
  | error e =>
      rw [hread] at h
      cases h
  | ok q =>
      obtain ⟨hheader, hpayload, hchain⟩ := supportedChain_of_readRecord hread
      have hdrop : (encodeRecord κ (genesisBlock κ chainId)).drop 0
          = encodeRecord κ (genesisBlock κ chainId) ++ [] := (List.append_nil _).symm
      have hgenesis : replayRecord κ chainId (Blockchain.new κ chainId)
          ([] : List (Nat × Nat)).isEmpty (genesisBlock κ chainId)
            = .ok (Blockchain.new κ chainId) := replayRecord_genesis κ chainId
      have hend : ¬ 0 + (encodeRecord κ (genesisBlock κ chainId)).length
          < (encodeRecord κ (genesisBlock κ chainId)).length := by omega
      have hrecord := readRecord_of_drop hheader hpayload (Block.wellFormed_genesis hchain) hdrop
      rw [List.length_nil, hrecord] at h
      dsimp only at h
      rw [hgenesis] at h
      dsimp only at h
      refine ⟨hchain, ?_⟩
      cases fuel with
      | zero =>
          cases h
          rfl
      | succ fuel =>
          rw [scan, if_pos hend] at h
          cases h
          rfl

theorem Inv.initializeStore {files : InitializeIo} {io : OpenIo} {s : ChainStore}
    (h : ChainStore.initializeStore κ chainId files io = .ok s) : s.Inv κ chainId := by
  rw [ChainStore.initializeStore] at h
  split_ifs at h
  rw [openStore] at h
  split at h
  · cases h
  split at h
  · cases h
  split at h
  · cases h
  rename_i chain records hscan
  obtain ⟨hchain, heq⟩ := scan_genesis hscan
  obtain ⟨rfl, rfl⟩ := Prod.mk.inj heq
  dsimp only at h
  split_ifs at h with hempty hdatabase
  cases h
  have hdatabase := not_not.mp hdatabase
  rw [(le_of_rebuildDatabase hdatabase).1] at hdatabase
  refine ⟨hchain, ?_, rfl, ⟨[], rfl, rfl⟩, ?_, hdatabase⟩
  · exact (List.flatMap_singleton _ _).symm
  · intro b hb
    rw [List.mem_singleton.mp hb]
    exact Block.wellFormed_genesis hchain

/-- After every run of `append`s on a new store, with rejections, short writes and
failed rebuilds anywhere in it, the file is the log of the stored blocks, the
offset table locates their records, and opening the file returns the store. -/
theorem log_refines (κ : Crypto) (hlaw : κ.SignatureLaw) (chainId : UInt32)
    (files : InitializeIo) (io : OpenIo) (start : ChainStore)
    (hstart : ChainStore.initializeStore κ chainId files io = .ok start)
    (ops : List (Block × AppendIo)) (hblocks : ∀ op ∈ ops, op.1.Obtainable κ)
    (hresize : ∀ op ∈ ops, op.2.resizeOk = true) :
    let s := start.appendAll κ ops
    s.blocksFile = s.blockchain.storedBlocks.flatMap (encodeRecord κ) ∧
    s.records.length = s.blockchain.storedBlocks.length ∧
    (∀ i b, s.blockchain.storedBlocks[i]? = some b →
      s.records[i]? = some (((s.blockchain.storedBlocks.take i).flatMap (encodeRecord κ)).length,
        (encodeRecord κ b).length)) ∧
    openStore κ chainId {} (some s.blocksFile) = .ok s := by
  intro s
  have h : s.Inv κ chainId := Inv.appendAll ops (Inv.initializeStore hstart)
    (fun op hop => (hblocks op hop).wellFormed hlaw) hresize
  refine ⟨h.log, ?_, ?_, h.reopen⟩
  · rw [h.records, length_locations]
  · intro i b hb
    rw [h.records, getElem?_locations _ 0 hb, Nat.zero_add]

/-- A new regtest store. -/
def genesisStore : ChainStore :=
  ⟨encodeRecord reference (genesisBlock reference 2), Blockchain.new reference 2, [(0, 209)]⟩

theorem obtainable_minedFirst : minedFirst.Obtainable reference :=
  obtainable_regtestBlock (by decide) (by decide +kernel) 1 899

/-- A short write, a failed rebuild, and then the block is stored. -/
theorem log_refines_mined :
    let s := genesisStore.appendAll reference
      [(minedFirst, { shortWrite := some 10 }), (minedFirst, { databaseOk := false }),
        (minedFirst, {})]
    s.blockchain.storedBlocks = [genesisBlock reference 2, minedFirst] ∧
    s.blocksFile = s.blockchain.storedBlocks.flatMap (encodeRecord reference) ∧
    openStore reference 2 {} (some s.blocksFile) = .ok s := by
  have hall := obtainable_minedFirst
  have h := log_refines reference reference_signatureLaw 2 {} {} genesisStore (by decide +kernel)
    [(minedFirst, { shortWrite := some 10 }), (minedFirst, { databaseOk := false }),
      (minedFirst, {})]
    (List.forall_mem_cons.mpr ⟨hall, List.forall_mem_cons.mpr ⟨hall,
      List.forall_mem_cons.mpr ⟨hall, fun _ hmem => absurd hmem List.not_mem_nil⟩⟩⟩)
    (by decide)
  exact ⟨by decide +kernel, h.1, h.2.2.2⟩

end ChainStore

end BBC
