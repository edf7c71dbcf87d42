/-
# `BBC.Storage.LogLanguage` — what `ChainStore::open` accepts

`BlockLog` shows that a log opens as the store that wrote it.  Here is the other
half: a file that opens is a log.  A record that is read is the encoding of the
block it yields (`drop_of_readRecord`), so a scan that ends has cut the whole file
into records (`scan_ok`), and a file that ends inside a record stops the scan with
`invalid_record_size` (`scan_torn`).
-/
import BBC.Storage.BlockLog

namespace BBC

open ByteCodec Blockchain

variable {κ : Crypto} {chainId : UInt32}

theorem accepted_take (bs : List Block) :
    ∀ {c : Blockchain} {i : Nat}, accepted κ c bs = bs → accepted κ c (bs.take i) = bs.take i := by
  induction bs with
  | nil => intro c i _; rw [List.take_nil]; rfl
  | cons b bs ih =>
      intro c i h
      obtain ⟨hvalue, hrest⟩ := accepted_cons_eq_self h
      cases i with
      | zero => rfl
      | succ i => rw [List.take_succ_cons, accepted, if_pos hvalue, ih hrest]

namespace ChainStore

/-- The log of Genesis and the given blocks. -/
def logOf (κ : Crypto) (chainId : UInt32) (bs : List Block) : Bytes :=
  (genesisBlock κ chainId :: bs).flatMap (encodeRecord κ)

/-- The store that such a log describes. -/
def storeOf (κ : Crypto) (chainId : UInt32) (bs : List Block) : ChainStore where
  blocksFile := logOf κ chainId bs
  blockchain := Blockchain.replay κ chainId bs
  records := locations κ 0 (genesisBlock κ chainId :: bs)

/-! ## A record that is read -/

theorem RecordRead.drop_eq {file : Bytes} {offset size : Nat} {b : Block}
    (h : RecordRead κ file offset b size) (hoffset : offset ≤ file.length) :
    size = (encodeRecord κ b).length ∧
      file.drop offset = encodeRecord κ b ++ file.drop (offset + size) := by
  have hroom := h.room
  have hsize := h.size
  simp only [recordHeaderSize, recordChecksumSize] at hsize
  have hpayload := Block.serialize_of_deserializeBlock h.decoded
  have hcount := congrArg List.length hpayload
  rw [length_subspan (by simp only [recordHeaderSize]; omega)] at hcount
  have hlen : size = (encodeRecord κ b).length := by
    rw [length_encodeRecord, hcount, h.size]
  refine ⟨hlen, ?_⟩
  have hsum := h.checksum
  rw [← hpayload] at hsum
  -- the five windows of the record, and then the rest of the file
  rw [encodeRecord]
  rw [hcount, UInt32.ofNat_toNat, encodeU32Le_readU32Le (by omega), hsum,
    toList_readArray (by simp only [recordHeaderSize]; omega), hpayload, ← h.magic]
  have hversion : (recordVersion :: ([0, 0, 0] : Bytes)) = subspan file (offset + 4) 4 :=
      h.version.symm
  rw [← List.cons_append, hversion]
  simp only [List.append_assoc]
  rw [hsize]
  simp only [recordHeaderSize]
  have hend : offset + (12 + (readU32Le file (offset + 8)).toNat + 32)
      = offset + 12 + (readU32Le file (offset + 8)).toNat + 32 := by omega
  rw [hend, subspan_append_drop, subspan_append_drop]
  have h12 : offset + 12 = offset + 8 + 4 := rfl
  rw [h12, subspan_append_drop]
  have h8 : offset + 8 = offset + 4 + 4 := rfl
  rw [h8, subspan_append_drop, subspan_append_drop]

/-! ## A scan that ends -/

/-- A scan that ends past the first record has cut the rest of the file into records
and appended their blocks. -/
theorem scan_ok {io : OpenIo} {file : Bytes} (fuel : Nat) :
    ∀ {offset : Nat} {chain : Blockchain} {records : List (Nat × Nat)}
      {out : Blockchain × List (Nat × Nat)},
      records ≠ [] → offset ≤ file.length → file.length - offset ≤ fuel →
      scan κ chainId io file fuel offset chain records = .ok out →
      ∃ bs : List Block, (∀ b ∈ bs, b.Obtainable κ) ∧
        file.drop offset = bs.flatMap (encodeRecord κ) ∧ accepted κ chain bs = bs ∧
        out = (chain.appendAll κ bs, records ++ locations κ offset bs) := by
  have hend : ∀ {offset : Nat} {chain : Blockchain} {records : List (Nat × Nat)},
      file.length ≤ offset →
      ∃ bs : List Block, (∀ b ∈ bs, b.Obtainable κ) ∧
        file.drop offset = bs.flatMap (encodeRecord κ) ∧ accepted κ chain bs = bs ∧
        (chain, records) = (chain.appendAll κ bs, records ++ locations κ offset bs) := by
    intro offset chain records hle
    refine ⟨[], fun _ hb => absurd hb List.not_mem_nil, List.drop_of_length_le hle, rfl, ?_⟩
    rw [locations, List.append_nil]
    rfl
  induction fuel with
  | zero =>
      intro offset chain records out _ hoffset hfuel h
      cases h
      exact hend (by omega)
  | succ fuel ih =>
      intro offset chain records out hne hoffset hfuel h
      rw [scan] at h
      by_cases hlt : offset < file.length
      · rw [if_neg (not_not.mpr hlt)] at h
        cases hread : readRecord κ io records.length file offset with
        | error e => rw [hread] at h; cases h
        | ok r =>
            obtain ⟨b, size⟩ := r
            rw [hread] at h
            dsimp only at h
            have hrecord : RecordRead κ file offset b size := (readRecord_ok hread).2.2
            obtain ⟨hsize, hdrop⟩ := hrecord.drop_eq hoffset
            have hpos : 0 < size := by
              rw [hsize]
              exact List.length_pos_of_ne_nil (encodeRecord_ne_nil b)
            have hroom := hrecord.room
            have hempty : records.isEmpty = false := by
              rw [List.isEmpty_eq_false_iff]
              exact hne
            rw [hempty, replayRecord, if_neg Bool.false_ne_true] at h
            dsimp only at h
            by_cases hv : (chain.append κ b).2.hasValue = true
            · rw [if_pos hv] at h
              dsimp only at h
              obtain ⟨bs, hobtainable, hbs, hacc, hout⟩ := ih (by simp) (by omega) (by omega) h
              refine ⟨b :: bs, ?_, ?_, ?_, ?_⟩
              · exact List.forall_mem_cons.mpr ⟨.deserialized hrecord.decoded, hobtainable⟩
              · rw [hdrop, hbs, List.flatMap_cons]
              · rw [accepted, if_pos hv, hacc]
              · rw [hout, locations, List.append_assoc, ← hsize]
                rfl
            · rw [if_neg hv] at h
              cases h
      · rw [if_pos hlt] at h
        cases h
        exact hend (by omega)

theorem chainId_of_supported {c : UInt32} (h : SupportedChain c) : c = 1 ∨ c = 2 := by
  obtain ⟨network, hnet⟩ := h.parameters
  rcases networkParametersForChain_eq_some hnet with ⟨hc, -⟩ | ⟨hc, -⟩
  · exact Or.inl hc
  · exact Or.inr hc

/-- A decoded block of height zero with this network's Genesis id is its Genesis. -/
theorem eq_genesis_of_id {payload : Bytes} {b : Block} (hchain : SupportedChain chainId)
    (hgenesis : (genesisBlock κ 1).id κ ≠ (genesisBlock κ 2).id κ)
    (hdecoded : deserializeBlock κ payload = .ok b) (hb : b.isGenesis = true)
    (hid : b.id κ = (genesisBlock κ chainId).id κ) : b = genesisBlock κ chainId := by
  have hwf := Block.wellFormed_of_deserializeBlock hdecoded
  have hself : b = genesisBlock κ b.chainId := by
    rcases hwf.shape with hg | ⟨hheight, -⟩
    · exact hg
    · exact absurd (beq_iff_eq.mp hb) hheight
  have hsame : b.chainId = chainId := by
    rw [hself] at hid
    rcases chainId_of_supported hwf.supported with h1 | h1 <;>
      rcases chainId_of_supported hchain with h2 | h2
    · rw [h1, h2]
    · rw [h1, h2] at hid
      exact absurd hid hgenesis
    · rw [h1, h2] at hid
      exact absurd hid.symm hgenesis
    · rw [h1, h2]
  rw [hself, hsame]

/-- A file that opens is the log of blocks that were accepted in turn. -/
theorem log_of_openStore {io : OpenIo} {file : Bytes} {s : ChainStore}
    (hchain : SupportedChain chainId)
    (hgenesis : (genesisBlock κ 1).id κ ≠ (genesisBlock κ 2).id κ)
    (h : openStore κ chainId io (some file) = .ok s) :
    ∃ bs : List Block, (∀ b ∈ bs, b.Obtainable κ) ∧
      accepted κ (Blockchain.new κ chainId) bs = bs ∧ file = logOf κ chainId bs ∧
      s = storeOf κ chainId bs := by
  rw [openStore] at h
  split at h
  · cases h
  split at h
  · cases h
  split at h
  · cases h
  rename_i chain records hscan
  dsimp only at h
  split_ifs at h with hempty hdatabase
  cases h
  have hpos : 0 < file.length := by
    by_contra hzero
    have hnil : file.length = 0 := by omega
    rw [hnil, scan] at hscan
    cases hscan
    exact hempty rfl
  obtain ⟨fuel, hfuel⟩ : ∃ k, file.length = k + 1 := ⟨file.length - 1, by omega⟩
  rw [hfuel, scan, if_neg (not_not.mpr hpos)] at hscan
  cases hread : readRecord κ io ([] : List (Nat × Nat)).length file 0 with
  | error e => rw [hread] at hscan; cases hscan
  | ok r =>
      obtain ⟨b, size⟩ := r
      rw [hread] at hscan
      dsimp only at hscan
      have hrecord : RecordRead κ file 0 b size := (readRecord_ok hread).2.2
      obtain ⟨hsize, hdrop⟩ := hrecord.drop_eq (Nat.zero_le _)
      have hroom := hrecord.room
      rw [List.isEmpty_nil, replayRecord, if_pos rfl] at hscan
      by_cases hfirst : ¬ b.isGenesis ∨ b.id κ ≠ (genesisBlock κ chainId).id κ
      · rw [if_pos hfirst] at hscan
        cases hscan
      rw [if_neg hfirst] at hscan
      obtain ⟨hheight, hid⟩ := not_or.mp hfirst
      have hb := eq_genesis_of_id hchain hgenesis hrecord.decoded (not_not.mp hheight)
        (not_not.mp hid)
      have hbytes : 0 < size := by
        rw [hsize]
        exact List.length_pos_of_ne_nil (encodeRecord_ne_nil b)
      dsimp only at hscan
      obtain ⟨bs, hobtainable, hbs, hacc, hout⟩ :=
        scan_ok fuel (by simp) (by omega) (by omega) hscan
      obtain ⟨rfl, rfl⟩ := Prod.mk.inj hout
      have hfile : file = logOf κ chainId bs := by
        rw [hbs, hb, List.drop_zero] at hdrop
        exact hdrop
      refine ⟨bs, hobtainable, hacc, hfile, ?_⟩
      rw [storeOf, ← hfile, locations, ← hb, ← hsize]
      rfl

/-! ## A file that ends inside a record -/

/-- The rest of the file is a part of a record: the size checks refuse it. -/
theorem readRecord_torn {io : OpenIo} (hheader : ∀ k, io.headerOk k = true) {index offset : Nat}
    {file : Bytes} {b : Block} {m : Nat} (hm : m < (encodeRecord κ b).length)
    (h : file.drop offset = (encodeRecord κ b).take m) :
    readRecord κ io index file offset = .error .invalidRecordSize := by
  have hlen := congrArg List.length h
  rw [List.length_drop, List.length_take, Nat.min_eq_left (Nat.le_of_lt hm)] at hlen
  rw [length_encodeRecord] at hm
  rw [readRecord]
  by_cases hshort : file.length - offset < recordHeaderSize + recordChecksumSize
  · rw [if_pos hshort]
  rw [if_neg hshort, if_neg (not_not.mpr (hheader index))]
  simp only [recordHeaderSize, recordChecksumSize] at hshort hm
  have hmin := blockHeaderSize_le_length b
  have hmax := b.length_serialize_le
  have hmax' : b.serialize.length ≤ 161165 := hmax
  have hsize : (UInt32.ofNat b.serialize.length).toNat = b.serialize.length :=
    UInt32.toNat_ofNat_of_lt' (show b.serialize.length < 2 ^ 32 by omega)
  -- the header of the record is still whole
  have d0 : file.drop offset = recordMagic ++ ([recordVersion, 0, 0, 0] ++
      (encodeU32Le (UInt32.ofNat b.serialize.length) ++ ((b.serialize ++
        (κ.sha256 b.serialize).toList).take (m - 12)))) := by
    have hlayout : encodeRecord κ b = (recordMagic ++ ([recordVersion, 0, 0, 0] ++
        encodeU32Le (UInt32.ofNat b.serialize.length))) ++ (b.serialize ++
          (κ.sha256 b.serialize).toList) := by
      simp [encodeRecord]
    have hfront : (recordMagic ++ ([recordVersion, 0, 0, 0] ++
        encodeU32Le (UInt32.ofNat b.serialize.length))).length = 12 := by
      simp [recordMagic]
    rw [h, hlayout, List.take_append, hfront, List.take_of_length_le (by rw [hfront]; omega)]
    simp
  have d4 := drop_of_drop (offset + 4) d0 rfl
  have d8 := drop_of_drop (offset + 8) d4 rfl
  have hmagic : subspan file offset 4 = recordMagic := subspan_of_drop d0 rfl
  have hversion : subspan file (offset + 4) 4 = [recordVersion, 0, 0, 0] := subspan_of_drop d4 rfl
  rw [if_neg (not_or.mpr ⟨not_not.mpr hmagic, not_not.mpr hversion⟩)]
  dsimp only
  rw [readU32Le_of_drop d8, hsize, if_neg (by omega), if_pos]
  simp only [recordHeaderSize, recordChecksumSize]
  omega

theorem scan_torn {io : OpenIo} (hheader : ∀ k, io.headerOk k = true)
    (hpayload : ∀ k, io.payloadOk k = true) {file : Bytes} {d : Block} {m : Nat} (hpos : 0 < m)
    (hm : m < (encodeRecord κ d).length) (bs : List Block) :
    ∀ {fuel offset : Nat} {chain : Blockchain} {records : List (Nat × Nat)},
      records ≠ [] → bs.length < fuel → (∀ b ∈ bs, b.WellFormed κ) →
      file.drop offset = bs.flatMap (encodeRecord κ) ++ (encodeRecord κ d).take m →
      accepted κ chain bs = bs →
        scan κ chainId io file fuel offset chain records = .error .invalidRecordSize := by
  induction bs with
  | nil =>
      intro fuel offset chain records _ hfuel _ hdrop _
      obtain ⟨fuel, rfl⟩ : ∃ k, fuel = k + 1 := ⟨fuel - 1, by omega⟩
      have hlen := congrArg List.length hdrop
      rw [List.length_drop, List.flatMap_nil, List.nil_append, List.length_take,
        Nat.min_eq_left (Nat.le_of_lt hm)] at hlen
      rw [scan, if_neg (by omega), readRecord_torn hheader hm hdrop]
  | cons b bs ih =>
      intro fuel offset chain records hne hfuel hwf hdrop hacc
      obtain ⟨fuel, rfl⟩ : ∃ k, fuel = k + 1 := ⟨fuel - 1, by omega⟩
      obtain ⟨hb, hbs⟩ := List.forall_mem_cons.mp hwf
      obtain ⟨hvalue, hrest⟩ := accepted_cons_eq_self hacc
      rw [List.flatMap_cons, List.append_assoc] at hdrop
      rw [scan_record hheader hpayload hne hb hvalue hdrop]
      exact ih (by simp) (by rw [List.length_cons] at hfuel; omega) hbs
        (drop_of_drop _ hdrop rfl) hrest

theorem openStore_torn {bs : List Block} (hchain : SupportedChain chainId)
    (hwf : ∀ b ∈ bs, b.WellFormed κ) (hacc : accepted κ (Blockchain.new κ chainId) bs = bs)
    {file : Bytes} (hlength : file.length ≤ 2 ^ 64 - 1) {i : Nat} {d : Block} {m : Nat}
    (hi : (genesisBlock κ chainId :: bs)[i]? = some d) (hpos : 0 < m)
    (hm : m < (encodeRecord κ d).length)
    (hfile : file = ((genesisBlock κ chainId :: bs).take i).flatMap (encodeRecord κ)
      ++ (encodeRecord κ d).take m) :
    openStore κ chainId {} (some file) = .error .invalidRecordSize := by
  have hguard : ¬ (¬ ({} : OpenIo).sizeOk = true ∨ file.length > 2 ^ 64 - 1) :=
    not_or.mpr ⟨not_not.mpr rfl, Nat.not_lt.mpr hlength⟩
  have hscan : scan κ chainId {} file file.length 0 (Blockchain.new κ chainId) []
      = .error .invalidRecordSize := by
    have hlen := congrArg List.length hfile
    rw [List.length_append, List.length_take (l := encodeRecord κ d),
      Nat.min_eq_left (Nat.le_of_lt hm)] at hlen
    obtain ⟨fuel, hfuel⟩ : ∃ k, file.length = k + 1 := ⟨file.length - 1, by omega⟩
    cases i with
    | zero =>
        have hdrop : file.drop 0 = (encodeRecord κ d).take m := hfile
        rw [hfuel, scan, if_neg (by omega), readRecord_torn (fun _ => rfl) hm hdrop]
    | succ i =>
        rw [List.take_succ_cons, List.flatMap_cons, List.append_assoc] at hfile
        have hdrop : file.drop 0 = _ := hfile
        have hlog := length_le_log (κ := κ) (bs.take i)
        have hfirst := List.length_pos_of_ne_nil
          (encodeRecord_ne_nil (κ := κ) (genesisBlock κ chainId))
        rw [List.take_succ_cons, List.flatMap_cons, List.length_append] at hlen
        have hgenesis : replayRecord κ chainId (Blockchain.new κ chainId)
            ([] : List (Nat × Nat)).isEmpty (genesisBlock κ chainId)
              = .ok (Blockchain.new κ chainId) := replayRecord_genesis κ chainId
        rw [hfuel, scan, if_neg (by omega),
          readRecord_of_drop rfl rfl (Block.wellFormed_genesis hchain) hdrop]
        dsimp only
        rw [hgenesis]
        dsimp only
        exact scan_torn (fun _ => rfl) (fun _ => rfl) hpos hm (bs.take i) (by simp) (by omega)
          (fun b hb => hwf b (List.mem_of_mem_take hb)) (drop_of_drop _ hdrop rfl)
          (accepted_take bs hacc)
  rw [openStore, if_neg hguard, if_neg (not_not.mpr rfl), hscan]

/-! ## Cutting a log -/

theorem storedBlocks_storeOf {bs : List Block}
    (hacc : accepted κ (Blockchain.new κ chainId) bs = bs) :
    (storeOf κ chainId bs).blockchain.storedBlocks = genesisBlock κ chainId :: bs := by
  show (Blockchain.replay κ chainId bs).storedBlocks = _
  rw [storedBlocks_replay, hacc]

theorem isSome_cumulativeWork {c : Blockchain} (hc : c.Inv κ chainId) {b : Block}
    (hb : b ∈ c.storedBlocks) : (c.cumulativeWork (b.id κ)).isSome = true := by
  obtain ⟨i, hi, rfl⟩ := List.mem_iff_getElem.mp hb
  have hblock : c.block i = c.storedBlocks[i] := by
    rw [Blockchain.block, List.getD_eq_getElem _ _ hi]
  have hindex := (hc.index (c.storedBlocks[i].id κ) i).mpr ⟨hi, by rw [hblock]⟩
  rw [Blockchain.cumulativeWork, hindex]
  rfl

/-- All that `rebuild_database` can object to is a location that is no SQLite integer. -/
theorem rebuildDatabase_storeOf {bs : List Block}
    (hacc : accepted κ (Blockchain.new κ chainId) bs = bs)
    (h : ∀ p ∈ (genesisBlock κ chainId :: bs).zip
      (locations κ 0 (genesisBlock κ chainId :: bs)),
      p.2.1 ≤ maxSqliteInt ∧ p.2.2 ≤ maxSqliteInt) :
    (storeOf κ chainId bs).rebuildDatabase κ true = .none := by
  have hstored := storedBlocks_storeOf hacc
  have hrecords : (storeOf κ chainId bs).records
      = locations κ 0 (genesisBlock κ chainId :: bs) := rfl
  have hlength : ¬ (genesisBlock κ chainId :: bs).length
      ≠ (locations κ 0 (genesisBlock κ chainId :: bs)).length := by
    rw [length_locations]
    exact not_not.mpr rfl
  rw [rebuildDatabase, if_neg (not_not.mpr rfl), hstored, hrecords, if_neg hlength, if_pos]
  refine List.all_eq_true.mpr ?_
  intro p hp
  have hblock : p.1 ∈ (storeOf κ chainId bs).blockchain.storedBlocks := by
    rw [hstored]
    exact (List.of_mem_zip hp).1
  simp only [Bool.and_eq_true, decide_eq_true_eq]
  exact ⟨⟨isSome_cumulativeWork (Blockchain.inv_replay κ chainId bs) hblock, (h p hp).1⟩,
    (h p hp).2⟩

theorem rebuildDatabase_take {bs : List Block} (i : Nat)
    (hacc : accepted κ (Blockchain.new κ chainId) bs = bs)
    (h : (storeOf κ chainId bs).rebuildDatabase κ true = .none) :
    (storeOf κ chainId (bs.take i)).rebuildDatabase κ true = .none := by
  have hbounds := (le_of_rebuildDatabase h).2
  rw [storedBlocks_storeOf hacc] at hbounds
  refine rebuildDatabase_storeOf (accepted_take bs hacc) ?_
  intro p hp
  have hsplit : genesisBlock κ chainId :: bs
      = (genesisBlock κ chainId :: bs.take i) ++ bs.drop i := by
    rw [List.cons_append, List.take_append_drop]
  refine hbounds p ?_
  show p ∈ (genesisBlock κ chainId :: bs).zip (locations κ 0 (genesisBlock κ chainId :: bs))
  rw [hsplit, locations_append, List.zip_append (length_locations _ 0).symm]
  exact List.mem_append_left _ hp

theorem le_of_mem_locations (bs : List Block) :
    ∀ {offset : Nat} {l : Nat × Nat}, l ∈ locations κ offset bs →
      l.1 + l.2 ≤ offset + (bs.flatMap (encodeRecord κ)).length := by
  induction bs with
  | nil => intro offset l h; exact absurd h List.not_mem_nil
  | cons b bs ih =>
      intro offset l h
      rw [List.flatMap_cons, List.length_append]
      rw [locations] at h
      rcases List.mem_cons.mp h with rfl | h
      · omega
      · have hrest := ih h
        omega

theorem logOf_take (bs : List Block) (i : Nat) :
    (logOf κ chainId bs).take (logOf κ chainId (bs.take i)).length
      = logOf κ chainId (bs.take i) := by
  have hsplit : logOf κ chainId bs
      = logOf κ chainId (bs.take i) ++ (bs.drop i).flatMap (encodeRecord κ) := by
    rw [logOf, logOf, ← List.flatMap_append, List.cons_append, List.take_append_drop]
  rw [hsplit, List.take_left]

theorem inv_storeOf {bs : List Block} (hchain : SupportedChain chainId)
    (hwf : ∀ b ∈ bs, b.WellFormed κ) (hacc : accepted κ (Blockchain.new κ chainId) bs = bs)
    (h : (storeOf κ chainId bs).rebuildDatabase κ true = .none) :
    (storeOf κ chainId bs).Inv κ chainId := by
  have hstored := storedBlocks_storeOf hacc
  refine ⟨hchain, ?_, ?_, ⟨bs, hacc, rfl⟩, ?_, h⟩
  · rw [hstored]
    rfl
  · rw [hstored]
    rfl
  · rw [hstored]
    exact List.forall_mem_cons.mpr ⟨Block.wellFormed_genesis hchain, hwf⟩

/-- `open` accepts exactly the logs of blocks accepted in turn, as the store of those
blocks.  A log cut after a record opens as the store of the blocks before the cut;
cut inside a record it is refused with `invalid_record_size`. -/
theorem openStore_language (κ : Crypto) (hlaw : κ.SignatureLaw) (chainId : UInt32)
    (hchain : SupportedChain chainId)
    (hgenesis : (genesisBlock κ 1).id κ ≠ (genesisBlock κ 2).id κ) (file : Bytes)
    (hrebuild : ∀ bs, accepted κ (Blockchain.new κ chainId) bs = bs → file = logOf κ chainId bs →
      (storeOf κ chainId bs).rebuildDatabase κ true = .none) :
    (∀ s, openStore κ chainId {} (some file) = .ok s ↔
      ∃ bs : List Block, (∀ b ∈ bs, b.Obtainable κ) ∧
        accepted κ (Blockchain.new κ chainId) bs = bs ∧ file = logOf κ chainId bs ∧
        s = storeOf κ chainId bs) ∧
    (∀ bs : List Block, (∀ b ∈ bs, b.Obtainable κ) →
      accepted κ (Blockchain.new κ chainId) bs = bs → file = logOf κ chainId bs →
      (∀ i ≤ bs.length,
        openStore κ chainId {} (some (file.take (logOf κ chainId (bs.take i)).length))
          = .ok (storeOf κ chainId (bs.take i))) ∧
      (∀ k, 0 < k → k < file.length →
        (∀ i ≤ bs.length, k ≠ (logOf κ chainId (bs.take i)).length) →
        openStore κ chainId {} (some (file.take k)) = .error .invalidRecordSize)) := by
  refine ⟨?_, ?_⟩
  · intro s
    constructor
    · exact log_of_openStore hchain hgenesis
    · rintro ⟨bs, hbs, hacc, hfile, rfl⟩
      have hinv := inv_storeOf hchain (fun b hb => (hbs b hb).wellFormed hlaw) hacc
        (hrebuild bs hacc hfile)
      rw [hfile]
      exact hinv.reopen
  · intro bs hbs hacc hfile
    have hwf : ∀ b ∈ bs, b.WellFormed κ := fun b hb => (hbs b hb).wellFormed hlaw
    have hinv := inv_storeOf hchain hwf hacc (hrebuild bs hacc hfile)
    refine ⟨?_, ?_⟩
    · intro i _
      rw [hfile, logOf_take]
      exact (inv_storeOf hchain (fun b hb => hwf b (List.mem_of_mem_take hb))
        (accepted_take bs hacc) (rebuildDatabase_take i hacc (hrebuild bs hacc hfile))).reopen
    · intro k hpos hlt hboundary
      have hlength : (logOf κ chainId bs).length ≤ 2 ^ 64 - 1 := hinv.length_le
      have hinside : ∀ i ≤ (genesisBlock κ chainId :: bs).length,
          k ≠ (((genesisBlock κ chainId :: bs).take i).flatMap (encodeRecord κ)).length := by
        intro i hi
        cases i with
        | zero => exact Nat.ne_of_gt hpos
        | succ i =>
            rw [List.length_cons] at hi
            exact hboundary i (by omega)
      rw [hfile] at hlt
      obtain ⟨i, d, m, hi, hm, hm', htake⟩ := take_flatMap_inside (encodeRecord κ) _ hlt hinside
      rw [hfile]
      refine openStore_torn hchain hwf hacc ?_ hi hm hm' htake
      exact (List.length_take_le' _ _).trans hlength

/-- The log of one mined block, whole, cut after Genesis, and cut inside a record. -/
theorem openStore_language_mined :
    let file := logOf reference 2 [minedFirst]
    openStore reference 2 {} (some file) = .ok (storeOf reference 2 [minedFirst]) ∧
    openStore reference 2 {} (some (file.take 209)) = .ok (storeOf reference 2 []) ∧
    openStore reference 2 {} (some (file.take 300)) = .error .invalidRecordSize := by
  intro file
  have hall : ∀ b ∈ [minedFirst], b.Obtainable reference :=
    List.forall_mem_cons.mpr ⟨obtainable_minedFirst, fun _ hmem => absurd hmem List.not_mem_nil⟩
  have hacc : accepted reference (Blockchain.new reference 2) [minedFirst] = [minedFirst] := by
    decide +kernel
  have hlengths : file.length = 418 ∧ (logOf reference 2 []).length = 209 := by decide +kernel
  have h := openStore_language reference reference_signatureLaw 2 (by decide) (by decide +kernel)
    file ?_
  · obtain ⟨hwhole, hcut⟩ := h
    obtain ⟨hafter, hinside⟩ := hcut _ hall hacc rfl
    refine ⟨(hwhole _).mpr ⟨_, hall, hacc, rfl, rfl⟩, ?_, ?_⟩
    · have h0 := hafter 0 (Nat.zero_le _)
      rw [List.take_zero, hlengths.2] at h0
      exact h0
    · refine hinside 300 (by decide) (by rw [hlengths.1]; decide) ?_
      intro i hi heq
      have hi' : i = 0 ∨ i = 1 := by
        rw [List.length_singleton] at hi
        omega
      rcases hi' with rfl | rfl
      · rw [List.take_zero, hlengths.2] at heq
        exact absurd heq (by decide)
      · have hfile : (logOf reference 2 ([minedFirst].take 1)).length = 418 := hlengths.1
        rw [hfile] at heq
        exact absurd heq (by decide)
  · intro bs hbs hfile
    refine rebuildDatabase_storeOf hbs ?_
    intro p hp
    have hle := le_of_mem_locations _ (List.of_mem_zip hp).2
    have hsum : ((genesisBlock reference 2 :: bs).flatMap (encodeRecord reference)).length
      = 418 := by
      rw [← hlengths.1]
      exact congrArg List.length hfile.symm
    rw [hsum] at hle
    unfold maxSqliteInt
    omega

end ChainStore

end BBC
