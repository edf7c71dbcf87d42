/-
# `BBC.Node.SyncPayload` — what the two synchronization payloads say

`handle_get_blocks` and `handle_blocks` walk bytes that a peer has chosen.  Three things
are said about the walk, for every string of bytes:

    it stays inside      each read made with its bounds, nothing ever stops
    it means this        a request is a list of entries, a response a list of records
    it is inverted       what the server writes is what the requester reads back
-/
import BBC.Chain.BlockReads
import BBC.Chain.Catchup
import BBC.Chain.BlockCodec
import BBC.Node.SyncRuns

namespace BBC

open ByteCodec

variable {κ : Crypto} {blocks : List Block} {payload : Bytes}

/-! ## The locator of a request -/

/-- The entries of a locator, read from an offset on. -/
def locatorEntries (payload : Bytes) : Nat → Nat → List (UInt64 × Hash256)
  | 0, _ => []
  | count + 1, offset =>
      (readU64Le payload offset, readArray 32 payload (offset + 8))
        :: locatorEntries payload count (offset + blockLocatorEntrySize)

/-- The number of entries that a request announces, and the entries. -/
def locatorCount (payload : Bytes) : Nat := (readU16Le payload 8).toNat

def requestEntries (payload : Bytes) : List (UInt64 × Hash256) :=
  locatorEntries payload (locatorCount payload) 10

/-- The number of blocks that it asks for. -/
def requestedCount (payload : Bytes) : Nat :=
  (readU16Le payload (10 + locatorCount payload * blockLocatorEntrySize)).toNat

/-- A request that the server goes into. -/
structure RequestValid (payload : Bytes) : Prop where
  count_pos : 0 < locatorCount payload
  count_le : locatorCount payload ≤ maximumBlockLocatorEntries
  length : 10 + locatorCount payload * blockLocatorEntrySize + 2 = payload.length
  requested_pos : 0 < requestedCount payload
  requested_le : requestedCount payload ≤ maximumBlocksPerSyncBatch

/-- The test that the server makes of an entry. -/
def Matches (κ : Crypto) (blocks : List Block) (entry : UInt64 × Hash256) : Prop :=
  entry.1.toNat < blocks.length ∧ (blocks.getD entry.1.toNat default).id κ = entry.2

instance (κ : Crypto) (blocks : List Block) (entry : UInt64 × Hash256) :
    Decidable (Matches κ blocks entry) := inferInstanceAs (Decidable (_ ∧ _))

/-- The entry names a block of the chain by height and id. -/
def OnChain (κ : Crypto) (blocks : List Block) (entry : UInt64 × Hash256) : Prop :=
  ∃ b ∈ blocks, b.height = entry.1 ∧ b.id κ = entry.2

/-- The active blocks stand at their heights, so the subscript finds the block. -/
theorem Blockchain.Inv.matches_iff {chainId : UInt32} {c : Blockchain} (h : c.Inv κ chainId)
    {entry : UInt64 × Hash256} : Matches κ c.blocks entry ↔ OnChain κ c.blocks entry := by
  constructor
  · rintro ⟨hlt, hid⟩
    rw [List.getD_eq_getElem _ _ hlt] at hid
    refine ⟨_, List.getElem_mem hlt, ?_, hid⟩
    exact UInt64.toNat_inj.mp (h.height_of_getElem? (List.getElem?_eq_getElem hlt))
  · rintro ⟨b, hb, hheight, hid⟩
    obtain ⟨p, hp⟩ := List.mem_iff_getElem?.mp hb
    have hat : entry.1.toNat = p := by
      rw [← hheight]
      exact h.height_of_getElem? hp
    obtain ⟨hlt, hget⟩ := List.getElem?_eq_some_iff.mp hp
    rw [Matches, hat]
    refine ⟨hlt, ?_⟩
    rw [List.getD_eq_getElem _ _ hlt, hget]
    exact hid

theorem matchLocator_eq (κ : Crypto) (blocks : List Block) (payload : Bytes) (count : Nat) :
    ∀ offset, matchLocator κ blocks payload count offset
      = ((locatorEntries payload count offset).find? fun entry => Matches κ blocks entry).map
          fun entry => entry.1.toNat := by
  induction count with
  | zero => intro offset; rfl
  | succ count ih =>
      intro offset
      have hturn : matchLocator κ blocks payload (count + 1) offset
          = if Matches κ blocks (readU64Le payload offset, readArray 32 payload (offset + 8)) then
              some (readU64Le payload offset).toNat
            else matchLocator κ blocks payload count (offset + blockLocatorEntrySize) := rfl
      rw [hturn, locatorEntries, List.find?_cons]
      by_cases hmatch : Matches κ blocks
          (readU64Le payload offset, readArray 32 payload (offset + 8))
      · rw [if_pos hmatch, decide_eq_true hmatch]
        rfl
      · rw [if_neg hmatch, decide_eq_false hmatch, ih]

/-! ## The answer -/

theorem answerGetBlocks_eq (κ : Crypto) (blocks : List Block) (payload : Bytes) :
    answerGetBlocks κ blocks payload
      = if locatorCount payload = 0 ∨ locatorCount payload > maximumBlockLocatorEntries
            ∨ 10 + locatorCount payload * blockLocatorEntrySize + 2 ≠ payload.length then
          (syncStatusInvalidRequest, [])
        else if requestedCount payload = 0
            ∨ requestedCount payload > maximumBlocksPerSyncBatch then
          (syncStatusInvalidRequest, [])
        else
          match matchLocator κ blocks payload (locatorCount payload) 10 with
          | none => (syncStatusLocatorNotFound, [])
          | some matchedHeight =>
              (syncStatusOk, subspan blocks (matchedHeight + 1)
                (min blocks.length (matchedHeight + 1 + requestedCount payload)
                  - (matchedHeight + 1))) := rfl

theorem answerGetBlocks_of_invalid (h : ¬ RequestValid payload) :
    answerGetBlocks κ blocks payload = (syncStatusInvalidRequest, []) := by
  rw [answerGetBlocks_eq]
  split_ifs with hcount hrequested
  · rfl
  · rfl
  · simp only [not_or, not_lt, ne_eq, not_not, gt_iff_lt] at hcount hrequested
    exact absurd ⟨Nat.pos_of_ne_zero hcount.1, hcount.2.1, hcount.2.2,
      Nat.pos_of_ne_zero hrequested.1, hrequested.2⟩ h

/-- The blocks that follow a matching entry. -/
def following (blocks : List Block) (entry : UInt64 × Hash256) (requested : Nat) : List Block :=
  (blocks.drop (entry.1.toNat + 1)).take requested

/-- A valid request is answered from the first entry that matches. -/
theorem answerGetBlocks_of_valid (h : RequestValid payload) :
    answerGetBlocks κ blocks payload
      = match (requestEntries payload).find? fun entry => Matches κ blocks entry with
        | none => (syncStatusLocatorNotFound, [])
        | some entry => (syncStatusOk, following blocks entry (requestedCount payload)) := by
  have hcount : ¬ (locatorCount payload = 0 ∨ locatorCount payload > maximumBlockLocatorEntries
      ∨ 10 + locatorCount payload * blockLocatorEntrySize + 2 ≠ payload.length) := by
    simp only [not_or, not_lt, ne_eq, not_not, gt_iff_lt]
    exact ⟨Nat.pos_iff_ne_zero.mp h.count_pos, h.count_le, h.length⟩
  have hrequested : ¬ (requestedCount payload = 0
      ∨ requestedCount payload > maximumBlocksPerSyncBatch) := by
    simp only [not_or, not_lt, gt_iff_lt]
    exact ⟨Nat.pos_iff_ne_zero.mp h.requested_pos, h.requested_le⟩
  rw [answerGetBlocks_eq, if_neg hcount, if_neg hrequested, matchLocator_eq, requestEntries]
  cases hfind : (locatorEntries payload (locatorCount payload) 10).find?
      fun entry => Matches κ blocks entry with
  | none => rfl
  | some entry =>
      have hmatch : Matches κ blocks entry := by
        simpa using List.find?_some hfind
      have hlast : min blocks.length (entry.1.toNat + 1 + requestedCount payload)
          - (entry.1.toNat + 1)
            = min (requestedCount payload) (blocks.drop (entry.1.toNat + 1)).length := by
        have := hmatch.1
        rw [List.length_drop]
        omega
      rw [Option.map_some]
      dsimp only
      rw [hlast, subspan, following, ← List.take_eq_take_min]

/-! ## The server reads inside the request -/

/-- The locator loop with bounds, of the payload and of the active chain. -/
def matchLocatorIn (κ : Crypto) (blocks : List Block) (payload : Bytes) :
    Nat → Nat → Option (Option Nat)
  | 0, _ => some none
  | count + 1, offset => do
      let height ← readU64In payload offset
      let id ← readArrayIn 32 payload (offset + 8)
      if height.toNat < blocks.length then
        let block ← blocks[height.toNat]?
        if block.id κ = id then pure (some height.toNat)
        else matchLocatorIn κ blocks payload count (offset + blockLocatorEntrySize)
      else matchLocatorIn κ blocks payload count (offset + blockLocatorEntrySize)

/-- The blocks at `first`, `first + 1`, … , each with its bound. -/
def blocksIn (blocks : List Block) : Nat → Nat → Option (List Block)
  | _, 0 => some []
  | first, count + 1 => do
      let block ← blocks[first]?
      let rest ← blocksIn blocks (first + 1) count
      pure (block :: rest)

/-- The body of `handle_get_blocks` with bounds: the request id, the status, the blocks. -/
def answerGetBlocksIn (κ : Crypto) (blocks : List Block) (payload : Bytes) :
    Option (UInt64 × Byte × List Block) := do
  let requestId ← readU64In payload 0
  let count ← readU16In payload 8
  let requestedCountOffset := 10 + count.toNat * blockLocatorEntrySize
  if count.toNat = 0 ∨ count.toNat > maximumBlockLocatorEntries
      ∨ requestedCountOffset + 2 ≠ payload.length then
    pure (requestId, syncStatusInvalidRequest, [])
  else
    let requested ← readU16In payload requestedCountOffset
    if requested.toNat = 0 ∨ requested.toNat > maximumBlocksPerSyncBatch then
      pure (requestId, syncStatusInvalidRequest, [])
    else
      match ← matchLocatorIn κ blocks payload count.toNat 10 with
      | none => pure (requestId, syncStatusLocatorNotFound, [])
      | some matchedHeight =>
          let first := matchedHeight + 1
          let last := min blocks.length (first + requested.toNat)
          let served ← blocksIn blocks first (last - first)
          pure (requestId, syncStatusOk, served)

theorem matchLocatorIn_eq (κ : Crypto) (blocks : List Block) (payload : Bytes) (count : Nat) :
    ∀ {offset : Nat}, offset + count * blockLocatorEntrySize ≤ payload.length →
      matchLocatorIn κ blocks payload count offset
        = some (matchLocator κ blocks payload count offset) := by
  induction count with
  | zero => intro offset _; rfl
  | succ count ih =>
      intro offset hfits
      have hsize : blockLocatorEntrySize = 40 := rfl
      rw [Nat.succ_mul] at hfits
      rw [matchLocatorIn, matchLocator, readU64In_eq (by omega), readArrayIn_eq (by omega)]
      simp only [Option.bind_eq_bind, Option.bind_some, ih (show offset + blockLocatorEntrySize
        + count * blockLocatorEntrySize ≤ payload.length by omega)]
      by_cases hlt : (readU64Le payload offset).toNat < blocks.length
      · rw [if_pos hlt, List.getElem?_eq_getElem hlt, List.getD_eq_getElem _ _ hlt]
        simp only [Option.bind_some, hlt, true_and]
        split_ifs
        · rfl
        · rfl
      · simp only [hlt, false_and, if_false]

theorem blocksIn_eq (blocks : List Block) (count : Nat) :
    ∀ {first : Nat}, first + count ≤ blocks.length →
      blocksIn blocks first count = some (subspan blocks first count) := by
  induction count with
  | zero =>
      intro first _
      rw [blocksIn, subspan, List.take_zero]
  | succ count ih =>
      intro first hfits
      have hlt : first < blocks.length := by omega
      have hcons : subspan blocks first (count + 1)
          = blocks[first] :: subspan blocks (first + 1) count := by
        rw [subspan, List.drop_eq_getElem_cons hlt, List.take_succ_cons, subspan]
      rw [blocksIn, List.getElem?_eq_getElem hlt, ih (by omega), hcons]
      rfl

/-- `handle_get_blocks` reads inside the payload and inside the active chain. -/
theorem answerGetBlocksIn_eq (κ : Crypto) (blocks : List Block)
    (hsize : getBlocksPayloadMinimumSize ≤ payload.length) :
    answerGetBlocksIn κ blocks payload
      = some (readU64Le payload 0, answerGetBlocks κ blocks payload) := by
  have hminimum : 52 ≤ payload.length := hsize
  rw [answerGetBlocksIn, answerGetBlocks, readU64In_eq (by omega), readU16In_eq (by omega)]
  simp only [Option.bind_eq_bind, Option.bind_some]
  by_cases hcount : (readU16Le payload 8).toNat = 0
      ∨ (readU16Le payload 8).toNat > maximumBlockLocatorEntries
      ∨ 10 + (readU16Le payload 8).toNat * blockLocatorEntrySize + 2 ≠ payload.length
  · rw [if_pos hcount, if_pos hcount]
    rfl
  have hlength : 10 + (readU16Le payload 8).toNat * blockLocatorEntrySize + 2 = payload.length := by
    simp only [not_or, not_not, ne_eq] at hcount
    exact hcount.2.2
  rw [if_neg hcount, if_neg hcount, readU16In_eq (by omega),
    matchLocatorIn_eq κ blocks payload _ (by omega)]
  simp only [Option.bind_some]
  split_ifs
  · rfl
  cases hmatch : matchLocator κ blocks payload (readU16Le payload 8).toNat 10 with
  | none => rfl
  | some matchedHeight =>
      have hlt : matchedHeight < blocks.length := by
        rw [matchLocator_eq] at hmatch
        obtain ⟨entry, hfind, rfl⟩ := Option.map_eq_some_iff.mp hmatch
        have hentry : Matches κ blocks entry := by
          simpa using List.find?_some hfind
        exact hentry.1
      dsimp only
      rw [blocksIn_eq blocks _ (by omega)]
      rfl

/-! ## The records of a response -/

/-- A string of records, and the blocks they hold. -/
inductive Records (κ : Crypto) : Bytes → List Block → Prop
  | nil : Records κ [] []
  | cons {record rest : Bytes} {block : Block} {blocks : List Block} :
      blockHeaderSize ≤ record.length → record.length ≤ maximumBlockSize →
      deserializeBlock κ record = .ok block → Records κ rest blocks →
      Records κ (encodeU32Le (UInt32.ofNat record.length) ++ (record ++ rest)) (block :: blocks)

theorem toNat_recordSize {size : Nat} (h : size ≤ maximumBlockSize) :
    (UInt32.ofNat size).toNat = size := by
  have hmaximum : maximumBlockSize = 161165 := rfl
  exact UInt32.toNat_ofNat_of_lt' (Nat.lt_of_le_of_lt h (by rw [hmaximum]; decide))

/-- The loop accepts the records, read to the end of the payload, and nothing else. -/
theorem decodeBlocks_iff (κ : Crypto) (payload : Bytes) (count : Nat) :
    ∀ {offset : Nat} {blocks : List Block}, offset ≤ payload.length →
      (decodeBlocks κ payload count offset = some (blocks, payload.length)
        ↔ blocks.length = count ∧ Records κ (payload.drop offset) blocks) := by
  induction count with
  | zero =>
      intro offset blocks hoffset
      rw [decodeBlocks, Option.some.injEq, Prod.mk.injEq]
      constructor
      · rintro ⟨rfl, rfl⟩
        rw [List.drop_length]
        exact ⟨rfl, .nil⟩
      · rintro ⟨hnil, hrecords⟩
        obtain rfl := List.length_eq_zero_iff.mp hnil
        generalize hrest : payload.drop offset = rest at hrecords
        cases hrecords
        exact ⟨rfl, Nat.le_antisymm hoffset (List.drop_eq_nil_iff.mp hrest)⟩
  | succ count ih =>
      intro offset blocks hoffset
      rw [decodeBlocks]
      constructor
      · intro h
        split_ifs at h with hshort
        dsimp only at h
        split_ifs at h with hrange
        simp only [not_or, not_lt, gt_iff_lt] at hshort hrange
        obtain ⟨hlow, hhigh, hfits⟩ := hrange
        split at h
        · cases h
        rename_i block hblock
        split at h
        · cases h
        rename_i rest last hrest
        cases h
        obtain ⟨hlength, hrecords⟩ := (ih (by omega)).mp hrest
        refine ⟨congrArg (· + 1) hlength, ?_⟩
        have hrecord : (subspan payload (offset + 4) (readU32Le payload offset).toNat).length
            = (readU32Le payload offset).toNat := length_subspan (by omega)
        have hsplit : payload.drop offset
            = encodeU32Le (UInt32.ofNat
                (subspan payload (offset + 4) (readU32Le payload offset).toNat).length)
              ++ (subspan payload (offset + 4) (readU32Le payload offset).toNat
                ++ payload.drop (offset + 4 + (readU32Le payload offset).toNat)) := by
          rw [hrecord, UInt32.ofNat_toNat, encodeU32Le_readU32Le (by omega), subspan_append_drop,
            subspan_append_drop]
        rw [hsplit]
        exact .cons (by rw [hrecord]; exact hlow) (by rw [hrecord]; exact hhigh) hblock hrecords
      · rintro ⟨hlength, hrecords⟩
        generalize hdrop : payload.drop offset = string at hrecords
        cases hrecords with
        | nil => cases hlength
        | @cons record rest block blocks hlow hhigh hblock hrest =>
            have hsize : (readU32Le payload offset).toNat = record.length := by
              rw [readU32Le_of_drop hdrop, toNat_recordSize hhigh]
            have hbody : payload.drop (offset + 4) = record ++ rest :=
              drop_of_drop _ hdrop (by rw [length_encodeU32Le])
            have hafter : payload.drop (offset + 4 + record.length) = rest :=
              drop_of_drop _ hbody rfl
            have htotal : payload.length - offset = 4 + (record.length + rest.length) := by
              have := congrArg List.length hdrop
              simpa using this
            have htail : decodeBlocks κ payload count (offset + 4 + record.length)
                = some (blocks, payload.length) :=
              (ih (by omega)).mpr ⟨Nat.succ.inj hlength, by rw [hafter]; exact hrest⟩
            rw [if_neg (by omega)]
            dsimp only
            rw [hsize, if_neg (by omega), subspan_of_drop hbody rfl, hblock]
            dsimp only
            rw [htail]

/-- A response that is gone into: status, count, records, and nothing behind them. -/
theorem readBlocks_iff (hsize : blocksPayloadMinimumSize ≤ payload.length) :
    readBlocks κ payload = some blocks
      ↔ payload.getD 8 0 = syncStatusOk ∧ blocks.length ≤ maximumBlocksPerSyncBatch ∧
        blocks.length = (readU16Le payload 9).toNat ∧
        Records κ (payload.drop blocksPayloadMinimumSize) blocks := by
  have hrecords : decodeBlocks κ payload (readU16Le payload 9).toNat blocksPayloadMinimumSize
      = some (blocks, payload.length) ↔ _ :=
    decodeBlocks_iff κ payload (readU16Le payload 9).toNat hsize
  rw [readBlocks]
  constructor
  · intro h
    split_ifs at h with hstatus hcount
    split at h
    · cases h
    rename_i decoded offset hdecoded
    split_ifs at h with hend
    cases h
    rw [not_not.mp hend] at hdecoded
    obtain ⟨hlength, hstring⟩ := hrecords.mp hdecoded
    refine ⟨not_not.mp hstatus, ?_, hlength, hstring⟩
    rw [hlength]
    exact not_lt.mp hcount
  · rintro ⟨hstatus, hcount, hlength, hstring⟩
    rw [if_neg (not_not.mpr hstatus), if_neg (by rw [← hlength]; exact not_lt.mpr hcount),
      hrecords.mpr ⟨hlength, hstring⟩]
    exact if_neg (not_not.mpr rfl)

/-- The record of a block. -/
def syncRecord (block : Block) : Bytes :=
  encodeU32Le (UInt32.ofNat block.serialize.length) ++ block.serialize

theorem records_encode {blocks : List Block} (hwell : ∀ b ∈ blocks, b.WellFormed κ) :
    Records κ (blocks.flatMap syncRecord) blocks := by
  induction blocks with
  | nil => exact .nil
  | cons block rest ih =>
      have hblock := hwell block List.mem_cons_self
      rw [List.flatMap_cons, syncRecord, List.append_assoc]
      refine .cons ?_ block.length_serialize_le (Block.deserialize_serialize hblock)
        (ih fun b hb => hwell b (List.mem_cons_of_mem _ hb))
      rw [block.length_serialize]
      exact Nat.le_add_right _ _

/-! ## A written response -/

theorem encodeBlocks_eq (requestId : UInt64) (status : Byte) (blocks : List Block) :
    encodeBlocks requestId status blocks
      = encodeU64Le requestId ++ ([status] ++ (encodeU16Le (UInt16.ofNat blocks.length)
          ++ blocks.flatMap syncRecord)) := rfl

theorem encodeBlocks_layout (requestId : UInt64) (status : Byte) {blocks : List Block}
    (hcount : blocks.length ≤ maximumBlocksPerSyncBatch) :
    readU64Le (encodeBlocks requestId status blocks) 0 = requestId ∧
      (encodeBlocks requestId status blocks).getD 8 0 = status ∧
      (readU16Le (encodeBlocks requestId status blocks) 9).toNat = blocks.length ∧
      (encodeBlocks requestId status blocks).drop blocksPayloadMinimumSize
        = blocks.flatMap syncRecord := by
  have hid : (encodeBlocks requestId status blocks).drop 0 = _ :=
    encodeBlocks_eq requestId status blocks
  have hstatus := drop_of_drop 8 hid (by rw [length_encodeU64Le])
  have hnumber := drop_of_drop 9 hstatus rfl
  have hbody := drop_of_drop 11 hnumber (by rw [length_encodeU16Le])
  refine ⟨readU64Le_of_drop hid, ?_, ?_, hbody⟩
  · have hhead := congrArg List.head? hstatus
    rw [List.head?_drop] at hhead
    rw [List.getD_eq_getElem?_getD, hhead]
    rfl
  · rw [readU16Le_of_drop hnumber,
      UInt16.toNat_ofNat_of_lt' (Nat.lt_of_le_of_lt hcount (by decide))]

theorem length_encodeBlocks (requestId : UInt64) (status : Byte) (blocks : List Block) :
    (encodeBlocks requestId status blocks).length = 11 + (blocks.flatMap syncRecord).length := by
  rw [encodeBlocks_eq]
  simp only [List.length_append, length_encodeU64Le, length_encodeU16Le, List.length_singleton]
  omega

theorem length_records_le (blocks : List Block) :
    (blocks.flatMap syncRecord).length ≤ blocks.length * (4 + maximumBlockSize) := by
  induction blocks with
  | nil => exact Nat.le_refl 0
  | cons block rest ih =>
      have hblock := block.length_serialize_le
      rw [List.flatMap_cons, List.length_append, syncRecord, List.length_append,
        length_encodeU32Le, List.length_cons, Nat.succ_mul]
      omega

/-- A full batch of the largest blocks fits into a frame. -/
theorem validPayloadSize_encodeBlocks (requestId : UInt64) (status : Byte) {blocks : List Block}
    (hcount : blocks.length ≤ maximumBlocksPerSyncBatch) :
    validPayloadSize .blocks (encodeBlocks requestId status blocks).length = true := by
  have hrecords := length_records_le blocks
  have hmaximum : blocks.length * (4 + maximumBlockSize) ≤ 4 * (4 + maximumBlockSize) :=
    Nat.mul_le_mul_right _ hcount
  have hsize : maximumBlockSize = 161165 := rfl
  have hframe : maximumFramePayloadSize = 1048576 := rfl
  have hminimum : blocksPayloadMinimumSize = 11 := rfl
  rw [length_encodeBlocks, validPayloadSize, decide_eq_true_eq]
  omega

/-- The requester reads back the blocks that the server wrote, whatever the status. -/
theorem decodeBlocks_encodeBlocks (requestId : UInt64) (status : Byte) {blocks : List Block}
    (hcount : blocks.length ≤ maximumBlocksPerSyncBatch) (hwell : ∀ b ∈ blocks, b.WellFormed κ) :
    decodeBlocks κ (encodeBlocks requestId status blocks) blocks.length blocksPayloadMinimumSize
      = some (blocks, (encodeBlocks requestId status blocks).length) := by
  obtain ⟨-, -, -, hbody⟩ := encodeBlocks_layout requestId status hcount
  have hminimum : blocksPayloadMinimumSize = 11 := rfl
  refine (decodeBlocks_iff κ _ _ ?_).mpr ⟨rfl, ?_⟩
  · rw [length_encodeBlocks]
    omega
  · rw [hbody]
    exact records_encode hwell

theorem readBlocks_encodeBlocks (requestId : UInt64) {blocks : List Block}
    (hcount : blocks.length ≤ maximumBlocksPerSyncBatch) (hwell : ∀ b ∈ blocks, b.WellFormed κ) :
    readBlocks κ (encodeBlocks requestId syncStatusOk blocks) = some blocks := by
  obtain ⟨-, hstatus, hnumber, hbody⟩ := encodeBlocks_layout requestId syncStatusOk hcount
  have hminimum : blocksPayloadMinimumSize = 11 := rfl
  refine (readBlocks_iff ?_).mpr ⟨hstatus, hcount, hnumber.symm, ?_⟩
  · rw [length_encodeBlocks]
    omega
  · rw [hbody]
    exact records_encode hwell

/-! ## A written request -/

/-- The bytes of a locator. -/
def locatorBytes (locator : List (UInt64 × Hash256)) : Bytes :=
  locator.flatMap fun entry => encodeU64Le entry.1 ++ entry.2.toList

theorem length_locatorBytes (locator : List (UInt64 × Hash256)) :
    (locatorBytes locator).length = locator.length * blockLocatorEntrySize := by
  induction locator with
  | nil => rfl
  | cons entry rest ih =>
      have hid : entry.2.toList.length = 32 := entry.2.toList_length
      have hcons : locatorBytes (entry :: rest)
          = (encodeU64Le entry.1 ++ entry.2.toList) ++ locatorBytes rest := rfl
      rw [hcons, List.length_append, List.length_append, length_encodeU64Le, hid, ih,
        List.length_cons, Nat.succ_mul]
      exact Nat.add_comm _ _

theorem locatorEntries_of_drop (locator : List (UInt64 × Hash256)) :
    ∀ {payload post : Bytes} {offset : Nat}, payload.drop offset = locatorBytes locator ++ post →
      locatorEntries payload locator.length offset = locator := by
  induction locator with
  | nil => intro payload post offset _; rfl
  | cons entry rest ih =>
      intro payload post offset h
      have hheight : payload.drop offset
          = encodeU64Le entry.1 ++ (entry.2.toList ++ (locatorBytes rest ++ post)) := by
        rw [h, locatorBytes, List.flatMap_cons, List.append_assoc, List.append_assoc]
        rfl
      have hid := drop_of_drop (offset + 8) hheight (by rw [length_encodeU64Le])
      have hrest := drop_of_drop (offset + blockLocatorEntrySize) hid
        (by rw [entry.2.toList_length]; rfl)
      rw [List.length_cons, locatorEntries, readU64Le_of_drop hheight, readArray_of_drop hid,
        ih hrest]

/-- What `send_sync_request` writes is a valid request for a full batch. -/
theorem encodeGetBlocks_layout (requestId : UInt64) {locator : List (UInt64 × Hash256)}
    (hpos : locator ≠ []) (hcount : locator.length ≤ maximumBlockLocatorEntries) :
    readU64Le (encodeGetBlocks requestId locator) 0 = requestId ∧
      RequestValid (encodeGetBlocks requestId locator) ∧
      requestEntries (encodeGetBlocks requestId locator) = locator ∧
      requestedCount (encodeGetBlocks requestId locator) = maximumBlocksPerSyncBatch := by
  have hid : (encodeGetBlocks requestId locator).drop 0
      = encodeU64Le requestId ++ (encodeU16Le (UInt16.ofNat locator.length)
          ++ (locatorBytes locator
            ++ (encodeU16Le (UInt16.ofNat maximumBlocksPerSyncBatch) ++ []))) := by
    rw [List.append_nil]
    rfl
  have hnumber := drop_of_drop 8 hid (by rw [length_encodeU64Le])
  have hentries := drop_of_drop 10 hnumber (by rw [length_encodeU16Le])
  have hrequested := drop_of_drop (10 + locator.length * blockLocatorEntrySize) hentries
    (by rw [length_locatorBytes])
  have hlocatorCount : locatorCount (encodeGetBlocks requestId locator) = locator.length := by
    rw [locatorCount, readU16Le_of_drop hnumber,
      UInt16.toNat_ofNat_of_lt' (Nat.lt_of_le_of_lt hcount (by decide))]
  have hrequestedCount : requestedCount (encodeGetBlocks requestId locator)
      = maximumBlocksPerSyncBatch := by
    rw [requestedCount, hlocatorCount, readU16Le_of_drop hrequested]
    rfl
  have hlength : (encodeGetBlocks requestId locator).length
      = 10 + locator.length * blockLocatorEntrySize + 2 := by
    have hall := congrArg List.length hid
    simp only [List.drop_zero, List.length_append, length_encodeU64Le, length_encodeU16Le,
      length_locatorBytes, List.length_nil] at hall
    omega
  refine ⟨readU64Le_of_drop hid, ?_, ?_, hrequestedCount⟩
  · constructor
    · rw [hlocatorCount]
      exact List.length_pos_iff.mpr hpos
    · rw [hlocatorCount]
      exact hcount
    · rw [hlocatorCount, hlength]
    · rw [hrequestedCount]
      decide
    · rw [hrequestedCount]
  · rw [requestEntries, hlocatorCount]
    exact locatorEntries_of_drop locator hentries

/-! ## The requester reads inside the response -/

/-- `payload.size() - offset`; `none` is a difference that wraps. -/
def sizeLeft (payload : Bytes) (offset : Nat) : Option Nat :=
  if offset ≤ payload.length then some (payload.length - offset) else none

/-- The record loop with bounds. -/
def decodeBlocksIn (κ : Crypto) (payload : Bytes) :
    Nat → Nat → Option (Option (List Block × Nat))
  | 0, offset => some (some ([], offset))
  | count + 1, offset => do
      let left ← sizeLeft payload offset
      if left < 4 then pure none
      else
        let encodedSize ← readU32In payload offset
        let left ← sizeLeft payload (offset + 4)
        if encodedSize.toNat < blockHeaderSize ∨ encodedSize.toNat > maximumBlockSize
            ∨ left < encodedSize.toNat then pure none
        else
          let window ← subspanIn payload (offset + 4) encodedSize.toNat
          match ← deserializeBlockIn κ window with
          | .error _ => pure none
          | .ok block =>
              match ← decodeBlocksIn κ payload count (offset + 4 + encodedSize.toNat) with
              | none => pure none
              | some (blocks, last) => pure (some (block :: blocks, last))

/-- The reads of `handle_blocks` with bounds: the request id and the checks. -/
def readBlocksIn (κ : Crypto) (payload : Bytes) : Option (UInt64 × Option (List Block)) := do
  let requestId ← readU64In payload 0
  let status ← readByteIn payload 8
  let blockCount ← readU16In payload 9
  if status ≠ syncStatusOk then pure (requestId, none)
  else if blockCount.toNat > maximumBlocksPerSyncBatch then pure (requestId, none)
  else
    match ← decodeBlocksIn κ payload blockCount.toNat blocksPayloadMinimumSize with
    | none => pure (requestId, none)
    | some (blocks, offset) =>
        if offset ≠ payload.length then pure (requestId, none)
        else pure (requestId, some blocks)

theorem decodeBlocksIn_eq (κ : Crypto) (payload : Bytes) (count : Nat) :
    ∀ {offset : Nat}, offset ≤ payload.length →
      decodeBlocksIn κ payload count offset = some (decodeBlocks κ payload count offset) := by
  induction count with
  | zero => intro offset _; rfl
  | succ count ih =>
      intro offset hoffset
      rw [decodeBlocksIn, decodeBlocks, sizeLeft, if_pos hoffset]
      simp only [Option.bind_eq_bind, Option.bind_some]
      by_cases hshort : payload.length - offset < 4
      · rw [if_pos hshort, if_pos hshort]
        rfl
      rw [if_neg hshort, if_neg hshort, readU32In_eq (by omega), sizeLeft, if_pos (by omega)]
      simp only [Option.bind_some]
      by_cases hrange : (readU32Le payload offset).toNat < blockHeaderSize
          ∨ (readU32Le payload offset).toNat > maximumBlockSize
          ∨ payload.length - (offset + 4) < (readU32Le payload offset).toNat
      · rw [if_pos hrange, if_pos hrange]
        rfl
      have hfits : offset + 4 + (readU32Le payload offset).toNat ≤ payload.length := by
        simp only [not_or, not_lt] at hrange
        omega
      rw [if_neg hrange, if_neg hrange, subspanIn_eq hfits]
      simp only [Option.bind_some, deserializeBlockIn_eq]
      cases deserializeBlock κ
          (subspan payload (offset + 4) (readU32Le payload offset).toNat) with
      | error e => rfl
      | ok block =>
          dsimp only
          rw [ih hfits]
          cases decodeBlocks κ payload count
              (offset + 4 + (readU32Le payload offset).toNat) with
          | none => rfl
          | some decoded => rfl

/-- `handle_blocks` reads inside the payload, whatever the bytes are. -/
theorem readBlocksIn_eq (κ : Crypto) (hsize : blocksPayloadMinimumSize ≤ payload.length) :
    readBlocksIn κ payload = some (readU64Le payload 0, readBlocks κ payload) := by
  have hminimum : blocksPayloadMinimumSize = 11 := rfl
  rw [readBlocksIn, readBlocks, readU64In_eq (by omega), readByteIn_eq (by omega),
    readU16In_eq (by omega)]
  simp only [Option.bind_eq_bind, Option.bind_some, decodeBlocksIn_eq κ payload _ hsize]
  split_ifs
  · rfl
  · rfl
  cases decodeBlocks κ payload (readU16Le payload 9).toNat blocksPayloadMinimumSize with
  | none => rfl
  | some decoded =>
      dsimp only
      split_ifs
      · rfl
      · rfl

end BBC
