/-
# `BBC.Network.Framing` — messages on a byte stream

`serialize_frame`, `deserialize_frame_header` and `validate_frame_payload` of
`src/network/protocol.cpp`, and the read loop of `Session` in
`src/network/peer_network.cpp`.

    offset  size
         0     4  network magic
         4     2  wire version
         6     2  message type
         8     4  payload length
        12    32  SHA-256 of the payload
        44     n  payload

All integers are little endian.  The loop reads 44 bytes, learns the length of the
payload and reads that many.  It reads back exactly what was framed, and a stream
it reads to its end is what framing its messages gives.
-/
import BBC.Network.Protocol
import BBC.Crypto.Reference

namespace BBC

open ByteCodec

def frameHeaderSize : Nat := 44
def wireVersion : UInt16 := 1

/-- `network::ProtocolError`. -/
inductive ProtocolError where
  | none
  | invalidHeaderSize
  | invalidMagic
  | unsupportedWireVersion
  | unknownMessageType
  | oversizedPayload
  | invalidPayloadSize
  | invalidChecksum
  | invalidProtocolRange
  deriving DecidableEq, Repr

/-- `network::FrameHeader`. -/
structure FrameHeader where
  type : MessageType
  payloadLength : UInt32
  payloadChecksum : Hash256
  deriving DecidableEq

/-- The value of a `MessageType`. -/
def MessageType.code : MessageType → UInt16
  | .hello => 1
  | .ping => 2
  | .pong => 3
  | .templateRequest => 10
  | .blockTemplate => 11
  | .blockSubmit => 12
  | .block => 13
  | .blockResult => 14
  | .transactionSubmit => 20
  | .transaction => 21
  | .transactionResult => 22
  | .getBlocks => 30
  | .blocks => 31

/-- `decode_message_type`. -/
def decodeMessageType (value : UInt16) : Option MessageType :=
  if value = MessageType.hello.code then some .hello
  else if value = MessageType.ping.code then some .ping
  else if value = MessageType.pong.code then some .pong
  else if value = MessageType.templateRequest.code then some .templateRequest
  else if value = MessageType.blockTemplate.code then some .blockTemplate
  else if value = MessageType.blockSubmit.code then some .blockSubmit
  else if value = MessageType.block.code then some .block
  else if value = MessageType.blockResult.code then some .blockResult
  else if value = MessageType.transactionSubmit.code then some .transactionSubmit
  else if value = MessageType.transaction.code then some .transaction
  else if value = MessageType.transactionResult.code then some .transactionResult
  else if value = MessageType.getBlocks.code then some .getBlocks
  else if value = MessageType.blocks.code then some .blocks
  else none

/-- The 44 bytes in front of a payload. -/
def frameHeader (network : NetworkParameters) (type : MessageType) (payloadLength : UInt32)
    (checksum : Hash256) : Bytes :=
  network.p2pMagic.toList ++ (encodeU16Le wireVersion ++ (encodeU16Le type.code ++
    (encodeU32Le payloadLength ++ checksum.toList)))

/-- `serialize_frame`: nothing when the message cannot be framed. -/
def serializeFrame (κ : Crypto) (chainId : UInt32) (type : MessageType) (payload : Bytes) : Bytes :=
  match networkParametersForChain chainId with
  | none => []
  | some network =>
      if payload.length > maximumFramePayloadSize ∨ payload.length > 2 ^ 32 - 1
          ∨ ¬ validPayloadSize type payload.length then []
      else
        frameHeader network type (UInt32.ofNat payload.length) (κ.sha256 payload) ++ payload

/-- `deserialize_frame_header`. -/
def deserializeFrameHeader (chainId : UInt32) (encoded : Bytes) :
    Except ProtocolError FrameHeader :=
  if encoded.length ≠ frameHeaderSize then .error .invalidHeaderSize
  else
    match networkParametersForChain chainId with
    | none => .error .invalidMagic
    | some network =>
        if subspan encoded 0 4 ≠ network.p2pMagic.toList then .error .invalidMagic
        else if readU16Le encoded 4 ≠ wireVersion then .error .unsupportedWireVersion
        else
          match decodeMessageType (readU16Le encoded 6) with
          | none => .error .unknownMessageType
          | some type =>
              let payloadLength := readU32Le encoded 8
              if payloadLength.toNat > maximumFramePayloadSize then .error .oversizedPayload
              else if ¬ validPayloadSize type payloadLength.toNat then .error .invalidPayloadSize
              else .ok ⟨type, payloadLength, readArray 32 encoded 12⟩

/-- `validate_frame_payload`. -/
def validateFramePayload (κ : Crypto) (header : FrameHeader) (payload : Bytes) : ProtocolError :=
  if payload.length ≠ header.payloadLength.toNat then .invalidPayloadSize
  else if κ.sha256 payload = header.payloadChecksum then .none
  else .invalidChecksum

/-- Why the loop stopped: the stream ended inside a frame, or a check refused it. -/
inductive FrameError where
  | socketReadFailed
  | protocol (error : ProtocolError)
  deriving DecidableEq, Repr

/-- `read_header` and `read_payload`, in turn until the stream ends.  A frame is never
empty, so the length of the stream is fuel enough. -/
def readFrames (κ : Crypto) (chainId : UInt32) : Nat → Bytes → Except FrameError (List Message)
  | 0, _ => .ok []
  | fuel + 1, stream =>
      if stream = [] then .ok []
      else if stream.length < frameHeaderSize then .error .socketReadFailed
      else
        match deserializeFrameHeader chainId (stream.take frameHeaderSize) with
        | .error e => .error (.protocol e)
        | .ok header =>
            let body := stream.drop frameHeaderSize
            let payload := body.take header.payloadLength.toNat
            if body.length < header.payloadLength.toNat then .error .socketReadFailed
            else if validateFramePayload κ header payload ≠ .none then
              .error (.protocol (validateFramePayload κ header payload))
            else
              match readFrames κ chainId fuel (body.drop header.payloadLength.toNat) with
              | .error e => .error e
              | .ok rest => .ok ((header.type, payload) :: rest)

/-- The loop on a whole stream. -/
def readStream (κ : Crypto) (chainId : UInt32) (stream : Bytes) :
    Except FrameError (List Message) :=
  readFrames κ chainId stream.length stream

/-- The stream that carries the given messages. -/
def frames (κ : Crypto) (chainId : UInt32) (messages : List Message) : Bytes :=
  messages.flatMap fun m => serializeFrame κ chainId m.1 m.2

/-! ## Types and sizes -/

theorem decodeMessageType_code (type : MessageType) : decodeMessageType type.code = some type := by
  cases type <;> decide

theorem code_or_rest {value : UInt16} {type candidate : MessageType} {rest : Option MessageType}
    (h : (if value = candidate.code then some candidate else rest) = some type) :
    type.code = value ∨ rest = some type := by
  by_cases hcode : value = candidate.code
  · rw [if_pos hcode] at h
    cases h
    exact Or.inl hcode.symm
  · rw [if_neg hcode] at h
    exact Or.inr h

theorem code_of_decodeMessageType {value : UInt16} {type : MessageType}
    (h : decodeMessageType value = some type) : type.code = value := by
  unfold decodeMessageType at h
  iterate 13
    rcases code_or_rest h with hcode | h
    · exact hcode
  cases h

/-- No type admits a payload above the common limit. -/
theorem le_of_validPayloadSize {type : MessageType} {size : Nat}
    (h : validPayloadSize type size = true) : size ≤ maximumFramePayloadSize := by
  cases type with
  | blockTemplate => exact (of_decide_eq_true h).2.trans (by decide)
  | blockSubmit => exact (of_decide_eq_true h).2.trans (by decide)
  | block => exact (of_decide_eq_true h).2.trans (by decide)
  | getBlocks => exact (of_decide_eq_true h).2.trans (by decide)
  | blocks => exact (of_decide_eq_true h).2
  | _ =>
      -- the other types admit one size only
      rw [of_decide_eq_true h]
      decide

variable {κ : Crypto} {chainId : UInt32} {network : NetworkParameters}

@[simp] theorem length_frameHeader (type : MessageType) (payloadLength : UInt32)
    (checksum : Hash256) :
    (frameHeader network type payloadLength checksum).length = frameHeaderSize := by
  simp [frameHeader, frameHeaderSize]

/-- A frame is empty exactly when the type does not admit the payload's size. -/
theorem serializeFrame_of_valid (hnet : networkParametersForChain chainId = some network)
    {type : MessageType} {payload : Bytes} (h : validPayloadSize type payload.length = true) :
    serializeFrame κ chainId type payload
      = frameHeader network type (UInt32.ofNat payload.length) (κ.sha256 payload) ++ payload := by
  have hle := le_of_validPayloadSize h
  have hsmall : payload.length ≤ 1048576 := hle
  rw [serializeFrame, hnet]
  dsimp only
  rw [if_neg]
  rintro (hbig | hbig | hbad)
  · omega
  · omega
  · exact hbad h

theorem serializeFrame_ne_nil_iff (hnet : networkParametersForChain chainId = some network)
    {type : MessageType} {payload : Bytes} :
    serializeFrame κ chainId type payload ≠ [] ↔ validPayloadSize type payload.length = true := by
  constructor
  · intro hne
    by_contra hbad
    refine hne ?_
    rw [serializeFrame, hnet]
    exact if_pos (Or.inr (Or.inr hbad))
  · intro h hnil
    have hlen := congrArg List.length hnil
    rw [serializeFrame_of_valid hnet h, List.length_append, length_frameHeader,
      frameHeaderSize] at hlen
    simp at hlen

/-- The receiver's header check admits a length field exactly when the type does. -/
theorem deserializeFrameHeader_frameHeader
    (hnet : networkParametersForChain chainId = some network) (type : MessageType)
    (payloadLength : UInt32) (checksum : Hash256) :
    deserializeFrameHeader chainId (frameHeader network type payloadLength checksum)
      = if payloadLength.toNat > maximumFramePayloadSize then .error .oversizedPayload
        else if ¬ validPayloadSize type payloadLength.toNat then .error .invalidPayloadSize
        else .ok ⟨type, payloadLength, checksum⟩ := by
  have hmagic : network.p2pMagic.toList.length = 4 := network.p2pMagic.toList_length
  have d0 : (frameHeader network type payloadLength checksum).drop 0
      = network.p2pMagic.toList ++ (encodeU16Le wireVersion ++ (encodeU16Le type.code ++
        (encodeU32Le payloadLength ++ (checksum.toList ++ [])))) := by
    simp [frameHeader]
  have d4 := drop_of_drop 4 d0 (by rw [hmagic])
  have d6 := drop_of_drop 6 d4 (by simp)
  have d8 := drop_of_drop 8 d6 (by simp)
  have d12 := drop_of_drop 12 d8 (by simp)
  rw [deserializeFrameHeader, if_neg (not_not.mpr (length_frameHeader _ _ _)), hnet]
  dsimp only
  rw [if_neg (not_not.mpr (subspan_of_drop d0 hmagic)),
    if_neg (not_not.mpr (readU16Le_of_drop d4)), readU16Le_of_drop d6, decodeMessageType_code]
  dsimp only
  rw [readU32Le_of_drop d8, readArray_of_drop d12]

theorem deserializeFrameHeader_valid (hnet : networkParametersForChain chainId = some network)
    {type : MessageType} {payloadLength : UInt32}
    (h : validPayloadSize type payloadLength.toNat = true) (checksum : Hash256) :
    deserializeFrameHeader chainId (frameHeader network type payloadLength checksum)
      = .ok ⟨type, payloadLength, checksum⟩ := by
  rw [deserializeFrameHeader_frameHeader hnet, if_neg (Nat.not_lt.mpr (le_of_validPayloadSize h)),
    if_neg (not_not.mpr h)]

/-- A header that is accepted is the header of its own contents. -/
theorem frameHeader_of_deserializeFrameHeader
    (hnet : networkParametersForChain chainId = some network) {encoded : Bytes}
    {header : FrameHeader} (h : deserializeFrameHeader chainId encoded = .ok header) :
    encoded = frameHeader network header.type header.payloadLength header.payloadChecksum ∧
      validPayloadSize header.type header.payloadLength.toNat = true := by
  rw [deserializeFrameHeader] at h
  by_cases hsize : encoded.length = frameHeaderSize
  swap
  · rw [if_pos hsize] at h
    cases h
  rw [if_neg (not_not.mpr hsize), hnet] at h
  dsimp only at h
  split at h
  · cases h
  rename_i hmagic
  split at h
  · cases h
  rename_i hversion
  split at h
  · cases h
  rename_i type htype
  split_ifs at h with hbig hvalid
  cases h
  have hlen : encoded.length = 44 := hsize
  refine ⟨?_, hvalid⟩
  rw [frameHeader, code_of_decodeMessageType htype, ← not_not.mp hmagic, ← not_not.mp hversion,
    encodeU16Le_readU16Le (by omega), encodeU16Le_readU16Le (by omega),
    encodeU32Le_readU32Le (by omega), toList_readArray (by omega),
    subspan_eq_drop (show 12 + 32 = encoded.length by omega), subspan_append_drop,
    subspan_append_drop, subspan_append_drop, subspan_append_drop, List.drop_zero]

/-! ## The loop -/

/-- One turn: the frame at the front of the stream is read and the rest is left. -/
theorem readFrames_cons (hnet : networkParametersForChain chainId = some network)
    {type : MessageType} {payload : Bytes} (h : validPayloadSize type payload.length = true)
    (fuel : Nat) (rest : Bytes) :
    readFrames κ chainId (fuel + 1) (serializeFrame κ chainId type payload ++ rest)
      = match readFrames κ chainId fuel rest with
        | .error e => .error e
        | .ok ms => .ok ((type, payload) :: ms) := by
  have hle : payload.length ≤ 1048576 := le_of_validPayloadSize h
  have hcount : (UInt32.ofNat payload.length).toNat = payload.length :=
    UInt32.toNat_ofNat_of_lt' (show payload.length < 2 ^ 32 by omega)
  have hheader : (frameHeader network type (UInt32.ofNat payload.length)
      (κ.sha256 payload)).length = frameHeaderSize := length_frameHeader _ _ _
  have hsize : validPayloadSize type (UInt32.ofNat payload.length).toNat = true := by
    rw [hcount]
    exact h
  have hparsed := deserializeFrameHeader_valid hnet hsize (κ.sha256 payload)
  rw [serializeFrame_of_valid hnet h, List.append_assoc, readFrames]
  have hne : frameHeader network type (UInt32.ofNat payload.length) (κ.sha256 payload)
      ++ (payload ++ rest) ≠ [] := by
    intro hnil
    have hlen := congrArg List.length hnil
    rw [List.length_append, hheader, frameHeaderSize] at hlen
    simp at hlen
  have hlong : ¬ (frameHeader network type (UInt32.ofNat payload.length) (κ.sha256 payload)
      ++ (payload ++ rest)).length < frameHeaderSize := by
    rw [List.length_append, hheader]
    omega
  have hchecked : validateFramePayload κ ⟨type, UInt32.ofNat payload.length, κ.sha256 payload⟩
      payload = .none := by
    rw [validateFramePayload, if_neg (not_not.mpr hcount.symm), if_pos rfl]
  rw [if_neg hne, if_neg hlong, List.take_left' hheader, hparsed]
  dsimp only
  rw [List.drop_left' hheader, hcount, if_neg (by rw [List.length_append]; omega),
    List.take_left' rfl, if_neg (not_not.mpr hchecked), List.drop_left' rfl]

/-- What was framed is read back, to the last byte. -/
theorem readFrames_frames (hnet : networkParametersForChain chainId = some network)
    (ms : List Message) :
    ∀ {fuel : Nat}, ms.length ≤ fuel → (∀ m ∈ ms, validPayloadSize m.1 m.2.length = true) →
      readFrames κ chainId fuel (frames κ chainId ms) = .ok ms := by
  induction ms with
  | nil =>
      intro fuel _ _
      cases fuel with
      | zero => rfl
      | succ fuel => exact if_pos rfl
  | cons m ms ih =>
      intro fuel hfuel hvalid
      rw [List.length_cons] at hfuel
      obtain ⟨fuel, rfl⟩ : ∃ k, fuel = k + 1 := ⟨fuel - 1, by omega⟩
      obtain ⟨hm, hms⟩ := List.forall_mem_cons.mp hvalid
      rw [frames, List.flatMap_cons, readFrames_cons hnet hm]
      have hrest : readFrames κ chainId fuel
          (ms.flatMap fun m => serializeFrame κ chainId m.1 m.2) = .ok ms := ih (by omega) hms
      rw [hrest]

theorem length_le_frames (hnet : networkParametersForChain chainId = some network)
    (ms : List Message) (h : ∀ m ∈ ms, validPayloadSize m.1 m.2.length = true) :
    ms.length ≤ (frames κ chainId ms).length := by
  induction ms with
  | nil => exact Nat.le_refl _
  | cons m ms ih =>
      obtain ⟨hm, hms⟩ := List.forall_mem_cons.mp h
      have hrest := ih hms
      have hfirst := List.length_pos_of_ne_nil
        ((serializeFrame_ne_nil_iff (κ := κ) hnet).mpr hm)
      rw [frames] at hrest ⊢
      rw [List.flatMap_cons, List.length_cons, List.length_append]
      omega

/-- A stream that is read to its end is the framing of what was read. -/
theorem frames_of_readFrames (hnet : networkParametersForChain chainId = some network)
    (fuel : Nat) :
    ∀ {stream : Bytes} {ms : List Message}, stream.length ≤ fuel →
      readFrames κ chainId fuel stream = .ok ms →
      stream = frames κ chainId ms ∧ ∀ m ∈ ms, validPayloadSize m.1 m.2.length = true := by
  have hempty : ∀ {stream : Bytes}, stream = [] →
      stream = frames κ chainId [] ∧
        ∀ m ∈ ([] : List Message), validPayloadSize m.1 m.2.length = true :=
    fun hnil => ⟨hnil, fun _ hm => absurd hm List.not_mem_nil⟩
  induction fuel with
  | zero =>
      intro stream ms hlen h
      cases h
      exact hempty (List.length_eq_zero_iff.mp (Nat.le_zero.mp hlen))
  | succ fuel ih =>
      intro stream ms hlen h
      rw [readFrames] at h
      by_cases hnil : stream = []
      · rw [if_pos hnil] at h
        cases h
        exact hempty hnil
      rw [if_neg hnil] at h
      by_cases hshort : stream.length < frameHeaderSize
      · rw [if_pos hshort] at h
        cases h
      rw [if_neg hshort] at h
      cases hparsed : deserializeFrameHeader chainId (stream.take frameHeaderSize) with
      | error e => rw [hparsed] at h; cases h
      | ok header =>
          rw [hparsed] at h
          dsimp only at h
          obtain ⟨hbytes, hvalid⟩ := frameHeader_of_deserializeFrameHeader hnet hparsed
          split at h
          · cases h
          rename_i hroom
          split at h
          · cases h
          rename_i hchecked
          have hpayload : ((stream.drop frameHeaderSize).take header.payloadLength.toNat).length
              = header.payloadLength.toNat := List.length_take_of_le (Nat.not_lt.mp hroom)
          have hsum : κ.sha256 ((stream.drop frameHeaderSize).take header.payloadLength.toNat)
              = header.payloadChecksum := by
            have hnone := not_not.mp hchecked
            rw [validateFramePayload, if_neg (not_not.mpr hpayload)] at hnone
            split_ifs at hnone with heq
            exact heq
          split at h
          · cases h
          rename_i rest hrest
          cases h
          have hsize : ((stream.drop frameHeaderSize).drop header.payloadLength.toNat).length
              ≤ fuel := by
            have hpos := List.length_pos_of_ne_nil hnil
            rw [List.length_drop, List.length_drop]
            simp only [frameHeaderSize]
            omega
          obtain ⟨htail, hrestValid⟩ := ih hsize hrest
          have hself : validPayloadSize header.type
              ((stream.drop frameHeaderSize).take header.payloadLength.toNat).length = true := by
            rw [hpayload]
            exact hvalid
          refine ⟨?_, List.forall_mem_cons.mpr ⟨hself, hrestValid⟩⟩
          rw [frames, List.flatMap_cons, serializeFrame_of_valid hnet hself, hpayload, hsum,
            UInt32.ofNat_toNat, ← hbytes]
          have hfold : (rest.flatMap fun m => serializeFrame κ chainId m.1 m.2)
              = frames κ chainId rest := rfl
          rw [hfold, ← htail, List.append_assoc, List.take_append_drop, List.take_append_drop]

/-- The header of one network is no header of the other. -/
theorem deserializeFrameHeader_other {other : UInt32} {parameters : NetworkParameters}
    (hnet : networkParametersForChain chainId = some network)
    (hother : networkParametersForChain other = some parameters) (hne : other ≠ chainId)
    (type : MessageType) (payloadLength : UInt32) (checksum : Hash256) :
    deserializeFrameHeader other (frameHeader network type payloadLength checksum)
      = .error .invalidMagic := by
  have hmagic : network.p2pMagic.toList ≠ parameters.p2pMagic.toList := by
    rcases networkParametersForChain_eq_some hnet with ⟨rfl, rfl⟩ | ⟨rfl, rfl⟩ <;>
      rcases networkParametersForChain_eq_some hother with ⟨rfl, rfl⟩ | ⟨rfl, rfl⟩
    · exact absurd rfl hne
    · decide
    · decide
    · exact absurd rfl hne
  have hfirst : subspan (frameHeader network type payloadLength checksum) 0 4
      = network.p2pMagic.toList :=
    subspan_of_drop (show (frameHeader network type payloadLength checksum).drop 0 = _ from rfl)
      network.p2pMagic.toList_length
  rw [deserializeFrameHeader, if_neg (not_not.mpr (length_frameHeader _ _ _)), hother]
  dsimp only
  rw [hfirst, if_pos hmagic]

/-- Framing is an exact, self-delimiting code. -/
theorem framing_exact (κ : Crypto) (chainId : UInt32) (hchain : SupportedChain chainId) :
    -- what is framed is read back
    (∀ ms : List Message, (∀ m ∈ ms, serializeFrame κ chainId m.1 m.2 ≠ []) →
      readStream κ chainId (frames κ chainId ms) = .ok ms) ∧
    -- what is read to the end was framed
    (∀ (stream : Bytes) (ms : List Message), readStream κ chainId stream = .ok ms →
      stream = frames κ chainId ms ∧ ∀ m ∈ ms, serializeFrame κ chainId m.1 m.2 ≠ []) ∧
    -- the other network refuses the first header
    (∀ other, SupportedChain other → other ≠ chainId → ∀ ms : List Message,
      (∀ m ∈ ms, serializeFrame κ chainId m.1 m.2 ≠ []) → frames κ chainId ms ≠ [] →
      deserializeFrameHeader other ((frames κ chainId ms).take frameHeaderSize)
          = .error .invalidMagic ∧
        readStream κ other (frames κ chainId ms) = .error (.protocol .invalidMagic)) ∧
    -- both ends admit the same sizes
    (∀ (type : MessageType) (payload : Bytes), serializeFrame κ chainId type payload ≠ [] ↔
      validPayloadSize type payload.length = true) ∧
    (∀ network, networkParametersForChain chainId = some network →
      ∀ (type : MessageType) (payloadLength : UInt32) (checksum : Hash256),
        (∃ header, deserializeFrameHeader chainId
          (frameHeader network type payloadLength checksum) = .ok header) ↔
          validPayloadSize type payloadLength.toNat = true) := by
  obtain ⟨network, hnet⟩ := hchain.parameters
  have hvalid : ∀ {ms : List Message}, (∀ m ∈ ms, serializeFrame κ chainId m.1 m.2 ≠ []) →
      ∀ m ∈ ms, validPayloadSize m.1 m.2.length = true :=
    fun h m hm => (serializeFrame_ne_nil_iff hnet).mp (h m hm)
  refine ⟨?_, ?_, ?_, fun type payload => serializeFrame_ne_nil_iff hnet, ?_⟩
  · intro ms hms
    exact readFrames_frames hnet ms (length_le_frames hnet ms (hvalid hms)) (hvalid hms)
  · intro stream ms h
    obtain ⟨hstream, hms⟩ := frames_of_readFrames hnet _ (Nat.le_refl _) h
    exact ⟨hstream, fun m hm => (serializeFrame_ne_nil_iff hnet).mpr (hms m hm)⟩
  · intro other hsupported hne ms hms hsome
    obtain ⟨parameters, hother⟩ := hsupported.parameters
    cases ms with
    | nil => exact absurd rfl hsome
    | cons m ms =>
        have hm := hvalid hms m List.mem_cons_self
        have hheader : (frameHeader network m.1 (UInt32.ofNat m.2.length)
            (κ.sha256 m.2)).length = frameHeaderSize := length_frameHeader _ _ _
        have hfront : (frames κ chainId (m :: ms)).take frameHeaderSize
            = frameHeader network m.1 (UInt32.ofNat m.2.length) (κ.sha256 m.2) := by
          rw [frames, List.flatMap_cons, serializeFrame_of_valid hnet hm, List.append_assoc,
            List.take_left' hheader]
        have hreject := deserializeFrameHeader_other hnet hother hne m.1
          (UInt32.ofNat m.2.length) (κ.sha256 m.2)
        rw [← hfront] at hreject
        refine ⟨hreject, ?_⟩
        have hlong : ¬ (frames κ chainId (m :: ms)).length < frameHeaderSize := by
          have hlen := congrArg List.length hfront
          rw [List.length_take, hheader] at hlen
          omega
        obtain ⟨fuel, hfuel⟩ : ∃ k, (frames κ chainId (m :: ms)).length = k + 1 :=
          ⟨(frames κ chainId (m :: ms)).length - 1, by
            simp only [frameHeaderSize] at hlong
            omega⟩
        rw [readStream, hfuel, readFrames, if_neg hsome, if_neg hlong, hreject]
  · intro parameters hparameters type payloadLength checksum
    rw [deserializeFrameHeader_frameHeader hparameters]
    constructor
    · rintro ⟨header, h⟩
      split_ifs at h with hbig hsize
      exact hsize
    · intro h
      rw [if_neg (Nat.not_lt.mpr (le_of_validPayloadSize h)), if_neg (not_not.mpr h)]
      exact ⟨_, rfl⟩

/-- Two pings on the regression-test network. -/
theorem framing_exact_pings :
    let ms : List Message := [(.ping, [1, 2, 3, 4, 5, 6, 7, 8]), (.pong, [0, 0, 0, 0, 0, 0, 0, 1])]
    readStream reference 2 (frames reference 2 ms) = .ok ms ∧
      readStream reference 1 (frames reference 2 ms) = .error (.protocol .invalidMagic) := by
  intro ms
  obtain ⟨hread, -, hother, hsizes, -⟩ := framing_exact reference 2 (by decide)
  have hms : ∀ m ∈ ms, serializeFrame reference 2 m.1 m.2 ≠ [] := by
    intro m hm
    refine (hsizes m.1 m.2).mpr ?_
    revert m
    decide
  refine ⟨hread ms hms, (hother 1 (by decide) (by decide) ms hms ?_).2⟩
  intro hnil
  have hregtest : networkParametersForChain 2 = some regtest := rfl
  have hlen := length_le_frames (κ := reference) hregtest ms
    (fun m hm => (hsizes m.1 m.2).mp (hms m hm))
  rw [hnil] at hlen
  exact absurd hlen (by decide)

end BBC
