/-
# `BBC.Network.Hello` — the first message of a session

`HelloPayload` with `serialize_hello`, `deserialize_hello` and the ping nonce of
`src/network/protocol.cpp`.

    offset  size
         0     2  lowest protocol version
         2     2  highest protocol version
         4     4  chain id
         8     8  services
        16    16  session nonce
        32     8  height of the tip
        40    32  id of the tip
        72    32  id of the genesis block
-/
import BBC.Network.Framing

namespace BBC

open ByteCodec

def protocolVersion : UInt16 := 1

/-- `network::HelloPayload`. -/
structure HelloPayload where
  minimumProtocolVersion : UInt16
  maximumProtocolVersion : UInt16
  chainId : UInt32
  services : UInt64
  sessionNonce : FixedBytes 16
  tipHeight : UInt64
  tipBlockId : Hash256
  genesisBlockId : Hash256
  deriving DecidableEq

/-- `serialize_hello`. -/
def serializeHello (hello : HelloPayload) : Bytes :=
  encodeU16Le hello.minimumProtocolVersion ++ (encodeU16Le hello.maximumProtocolVersion ++
    (encodeU32Le hello.chainId ++ (encodeU64Le hello.services ++ (hello.sessionNonce.toList ++
      (encodeU64Le hello.tipHeight ++ (hello.tipBlockId.toList ++
        hello.genesisBlockId.toList))))))

/-- `deserialize_hello`. -/
def deserializeHello (encoded : Bytes) : Except ProtocolError HelloPayload :=
  if encoded.length ≠ helloPayloadSize then .error .invalidPayloadSize
  else
    let hello : HelloPayload :=
      { minimumProtocolVersion := readU16Le encoded 0
        maximumProtocolVersion := readU16Le encoded 2
        chainId := readU32Le encoded 4
        services := readU64Le encoded 8
        sessionNonce := readArray 16 encoded 16
        tipHeight := readU64Le encoded 32
        tipBlockId := readArray 32 encoded 40
        genesisBlockId := readArray 32 encoded 72 }
    if hello.minimumProtocolVersion = 0
        ∨ hello.minimumProtocolVersion > hello.maximumProtocolVersion then
      .error .invalidProtocolRange
    else .ok hello

/-- `serialize_ping_nonce`. -/
def serializePingNonce (nonce : UInt64) : Bytes := encodeU64Le nonce

/-- `deserialize_ping_nonce`: zero for a payload of another size. -/
def deserializePingNonce (encoded : Bytes) : UInt64 :=
  if encoded.length = pingPayloadSize then readU64Le encoded 0 else 0

@[simp] theorem length_serializeHello (hello : HelloPayload) :
    (serializeHello hello).length = helloPayloadSize := by
  simp [serializeHello, helloPayloadSize]

/-- A `HELLO` with a sound version range is read back. -/
theorem deserializeHello_serializeHello {hello : HelloPayload}
    (hmin : hello.minimumProtocolVersion ≠ 0)
    (hrange : hello.minimumProtocolVersion ≤ hello.maximumProtocolVersion) :
    deserializeHello (serializeHello hello) = .ok hello := by
  have d0 : (serializeHello hello).drop 0
      = encodeU16Le hello.minimumProtocolVersion ++ (encodeU16Le hello.maximumProtocolVersion ++
        (encodeU32Le hello.chainId ++ (encodeU64Le hello.services ++ (hello.sessionNonce.toList ++
          (encodeU64Le hello.tipHeight ++ (hello.tipBlockId.toList ++
            (hello.genesisBlockId.toList ++ []))))))) := by
    simp [serializeHello]
  have d2 := drop_of_drop 2 d0 (by simp)
  have d4 := drop_of_drop 4 d2 (by simp)
  have d8 := drop_of_drop 8 d4 (by simp)
  have d16 := drop_of_drop 16 d8 (by simp)
  have d32 := drop_of_drop 32 d16 (by simp)
  have d40 := drop_of_drop 40 d32 (by simp)
  have d72 := drop_of_drop 72 d40 (by simp)
  rw [deserializeHello, if_neg (not_not.mpr (length_serializeHello hello))]
  dsimp only
  rw [readU16Le_of_drop d0, readU16Le_of_drop d2, readU32Le_of_drop d4, readU64Le_of_drop d8,
    readArray_of_drop d16, readU64Le_of_drop d32, readArray_of_drop d40, readArray_of_drop d72]
  refine if_neg ?_
  rintro (hzero | hgt)
  · exact hmin hzero
  · exact absurd hrange (UInt16.not_le.mpr hgt)

end BBC
