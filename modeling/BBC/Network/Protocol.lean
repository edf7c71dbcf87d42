/-
# `BBC.Network.Protocol` — message types and payload sizes

`include/bbc/network/protocol.hpp` and the size table of
`src/network/protocol.cpp`.
-/
import BBC.Chain.Block

namespace BBC

def maximumFramePayloadSize : Nat := 1024 * 1024
def helloPayloadSize : Nat := 104
def pingPayloadSize : Nat := 8
def blockLocatorEntrySize : Nat := 40
def maximumBlockLocatorEntries : Nat := 32
def getBlocksPayloadMinimumSize : Nat := 8 + 2 + blockLocatorEntrySize + 2
def getBlocksPayloadMaximumSize : Nat :=
  8 + 2 + maximumBlockLocatorEntries * blockLocatorEntrySize + 2
def blocksPayloadMinimumSize : Nat := 11
def maximumBlocksPerSyncBatch : Nat := 4
def fullNodeService : UInt64 := 1
def miningService : UInt64 := 2

/-- `network::MessageType`. -/
inductive MessageType where
  | hello
  | ping
  | pong
  | templateRequest
  | blockTemplate
  | blockSubmit
  | block
  | blockResult
  | transactionSubmit
  | transaction
  | transactionResult
  | getBlocks
  | blocks
  deriving DecidableEq, Repr

/-- A message as the session handles it. -/
abbrev Message := MessageType × Bytes

/-- `valid_payload_size`. -/
def validPayloadSize (type : MessageType) (size : Nat) : Bool :=
  match type with
  | .hello => size = helloPayloadSize
  | .ping | .pong => size = pingPayloadSize
  | .templateRequest => size = 8 + 32
  | .blockTemplate => 8 + blockHeaderSize ≤ size ∧ size ≤ 8 + maximumBlockSize
  | .blockSubmit | .block => blockHeaderSize ≤ size ∧ size ≤ maximumBlockSize
  | .blockResult | .transactionResult => size = 32 + 3
  | .transactionSubmit | .transaction => size = signedTransactionSize
  | .getBlocks => getBlocksPayloadMinimumSize ≤ size ∧ size ≤ getBlocksPayloadMaximumSize
  | .blocks => blocksPayloadMinimumSize ≤ size ∧ size ≤ maximumFramePayloadSize

/-- `network::PeerStatus`, as far as the node reads it. -/
structure PeerStatus where
  id : UInt64
  handshakeComplete : Bool
  services : UInt64
  remoteHeight : UInt64
  remoteTip : Hash256
  deriving DecidableEq

/-- The peer offers the full-node service. -/
def PeerStatus.isFullNode (peer : PeerStatus) : Bool := peer.services &&& fullNodeService ≠ 0

end BBC
