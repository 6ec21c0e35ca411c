import TweakTool.Lib.Bytes

/-! # Messages in chunks

`tweakwire_rpmsg.c`: a message is cut into chunks of at most 244 bytes, each sent as one datagram
with a header of 12 bytes — a magic number, the chunk's number and the number of chunks, and an id
that runs over all chunks of the connection. The receiver puts the chunks together again and
follows the running id on its own.

The numbers of the C code are natural numbers, reduced where the code stores them in 16 or 32
bits; the running ids are `UInt32`. Both ends have the same byte order. -/

namespace TweakTool.Wire.Rpmsg

open TweakTool.Lib

def maxMessageSize : Nat := 512

def maxPacketSize : Nat := 256 * 1024

def maxChunkSize : Nat := 256

def magic : Nat := 0xDEADBEEF

def magicOffset : Nat := 0
def chunkNumberOffset : Nat := 4
def chunkCountOffset : Nat := 6
def cntOffset : Nat := 8
def payloadOffset : Nat := 12

def uint16Max : Nat := 2 ^ 16 - 1

def u16 (n : Nat) : Nat := n % 2 ^ 16

def u32 (n : Nat) : Nat := n % 2 ^ 32

/-- `tweak_wire_error_code`, with the `TWEAK_WIRE_FINALIZING` of the transport. -/
inductive ErrorCode where
  | success
  | error
  | timeout
  | finalizing
  deriving DecidableEq, Repr

/-- `tweak_wire_connection_rpmsg`, the part that concerns the transfer of messages. -/
structure Connection where
  sendMsgId : UInt32
  recvMsgId : UInt32
  sendBuff : Block maxMessageSize
  recvBuff : Block maxMessageSize

def incGlobalId (id : UInt32) : UInt32 :=
  let id := id + 1
  if id ≠ 0 then id else id + 1

/-! ## Sending -/

def maxChunkPayloadSize : Nat := maxChunkSize - payloadOffset

/-- One turn of the loop of `send_partitioned` up to the transport: the connection with its send
buffer filled, and the datagram. -/
def fillChunk (c : Connection) (buffer : Bytes) (nChunks nChunk : Nat) : Connection × Bytes :=
  let start := u32 (nChunk * maxChunkPayloadSize)
  let stop := u32 (min buffer.length (u32 ((nChunk + 1) * maxChunkPayloadSize)))
  let chunkPayloadSize := u32 (stop + 2 ^ 32 - start)
  let sendBuff := c.sendBuff.write chunkNumberOffset (leBytes 2 (nChunk + 1))
    |>.write chunkCountOffset (leBytes 2 nChunks)
    |>.write magicOffset (leBytes 4 magic)
    |>.write cntOffset (leBytes 4 (incGlobalId c.sendMsgId).toNat)
    |>.write payloadOffset (slice buffer start chunkPayloadSize)
  ({ c with sendBuff := sendBuff }, sendBuff.val.take (u16 (payloadOffset + chunkPayloadSize)))

/-- The loop of `send_partitioned` from chunk `nChunk` on, with `todo` chunks to go. The transport
answers the datagram of chunk `i` with `transport i`; only what it accepts is listed as sent. -/
def sendLoop (transport : Nat → ErrorCode) (buffer : Bytes) (nChunks : Nat) :
    (todo nChunk : Nat) → Connection → ErrorCode × List Bytes × Connection
  | 0, _, c => (.success, [], c)
  | todo + 1, nChunk, c =>
    let (c, datagram) := fillChunk c buffer nChunks nChunk
    match transport nChunk with
    | .success =>
      let (code, sent, c) := sendLoop transport buffer nChunks todo (nChunk + 1)
        { c with sendMsgId := incGlobalId c.sendMsgId }
      (code, datagram :: sent, c)
    | code => (code, [], c)

def chunkCount (len : Nat) : Nat :=
  u32 ((len + maxChunkPayloadSize - 1) / maxChunkPayloadSize)

def sendPartitioned (transport : Nat → ErrorCode) (c : Connection) (buffer : Bytes) :
    ErrorCode × List Bytes × Connection :=
  let nChunks := chunkCount buffer.length
  if uint16Max ≤ nChunks then (.error, [], c)
  else sendLoop transport buffer nChunks nChunks 0 c

/-! ## Receiving -/

/-- What `tweak_wire_rpmsg_transport_receive` ends with. -/
inductive Event where
  | datagram (bytes : Bytes)
  | failure (code : ErrorCode)

/-- The message under construction: the variables of `receive_partitioned` and the caller's
buffer of `len` bytes. -/
structure Partial (len : Nat) where
  buffer : Block len
  bytesReceived : Nat
  nPrevChunk : Nat

/-- How one turn of the loop of `receive_partitioned` ends. -/
inductive ChunkResult (len : Nat) where
  | fail
  | more (p : Partial len)
  | last (p : Partial len)

variable {len : Nat}

/-- The turn of the loop that got the datagram `d`, which the transport cut to the size of the
receive buffer. -/
def receiveChunk (c : Connection) (p : Partial len) (d : Bytes) : Connection × ChunkResult len :=
  let chunkSize := min d.length maxMessageSize
  let c := { c with recvBuff := c.recvBuff.write 0 (d.take maxMessageSize) }
  let chunkPayloadSize := u16 (chunkSize + 2 ^ 16 - payloadOffset)
  let recvMsgId := UInt32.ofNat (leNat (slice c.recvBuff.val cntOffset 4))
  let nChunk := leNat (slice c.recvBuff.val chunkNumberOffset 2)
  let nChunks := leNat (slice c.recvBuff.val chunkCountOffset 2)
  let c := { c with recvMsgId := if c.recvMsgId = 0 then recvMsgId else incGlobalId c.recvMsgId }
  if leNat (slice c.recvBuff.val magicOffset 4) ≠ magic then (c, .fail)
  else if c.recvMsgId ≠ recvMsgId then ({ c with recvMsgId := recvMsgId }, .fail)
  else if p.nPrevChunk ≠ u32 (nChunk + 2 ^ 32 - 1) then (c, .fail)
  else if len < u32 (p.bytesReceived + chunkPayloadSize) then (c, .fail)
  else
    let p :=
      { buffer := p.buffer.write p.bytesReceived
          (slice c.recvBuff.val payloadOffset chunkPayloadSize)
        bytesReceived := u32 (p.bytesReceived + chunkPayloadSize)
        nPrevChunk := nChunk }
    (c, if nChunk = nChunks then .last p else .more p)

/-- A finished call of `receive_partitioned`: its code, the message where it succeeded, and what
is left to receive. -/
structure Received (len : Nat) where
  code : ErrorCode
  message : Bytes
  connection : Connection
  buffer : Block len
  rest : List Event

/-- The loop of `receive_partitioned`, on the results the transport will produce; `none` if it
still waits for one after the last. -/
def receiveLoop (c : Connection) (p : Partial len) : List Event → Option (Received len)
  | [] => none
  | .failure code :: rest => some ⟨code, [], c, p.buffer, rest⟩
  | .datagram d :: rest =>
    match receiveChunk c p d with
    | (c, .fail) => some ⟨.error, [], c, p.buffer, rest⟩
    | (c, .more p) => receiveLoop c p rest
    | (c, .last p) => some ⟨.success, p.buffer.val.take p.bytesReceived, c, p.buffer, rest⟩

/-- `receive_partitioned` with `*len` the size of the buffer. -/
def receivePartitioned (c : Connection) (buffer : Block len) (events : List Event) :
    Option (Received len) :=
  receiveLoop c ⟨buffer, 0, 0⟩ events

/-! ## Many messages -/

/-- Successive calls of `send_partitioned`, each message with what the transport answers. -/
def sendAll (c : Connection) : List ((Nat → ErrorCode) × Bytes) →
    List ErrorCode × List Bytes × Connection
  | [] => ([], [], c)
  | (transport, message) :: messages =>
    let (code, sent, c) := sendPartitioned transport c message
    let (codes, later, c) := sendAll c messages
    (code :: codes, sent ++ later, c)

/-- `calls` successive calls of `receive_partitioned` on the receive buffer of the connection:
their codes and messages, and what is left to receive. -/
def receiveAll (c : Connection) (buffer : Block len) :
    (calls : Nat) → List Event → Option (List (ErrorCode × Bytes) × List Event)
  | 0, events => some ([], events)
  | calls + 1, events =>
    match receivePartitioned c buffer events with
    | none => none
    | some r =>
      (receiveAll r.connection r.buffer calls r.rest).map fun (results, rest) =>
        ((r.code, r.message) :: results, rest)

end TweakTool.Wire.Rpmsg
