import TweakTool.Wire.Rpmsg
import TweakTool.Wire.Nng

/-! # Messages over nng

The other transport, `tweakwire_nng.c`: nng keeps messages whole, and `tweak_wire_nng_transmit` only
puts a header of two bytes before each, which `recv_async_callback` checks and takes off again. -/

namespace TweakTool.Wire.Nng

open TweakTool.Lib
open TweakTool.Wire.Rpmsg (ErrorCode)

def datagramHeaderSize : Nat := 2

/-- The two bytes of the header, 'T' and 'W'. -/
def datagramHeader : Bytes := [0x54, 0x57]

def checkPacketHeader (bufferWithHeader : Bytes) : Bool :=
  if bufferWithHeader.length < datagramHeaderSize then false
  else if bufferWithHeader[0]? ≠ some 0x54 then false
  else if bufferWithHeader[1]? ≠ some 0x57 then false
  else true

/-- `nng_aio_result` of a receive operation, with its message. -/
inductive ReceiveResult where
  | message (body : Bytes)
  | finalizing -- `TWEAK_WIRE_FINALIZING`, with which `finalize_transport` aborts the operation
  | failure

/-- `recv_async_callback`: the payload for the receive listener, and whether the next receive
operation is submitted. -/
def recvAsyncCallback (isFinalizing : Bool) : ReceiveResult → Option Bytes × Bool
  | .finalizing => (none, false)
  | .failure => (none, !isFinalizing)
  | .message body =>
    (if checkPacketHeader body then some (body.drop datagramHeaderSize) else none, !isFinalizing)

/-- `nng_aio_result` of a send operation. -/
inductive SendResult where
  | success
  | timedOut
  | failure
  deriving DecidableEq

/-- `tweak_wire_nng_transmit`: its code, and the message that nng has taken. -/
def tweakWireNngTransmit (isFinalizing hasMemory : Bool) (aioResult : SendResult) (buffer : Bytes) :
    ErrorCode × Option Bytes :=
  if isFinalizing then (.error, none)
  else if !hasMemory then (.error, none)
  else
    match aioResult with
    | .success => (.success, some (datagramHeader ++ buffer))
    | .timedOut => (.timeout, none)
    | .failure => (.error, none)

/-- What the receive listener gets of a message. -/
def received (body : Bytes) : Option Bytes := (recvAsyncCallback false (.message body)).1

theorem filterMap_received (payloads : List Bytes) :
    (payloads.map (datagramHeader ++ ·)).filterMap received = payloads := by
  rw [List.filterMap_map]
  exact List.filterMap_some

/-- What was transmitted is received. -/
theorem recvAsyncCallback_header (isFinalizing : Bool) (payload : Bytes) :
    (recvAsyncCallback isFinalizing (.message (datagramHeader ++ payload))).1 = some payload := rfl

end TweakTool.Wire.Nng
