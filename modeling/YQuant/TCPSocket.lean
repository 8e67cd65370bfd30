/-
# The socket

`common/tcp_socket.h` and `tcp_socket.cc`: two buffers of `TCPBufferSize` bytes, of which only the
valid prefix is kept here.  `recvmsg` appends what fits of the bytes the kernel has, the callback
takes complete records off the front, and `sendAndRecv` hands the whole outbound buffer to the
kernel and empties it.

The two copies differ in what they check.  `recvmsg` is told how much of the buffer is free, so a
read never runs over its end: what does not fit stays with the kernel (`readable`).  `send` checks
nothing, and a copy past the end is undefined behaviour; it is a fault here, and whoever shows that
a run goes through shows that it does not happen.

What the kernel has, when it has it, and how it cuts it are arguments of the models that use a
socket (`TCPOutput.lean`, `OrderManager.lean`, `OrderGateway.lean`).  The memory in which the bytes
lie is the subject of `RecordBuffer.lean`; for everything else the bytes are enough.
-/
import Mathlib.Data.List.Basic
import YQuant.Types

namespace YQuant

def TCPBufferSize : Nat := 64 * 1024 * 1024

structure TCPSocket where
  /-- The first `next_recv_valid_index_` bytes of the receive buffer. -/
  inboundData : List UInt8
  /-- The first `next_send_valid_index_` bytes of the send buffer. -/
  outboundData : List UInt8
deriving DecidableEq, Repr

namespace TCPSocket

def init : TCPSocket := ⟨[], []⟩

/-- What `recvmsg` reads when the kernel has `available`. -/
def readable (t : TCPSocket) (available : List UInt8) : List UInt8 :=
  available.take (TCPBufferSize - t.inboundData.length)

/-- The receive buffer after `recvmsg` has read `data`. -/
def recvmsg (t : TCPSocket) (data : List UInt8) : TCPSocket :=
  { t with inboundData := t.inboundData ++ data }

/-- The end of a callback: what it has not taken off moves to the front. -/
def keep (t : TCPSocket) (rest : List UInt8) : TCPSocket := { t with inboundData := rest }

/-- `send`: the copy into the outbound buffer is not checked against its size. -/
def send (t : TCPSocket) (data : List UInt8) : Except Fault TCPSocket :=
  if t.outboundData.length + data.length ≤ TCPBufferSize then
    .ok { t with outboundData := t.outboundData ++ data }
  else .error .outOfBounds

/-- The end of `sendAndRecv`: everything queued has been handed to the kernel. -/
def flush (t : TCPSocket) : TCPSocket := { t with outboundData := [] }

/-- What is read is a prefix of what is there. -/
theorem readable_append_drop (t : TCPSocket) (l : List UInt8) (n : Nat) :
    t.readable (l.take n) ++ l.drop (t.readable (l.take n)).length = l :=
  List.prefix_iff_eq_append.mp ((List.take_prefix _ _).trans (List.take_prefix n l))

theorem send_ok {t t' : TCPSocket} {data : List UInt8} (h : t.send data = .ok t') :
    t' = { t with outboundData := t.outboundData ++ data } := by
  unfold send at h
  split at h <;> cases h
  rfl

theorem send_room {t t' : TCPSocket} {data : List UInt8} (h : t.send data = .ok t') :
    t.outboundData.length + data.length ≤ TCPBufferSize := by
  unfold send at h
  split at h
  · next hroom => exact hroom
  · cases h

theorem send_error {t : TCPSocket} {data : List UInt8} {e : Fault} (h : t.send data = .error e) :
    e = .outOfBounds := by
  unfold send at h
  split at h <;> cases h
  rfl

end TCPSocket

end YQuant
