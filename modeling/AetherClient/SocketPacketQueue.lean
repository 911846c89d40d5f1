import AetherClient.Actions
import AetherClient.PacketDelivery

set_option autoImplicit false

/-!
# The queue of packets in front of a socket

`UnixTcpTransport` frames each packet and hands it to a `SocketPacketQueueManager`. The front of
the queue is written to the socket until it leaves the state `progress`, whatever the reason is,
and then the next one is. The model keeps the packets that have left the queue as well, so that
the packets in the order in which they were added are `left ++ queue`.
-/
namespace AetherClient

inductive SendResult where
  | accepted (n : ℕ)
  | wouldBlock
  | error
deriving DecidableEq, Repr

structure UnixPacketSendAction where
  state : StateMachine PacketSendState := ⟨.queued, false⟩
  data : List UInt8
  sentOffset : ℕ := 0
  alive : Bool := true
  /-- The bytes of the data that the socket has accepted. Not part of the code's state. -/
  accepted : ℕ := 0
deriving DecidableEq, Repr

namespace UnixPacketSendAction

def start (p : UnixPacketSendAction) : UnixPacketSendAction :=
  if p.state.state = .queued then { p with state := p.state.set .progress } else p

/-- `Send`, with the bytes that the socket accepts. When all are sent the offset is not moved. -/
def send (p : UnixPacketSendAction) (result : SendResult) : UnixPacketSendAction × List UInt8 :=
  let p := p.start
  let rest := p.data.drop p.sentOffset
  match result with
  | .accepted n =>
    if n < rest.length then
      ({ p with sentOffset := p.sentOffset + n, accepted := p.accepted + n }, rest.take n)
    else ({ p with state := p.state.set .success, accepted := p.accepted + rest.length }, rest)
  | .wouldBlock => (p, [])
  | .error => ({ p with state := p.state.set .failed }, [])

def stop (p : UnixPacketSendAction) : UnixPacketSendAction :=
  if p.alive then { p with state := p.state.set .stopped } else p

def update (p : UnixPacketSendAction) : UnixPacketSendAction :=
  if p.alive ∧ p.state.changed then
    { p with state := p.state.acquire, alive := !p.state.state.final }
  else p

end UnixPacketSendAction

structure SocketPacketQueueManager where
  left : List UnixPacketSendAction := []
  queue : List UnixPacketSendAction := []
  /-- `current_` is not null; it points to the front of the queue then. -/
  current : Bool := false
  wire : List UInt8 := []
deriving DecidableEq, Repr

namespace SocketPacketQueueManager

/-- The loop of `Send`: the packets that leave the queue, those that stay and the bytes that are
written. Beyond the given results the socket would block. -/
def sendLoop : List UnixPacketSendAction → List SendResult →
    List UnixPacketSendAction × List UnixPacketSendAction × List UInt8
  | [], _ => ([], [], [])
  | p :: queue, results =>
    if p.alive ∧ (p.state.state = .queued ∨ p.state.state = .progress) then
      match p.send (results.headD .wouldBlock) with
      | (p, bytes) =>
        if p.state.state = .progress then ([], p :: queue, bytes)
        else
          match sendLoop queue results.tail with
          | (left, queue, more) => (p :: left, queue, bytes ++ more)
    else
      match sendLoop queue results with
      | (left, queue, bytes) => (p :: left, queue, bytes)

def send (m : SocketPacketQueueManager) (results : List SendResult) : SocketPacketQueueManager :=
  match sendLoop m.queue results with
  | (left, queue, bytes) =>
    { left := m.left ++ left, queue, current := !queue.isEmpty, wire := m.wire ++ bytes }

def addPacket (m : SocketPacketQueueManager) (p : UnixPacketSendAction) (results : List SendResult) :
    SocketPacketQueueManager :=
  let m := { m with queue := m.queue ++ [p] }
  if m.current then m else m.send results

def modify (m : SocketPacketQueueManager) (i : ℕ) (f : UnixPacketSendAction → UnixPacketSendAction) :
    SocketPacketQueueManager :=
  if i < m.left.length then { m with left := m.left.modify i f }
  else { m with queue := m.queue.modify (i - m.left.length) f }

end SocketPacketQueueManager

inductive SocketEvent where
  /-- `UnixTcpTransport::Send`. The results are those of the calls of `send` on the socket. -/
  | send (data : List UInt8) (results : List SendResult)
  | writeSocket (results : List SendResult)
  | stop (i : ℕ)
  | update (i : ℕ)
deriving DecidableEq, Repr

namespace SocketPacketQueueManager
open StreamDataPacketCollector (frame)

def handle (m : SocketPacketQueueManager) : SocketEvent → SocketPacketQueueManager
  | .send data results => m.addPacket { data := frame data } results
  | .writeSocket results => if m.queue.isEmpty then m else m.send results
  | .stop i => m.modify i UnixPacketSendAction.stop
  | .update i => m.modify i UnixPacketSendAction.update

def step (m : SocketPacketQueueManager) (e : SocketEvent) : Option SocketPacketQueueManager :=
  some (m.handle e)

end SocketPacketQueueManager

end AetherClient
