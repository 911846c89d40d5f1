import AetherClient.Actions
import AetherClient.Runs
import Mathlib.Data.List.Pairwise

set_option autoImplicit false

/-!
# The queue of packets in front of a server's transport

`ServerTransport` hands each packet to a `ServerSendQueueManagerAction`, which starts them one
after the other on the transport of the connected channel. The manager hears of the end of a
packet through the callbacks that it registers when it starts it, and the store that owns the
packets erases a packet with the report of its end. The queue holds views of the packets: a view
of an erased packet is null, and it is undefined behaviour to look through it.
-/
namespace AetherClient

structure ServerSendPacketAction where
  state : StateMachine PacketSendState := ⟨.queued, false⟩
  alive : Bool := true
  /-- `Enqueue` was called: the packet was given to a transport and the manager listens to it. -/
  started : Bool := false
deriving DecidableEq, Repr

namespace ServerSendPacketAction

/-- `Enqueue` with a transport. A packet that was stopped before is started all the same. -/
def enqueue (p : ServerSendPacketAction) : ServerSendPacketAction :=
  { p with state := p.state.set .progress, started := true }

def dequeue (p : ServerSendPacketAction) : ServerSendPacketAction :=
  { p with state := p.state.set .queued }

def stop (p : ServerSendPacketAction) : ServerSendPacketAction :=
  if p.alive then { p with state := p.state.set .stopped } else p

def sendEnded (p : ServerSendPacketAction) (state : PacketSendState) : ServerSendPacketAction :=
  if p.alive ∧ p.started ∧ state.final then { p with state := p.state.set state } else p

def acquire (p : ServerSendPacketAction) : ServerSendPacketAction :=
  { p with state := p.state.acquire }

def finish (p : ServerSendPacketAction) : ServerSendPacketAction := { p with alive := false }

def inProgress (p : ServerSendPacketAction) : Bool := p.alive && p.started

def failing (p : ServerSendPacketAction) : Bool :=
  decide (p.state.state = .timeout ∨ p.state.state = .failed ∨ p.state.state = .panic)

end ServerSendPacketAction

inductive SendQueueState where
  | transportNotSet
  | queueReady
  | queueBusy
  | queueEmpty
deriving DecidableEq, Repr

structure ServerSendQueueManager where
  state : StateMachine SendQueueState := ⟨.transportNotSet, false⟩
  packets : List ServerSendPacketAction := []
  /-- As many were popped from the queue, which holds views of the others. -/
  popped : ℕ := 0
  transport : Bool := false
  /-- The numbers of the packets that were started, in that order. Not part of the code's state. -/
  begun : List ℕ := []
deriving DecidableEq, Repr

inductive SendQueueEvent where
  | add
  | setTransport
  | resetTransport
  | update
  | updatePacket (i : ℕ)
  | stopPacket (i : ℕ)
  | sendEnded (i : ℕ) (state : PacketSendState)
deriving DecidableEq, Repr

namespace ServerSendQueueManager

def queue (m : ServerSendQueueManager) : List ServerSendPacketAction := m.packets.drop m.popped

def modify (m : ServerSendQueueManager) (i : ℕ)
    (f : ServerSendPacketAction → ServerSendPacketAction) : ServerSendQueueManager :=
  { m with packets := m.packets.modify i f }

def add (m : ServerSendQueueManager) : ServerSendQueueManager :=
  let m := { m with packets := m.packets ++ [{}] }
  if m.state.state = .queueEmpty then { m with state := m.state.set .queueReady } else m

def setTransport (m : ServerSendQueueManager) : ServerSendQueueManager :=
  let m := { m with transport := true }
  if m.state.state = .transportNotSet then { m with state := m.state.set .queueReady } else m

/-- The manager leaves no state here: the test is for the state that is to be set. -/
def resetTransport (m : ServerSendQueueManager) : ServerSendQueueManager :=
  let m := { m with transport := false }
  if m.state.state = .transportNotSet then { m with state := m.state.set .transportNotSet } else m

def enqueue (m : ServerSendQueueManager) : Option ServerSendQueueManager :=
  match m.packets[m.popped]? with
  | none => some { m with state := m.state.set .queueEmpty }
  | some p =>
    if p.alive ∧ m.transport then
      some { m.modify m.popped ServerSendPacketAction.enqueue with
        state := m.state.set .queueBusy
        begun := m.begun ++ [m.popped] }
    else none

def enqueueNext (m : ServerSendQueueManager) : ServerSendQueueManager :=
  let m := if m.popped < m.packets.length then { m with popped := m.popped + 1 } else m
  if m.state.state = .queueBusy then { m with state := m.state.set .queueReady } else m

def update (m : ServerSendQueueManager) : Option ServerSendQueueManager :=
  if m.state.changed then
    let m := { m with state := m.state.acquire }
    if m.state.state = .queueReady then m.enqueue else some m
  else some m

/-- `ServerSendPacketAction::Update` with its callbacks. An error resets the transport, asks for a
connection and takes the packet back; the manager hears of the other ends. -/
def updatePacket (m : ServerSendQueueManager) (i : ℕ) : ServerSendQueueManager :=
  match m.packets[i]? with
  | none => m
  | some p =>
    if p.alive ∧ p.state.changed then
      let m := m.modify i ServerSendPacketAction.acquire
      match p.state.state with
      | .queued | .progress => m
      | .success | .stopped =>
        let m := if p.started then m.enqueueNext else m
        m.modify i ServerSendPacketAction.finish
      | .timeout | .failed | .panic =>
        let m := m.resetTransport
        let m := if p.started then m.modify i ServerSendPacketAction.dequeue else m
        m.modify i ServerSendPacketAction.finish
    else m

def step (m : ServerSendQueueManager) : SendQueueEvent → Option ServerSendQueueManager
  | .add => some m.add
  | .setTransport => some m.setTransport
  | .resetTransport => some m.resetTransport
  | .update => m.update
  | .updatePacket i => some (m.updatePacket i)
  | .stopPacket i => some (m.modify i ServerSendPacketAction.stop)
  | .sendEnded i state => some (m.modify i fun p => p.sendEnded state)

end ServerSendQueueManager
end AetherClient
