import Mathlib.Tactic.Common

set_option autoImplicit false

namespace AetherClient

structure StateMachine (α : Type) where
  state : α
  changed : Bool
deriving DecidableEq, Repr

namespace StateMachine
variable {α : Type}

def acquire (m : StateMachine α) : StateMachine α := { m with changed := false }

@[simp] theorem state_acquire (m : StateMachine α) : m.acquire.state = m.state := rfl

variable [DecidableEq α]

def set (m : StateMachine α) (value : α) : StateMachine α :=
  if m.state ≠ value then ⟨value, true⟩ else m

@[simp] theorem state_set (m : StateMachine α) (value : α) : (m.set value).state = value := by
  unfold set
  split
  · rfl
  · next h => exact not_not.mp h

end StateMachine

inductive PacketSendState where
  | queued
  | progress
  | success
  | stopped
  | timeout
  | failed
  | panic
deriving DecidableEq, Repr

def PacketSendState.final : PacketSendState → Bool
  | queued => false
  | progress => false
  | _ => true

inductive StreamWriteState where
  | queued
  | inProgress
  | done
  | timeout
  | stopped
  | failed
  | panic
deriving DecidableEq, Repr

end AetherClient
