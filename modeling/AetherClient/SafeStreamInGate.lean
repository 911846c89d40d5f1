import AetherClient.Actions
import AetherClient.SafeStreamSenderRuns

set_option autoImplicit false

namespace AetherClient
open Runs

structure SafeStreamWriteAction where
  id : ℕ
  sendingDataAction : ℕ
  state : StreamWriteState := .queued
deriving DecidableEq, Repr

/-- The state that the wrapper takes over from an action that ends. -/
def SendingState.streamWriteState : SendingState → StreamWriteState
  | .waiting | .sending => .queued
  | .done => .done
  | .stopped => .stopped
  | .failed => .failed

structure SafeStreamInGate where
  sender : SenderWorld := {}
  packetSendActions : List SafeStreamWriteAction := []
  writes : ℕ := 0
  ended : List SafeStreamWriteAction := []
deriving DecidableEq, Repr

inductive InGateEvent where
  | write (data : DataBuffer)
  | sender (e : SenderEvent)
  | updateAction (id : ℕ)
deriving DecidableEq, Repr

namespace SafeStreamInGate

section Step
variable (config : SafeStreamConfig)

def write (g : SafeStreamInGate) (data : DataBuffer) :
    Option (SafeStreamInGate × SafeStreamWriteAction) :=
  let id := g.sender.accepted.length
  match g.sender.sending.sendData config id data with
  | none => none
  | some s =>
    let action : SafeStreamWriteAction := { id := g.writes, sendingDataAction := id }
    some ({ g with
      sender := { g.sender with sending := s, accepted := g.sender.accepted ++ [data] }
      packetSendActions := g.packetSendActions ++ [action]
      writes := g.writes + 1 }, action)

def report (g : SafeStreamInGate) (r : ℕ × SendingState) : SafeStreamInGate :=
  let ends := fun a : SafeStreamWriteAction => a.sendingDataAction = r.1
  { g with
    packetSendActions := g.packetSendActions.filter fun a => !ends a
    ended := g.ended ++
      (g.packetSendActions.filter fun a => ends a).map fun a => { a with state := r.2.streamWriteState } }

def updateAction (g : SafeStreamInGate) (id : ℕ) : SafeStreamInGate :=
  let (buffer, reports) := g.sender.sending.sendDataBuffer.updateAction id
  let sending := { g.sender.sending with sendDataBuffer := buffer }
  reports.foldl report { g with sender := { g.sender with sending } }

/-- Writes reach the sending action through the gate only. -/
def step (g : SafeStreamInGate) : InGateEvent → Option SafeStreamInGate
  | .write data => (g.write config data).map Prod.fst
  | .sender (.write _) => none
  | .sender e => (SenderWorld.step config g.sender e).map fun sender => { g with sender }
  | .updateAction id => some (g.updateAction id)

def Fits (g : SafeStreamInGate) : InGateEvent → Prop
  | .write data => g.sender.sending.sendDataBuffer.size + data.length ≤ config.bufferCapacity
  | _ => True

instance (g : SafeStreamInGate) : DecidablePred (Fits config g)
  | .write _ => inferInstanceAs (Decidable (_ ≤ _))
  | .sender _ => inferInstanceAs (Decidable True)
  | .updateAction _ => inferInstanceAs (Decidable True)

/-- The write returns an action. Where the data exceeds the capacity the action is failed, and the
buffered data, the positions and all other actions are as before. -/
def Answers (g : SafeStreamInGate) : InGateEvent → Prop
  | .write data =>
    ∃ g' action, g.write config data = some (g', action) ∧
      (config.bufferCapacity < g.sender.sending.sendDataBuffer.size + data.length →
        action.state = .failed ∧ g'.sender = g.sender ∧ g'.ended = g.ended ∧
          g'.packetSendActions = g.packetSendActions ++ [action])
  | _ => True

end Step

section Writes
variable {config : SafeStreamConfig} {g : SafeStreamInGate}

theorem write_eq_none_iff {data : DataBuffer} :
    g.write config data = none ↔
      config.bufferCapacity < g.sender.sending.sendDataBuffer.size + data.length := by
  by_cases hfull : config.bufferCapacity < g.sender.sending.sendDataBuffer.size + data.length
  · simp [write, SafeStreamSending.sendData, hfull]
  · simp [write, SafeStreamSending.sendData, hfull]

theorem answers_iff_fits (e : InGateEvent) : Answers config g e ↔ Fits config g e := by
  cases e with
  | sender e => exact Iff.rfl
  | updateAction id => exact Iff.rfl
  | write data =>
    constructor
    · rintro ⟨g', action, hwrite, -⟩
      apply Nat.not_lt.mp
      intro hfull
      rw [write_eq_none_iff.mpr hfull] at hwrite
      cases hwrite
    · intro hfits
      cases hwrite : g.write config data with
      | none => exact absurd (write_eq_none_iff.mp hwrite) (Nat.not_lt.mpr hfits)
      | some result =>
        exact ⟨result.1, result.2, hwrite, fun hfull => absurd hfull (Nat.not_lt.mpr hfits)⟩

end Writes

theorem answers_all_writes_iff (config : SafeStreamConfig) (events : List InGateEvent) :
    Along (step config) (Answers config) {} events ↔ Along (step config) (Fits config) {} events :=
  ⟨fun h => h.mono fun _ e => (answers_iff_fits e).mp,
    fun h => h.mono fun _ e => (answers_iff_fits e).mpr⟩

/-- Three bytes for a buffer of two. -/
theorem not_answers_full_buffer :
    ¬ ∀ (config : SafeStreamConfig) (events : List InGateEvent),
      (∀ e ∈ events, ∃ data, e = .write data) → Along (step config) (Answers config) {} events := by
  intro h
  obtain ⟨⟨g', action, hwrite, -⟩, -⟩ :=
    h { testConfig with bufferCapacity := 2 } [.write [1, 2, 3]] (by simp)
  cases hwrite

end SafeStreamInGate

end AetherClient
