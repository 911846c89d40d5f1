import AetherClient.Runs
import AetherClient.SafeStreamTypes
import AetherClient.SocketPacketQueue

set_option autoImplicit false

/-!
# Send actions of a channel

`ServerChannelTransport::Send` wraps the send action of the low level transport. The wrapper
follows the state of the low level action and reports its end. It is there for the time limit of
one second, but `CheckTimeout` compares the wrong way round: while the limit has not passed it
gives the packet up, and once it has passed it waits for it.
-/
namespace AetherClient

structure ChannelPacketSendAction where
  state : StateMachine PacketSendState := ⟨.queued, false⟩
  lowLevelSendAction : UnixPacketSendAction
  sendTimeout : TimePoint
  reported : Option PacketSendState := none
deriving DecidableEq, Repr

namespace ChannelPacketSendAction

/-- `Send`: the deadline is one second away, in ticks of the clock. -/
def send (lowLevel : UnixPacketSendAction) (currentTime second : TimePoint) :
    ChannelPacketSendAction :=
  { lowLevelSendAction := lowLevel, sendTimeout := currentTime + second }

def follow (a : ChannelPacketSendAction) (lowLevel : UnixPacketSendAction) :
    ChannelPacketSendAction :=
  { a with
    lowLevelSendAction := lowLevel
    state :=
      if lowLevel.state.state ≠ a.lowLevelSendAction.state.state then
        a.state.set lowLevel.state.state
      else a.state }

def stop (a : ChannelPacketSendAction) : ChannelPacketSendAction :=
  a.follow a.lowLevelSendAction.stop

def checkTimeout (a : ChannelPacketSendAction) (currentTime : TimePoint) :
    ChannelPacketSendAction × TimePoint :=
  if a.sendTimeout < currentTime then (a, a.sendTimeout)
  else ({ a.stop with state := a.stop.state.set .timeout }, currentTime)

def update (a : ChannelPacketSendAction) (currentTime : TimePoint) :
    ChannelPacketSendAction × TimePoint :=
  if a.state.state = .progress then a.checkTimeout currentTime else (a, currentTime)

def lowLevelUpdate (a : ChannelPacketSendAction) : ChannelPacketSendAction :=
  let lowLevel := a.lowLevelSendAction.update
  if a.lowLevelSendAction.alive ∧ ¬ lowLevel.alive then
    { a with
      lowLevelSendAction := lowLevel
      state := a.state.set lowLevel.state.state
      reported := some lowLevel.state.state }
  else { a with lowLevelSendAction := lowLevel }

/-- The socket is written for the low level action, which the queue does as long as the action is
queued or in progress. -/
def write (a : ChannelPacketSendAction) (result : SendResult) : ChannelPacketSendAction :=
  let p := a.lowLevelSendAction
  if p.alive ∧ (p.state.state = .queued ∨ p.state.state = .progress) then
    a.follow (p.send result).1
  else a

end ChannelPacketSendAction

inductive ChannelSendEvent where
  | write (result : SendResult)
  | lowLevelUpdate
  | update (currentTime : TimePoint)
  | stop
deriving DecidableEq, Repr

namespace ChannelPacketSendAction

/-- An action that has reported its end is erased: nothing can happen to it. -/
def step (a : ChannelPacketSendAction) (e : ChannelSendEvent) : Option ChannelPacketSendAction :=
  if a.reported.isSome then none
  else
    match e with
    | .write result => some (a.write result)
    | .lowLevelUpdate => some a.lowLevelUpdate
    | .update currentTime => some (a.update currentTime).1
    | .stop => some a.stop

/-- The low level action that `Stop` and `CheckTimeout` reach through their view is still there, and
the wrapper is in progress only while that action is. -/
structure InStep (a : ChannelPacketSendAction) : Prop where
  alive : a.reported = none → a.lowLevelSendAction.alive = true
  progress : a.state.state = .progress → a.lowLevelSendAction.state.state = .progress

section Steps
variable {a a' : ChannelPacketSendAction}

theorem InStep.follow (h : a.InStep) {p : UnixPacketSendAction}
    (hp : p.alive = a.lowLevelSendAction.alive) : (a.follow p).InStep := by
  constructor
  · intro hreported
    simp only [ChannelPacketSendAction.follow] at hreported ⊢
    rw [hp]
    exact h.alive hreported
  · intro hprogress
    simp only [ChannelPacketSendAction.follow] at hprogress ⊢
    split at hprogress
    · rw [StateMachine.state_set] at hprogress
      exact hprogress
    · next hsame =>
      rw [not_not.mp hsame]
      exact h.progress hprogress

theorem alive_stop (p : UnixPacketSendAction) : p.stop.alive = p.alive := by
  unfold UnixPacketSendAction.stop
  split <;> rfl

theorem alive_send (p : UnixPacketSendAction) (result : SendResult) :
    (p.send result).1.alive = p.alive := by
  have hstart : p.start.alive = p.alive := by
    unfold UnixPacketSendAction.start
    split <;> rfl
  rw [← hstart]
  cases result with
  | accepted n =>
    simp only [UnixPacketSendAction.send]
    split <;> rfl
  | wouldBlock => rfl
  | error => rfl

theorem state_update (p : UnixPacketSendAction) : p.update.state.state = p.state.state := by
  unfold UnixPacketSendAction.update
  split <;> rfl

theorem InStep.stop (h : a.InStep) : a.stop.InStep := h.follow (alive_stop _)

theorem InStep.write (h : a.InStep) (result : SendResult) : (a.write result).InStep := by
  unfold ChannelPacketSendAction.write
  simp only
  split
  · exact h.follow (alive_send _ _)
  · exact h

theorem InStep.lowLevelUpdate (h : a.InStep) : a.lowLevelUpdate.InStep := by
  have hstate := state_update a.lowLevelSendAction
  unfold ChannelPacketSendAction.lowLevelUpdate
  simp only
  split
  · constructor
    · intro hreported
      cases hreported
    · intro hprogress
      rwa [StateMachine.state_set] at hprogress
  · next hends =>
    constructor
    · intro hreported
      by_contra hgone
      exact hends ⟨h.alive hreported, hgone⟩
    · intro hprogress
      rw [hstate]
      exact h.progress hprogress

theorem update_of_lt {t : TimePoint} (hprogress : a.state.state = .progress)
    (h : a.sendTimeout < t) : a.update t = (a, a.sendTimeout) := by
  rw [update, if_pos hprogress, checkTimeout, if_pos h]

theorem update_of_le {t : TimePoint} (hprogress : a.state.state = .progress)
    (h : t ≤ a.sendTimeout) :
    a.update t = ({ a.stop with state := a.stop.state.set .timeout }, t) := by
  rw [update, if_pos hprogress, checkTimeout, if_neg (Int.not_lt.mpr h)]

theorem InStep.update (h : a.InStep) (t : TimePoint) : (a.update t).1.InStep := by
  by_cases hprogress : a.state.state = .progress
  · by_cases hlt : a.sendTimeout < t
    · rw [update_of_lt hprogress hlt]
      exact h
    · rw [update_of_le hprogress (Int.not_lt.mp hlt)]
      refine ⟨h.stop.alive, fun htimeout => ?_⟩
      rw [StateMachine.state_set] at htimeout
      cases htimeout
  · rw [ChannelPacketSendAction.update, if_neg hprogress]
    exact h

theorem InStep.step (h : a.InStep) {e : ChannelSendEvent} (hstep : a.step e = some a') :
    a'.InStep := by
  unfold ChannelPacketSendAction.step at hstep
  split at hstep
  · cases hstep
  · cases e <;> cases hstep
    · exact h.write _
    · exact h.lowLevelUpdate
    · exact h.update _
    · exact h.stop

theorem run_inStep {lowLevel : UnixPacketSendAction} (h : lowLevel.alive = true)
    {currentTime second : TimePoint} {events : List ChannelSendEvent}
    (hrun : Runs.run step (send lowLevel currentTime second) events = some a) : a.InStep := by
  have hsend : (send lowLevel currentTime second).InStep :=
    ⟨fun _ => h, fun hprogress => by simp [send] at hprogress⟩
  exact Runs.run_preserves (P := fun _ _ => True) (fun _ _ _ hs _ hstep => hs.step hstep) hsend
    (Runs.Along.of_forall fun _ _ _ => trivial) hrun

theorem run_inStep_stopped : ∃ a, Runs.run step (send { data := [1, 7] } 0 1000)
    [.write (.accepted 1), .stop, .update 500, .lowLevelUpdate] = some a ∧ a.InStep :=
  Exists.imp (fun _ hrun => ⟨hrun, run_inStep rfl hrun⟩) ⟨_, rfl⟩

end Steps

/-- What the updates of an action in progress are for: up to the deadline they ask to be called
again at the deadline, and the first one after it gives the packet up. -/
def FiresWhenDue : ChannelPacketSendAction → List TimePoint → Prop
  | _, [] => True
  | a, t :: times =>
    if a.sendTimeout < t then
      (a.update t).1.state.state = .timeout ∧
        (a.update t).1.lowLevelSendAction.state.state = .stopped
    else a.update t = (a, a.sendTimeout) ∧ FiresWhenDue (a.update t).1 times

theorem firesWhenDue_iff {a : ChannelPacketSendAction} (h : a.state.state = .progress)
    (times : List TimePoint) : a.FiresWhenDue times ↔ times = [] := by
  cases times with
  | nil => simp [FiresWhenDue]
  | cons t times =>
    simp only [FiresWhenDue, reduceCtorEq, iff_false]
    split
    · next hlt =>
      -- after the deadline the action stays as it is
      rw [update_of_lt h hlt]
      rintro ⟨htimeout, -⟩
      rw [h] at htimeout
      cases htimeout
    · next hle =>
      rw [update_of_le h (Int.not_lt.mp hle)]
      rintro ⟨hsame, -⟩
      have hstate := congrArg (fun r => r.1.state.state) hsame
      simp only [StateMachine.state_set, h] at hstate
      cases hstate

/-- A packet whose second half waits for the socket. -/
theorem firesWhenDue_iff_half_sent :
    FiresWhenDue ⟨⟨.progress, true⟩, ⟨⟨.progress, true⟩, [1, 7], 1, true, 1⟩, 1000, none⟩ [500, 1500] ↔
      [500, 1500] = ([] : List TimePoint) :=
  firesWhenDue_iff rfl [500, 1500]

/-- The packet waits behind another one, is begun when its turn comes and given up by the next
update, long before its time is over. -/
theorem not_firesWhenDue :
    ¬ ∀ (lowLevel : UnixPacketSendAction) (currentTime second : TimePoint)
        (events : List ChannelSendEvent) (a : ChannelPacketSendAction) (times : List TimePoint),
      lowLevel.alive = true → Runs.run step (send lowLevel currentTime second) events = some a →
      a.state.state = .progress → times.Pairwise (· ≤ ·) → a.FiresWhenDue times := by
  intro h
  have hfires := h { data := [1, 7] } 0 1000 [.write (.accepted 1)]
    ⟨⟨.progress, true⟩, ⟨⟨.progress, true⟩, [1, 7], 1, true, 1⟩, 1000, none⟩ [10]
    rfl (by decide) rfl (by simp)
  rw [FiresWhenDue, if_neg (by decide)] at hfires
  exact absurd hfires.1 (by decide)

end ChannelPacketSendAction

end AetherClient
