import AetherClient.SafeStreamReceivingIntegrity

set_option autoImplicit false

namespace AetherClient
open Pieces Runs

inductive ReceiverEvent where
  | send (offset : ℕ) (data : DataBuffer)
  | repeat_ (repeatCount offset : ℕ) (data : DataBuffer)
  | update (currentTime : TimePoint)
deriving DecidableEq, Repr

structure ReceiverResponse where
  packet : Packet
  handed : DataBuffer
deriving DecidableEq, Repr

structure ReceiverWorld where
  receiving : SafeStreamReceiving := {}
  received : List DataBuffer := []
  responses : List ReceiverResponse := []
  accepted : List ReceivingChunk := []
deriving DecidableEq, Repr

namespace ReceiverEvent

def IsPieceOf (stream : DataBuffer) : ReceiverEvent → Prop
  | .send offset data => data ≠ [] ∧ IsPiece stream offset data
  | .repeat_ _ offset data => data ≠ [] ∧ IsPiece stream offset data
  | .update _ => True

instance (stream : DataBuffer) : DecidablePred (IsPieceOf stream)
  | .send offset data => inferInstanceAs (Decidable (data ≠ [] ∧ IsPiece stream offset data))
  | .repeat_ _ offset data =>
    inferInstanceAs (Decidable (data ≠ [] ∧ IsPiece stream offset data))
  | .update _ => inferInstanceAs (Decidable True)

def time : ReceiverEvent → Option TimePoint
  | .update currentTime => some currentTime
  | _ => none

end ReceiverEvent

def TimesOrdered (events : List ReceiverEvent) : Prop :=
  (events.filterMap ReceiverEvent.time).Pairwise (· ≤ ·)

instance (events : List ReceiverEvent) : Decidable (TimesOrdered events) :=
  inferInstanceAs (Decidable (List.Pairwise _ _))

namespace ReceiverWorld
section Step
variable (config : SafeStreamConfig)

def accept (w : ReceiverWorld) (offset : SafeStreamRingIndex) (data : DataBuffer) :
    List ReceivingChunk :=
  if config.windowSize ≤ w.receiving.lastConfirmedOffset.distance offset then w.accepted
  else w.accepted ++ [⟨offset, data⟩]

def step (w : ReceiverWorld) : ReceiverEvent → Option ReceiverWorld
  | .send offset data =>
    (w.receiving.receiveSend config (.ofVal offset) data).map fun r =>
      { w with receiving := r, accepted := w.accept config (.ofVal offset) data }
  | .repeat_ repeatCount offset data =>
    (w.receiving.receiveRepeat config (.ofVal offset) repeatCount data).map fun r =>
      { w with receiving := r, accepted := w.accept config (.ofVal offset) data }
  | .update currentTime =>
    let res := w.receiving.update config currentTime
    let received := w.received ++ res.2.received.toList
    some { w with
      receiving := res.1
      received := received
      responses := w.responses ++ res.2.response.toList.map fun p => ⟨p, received.flatten⟩ }

end Step

def handed (w : ReceiverWorld) : DataBuffer := w.received.flatten

def Inv (stream : DataBuffer) (w : ReceiverWorld) : Prop :=
  SafeStreamReceiving.Inv stream w.receiving w.handed

theorem handed_update (w : ReceiverWorld) (received : Option DataBuffer) :
    (w.received ++ received.toList).flatten = w.handed ++ received.getD [] := by
  cases received <;> simp [handed]

section Integrity
variable {config : SafeStreamConfig} {stream : DataBuffer}

theorem step_inv (hw : config.windowSize < 32768) (hlen : stream.length < 65535)
    (w : ReceiverWorld) (e : ReceiverEvent) (h : Inv stream w) (he : e.IsPieceOf stream) :
    ∃ w', step config w e = some w' ∧ Inv stream w' := by
  cases e with
  | send offset data =>
    obtain ⟨_, hc⟩ := SafeStreamReceiving.truePiece_ofVal hlen he
    obtain ⟨r, hr, _, hi⟩ := SafeStreamReceiving.receiveSend_inv config hw hlen hc h
    simp only [step, hr, Option.map_some]
    exact ⟨_, rfl, hi⟩
  | repeat_ count offset data =>
    obtain ⟨_, hc⟩ := SafeStreamReceiving.truePiece_ofVal hlen he
    obtain ⟨r, hr, _, hi⟩ := SafeStreamReceiving.receiveRepeat_inv config count hw hlen hc h
    simp only [step, hr, Option.map_some]
    exact ⟨_, rfl, hi⟩
  | update t =>
    refine ⟨_, rfl, ?_⟩
    obtain ⟨hi, _⟩ := SafeStreamReceiving.update_inv config hlen h t
    unfold Inv
    change SafeStreamReceiving.Inv stream _ (_ ++ Option.toList _).flatten
    rw [handed_update]
    exact hi

theorem init_inv (stream : DataBuffer) : Inv stream {} := SafeStreamReceiving.Inv.init stream

/-- Whatever true pieces arrive, in whatever order, overlap and number, the run is
defined and the bytes handed over are the stream up to the last confirmed offset. -/
theorem received_prefix_of_stream (config : SafeStreamConfig) (stream : DataBuffer)
    (events : List ReceiverEvent) (hw : config.windowSize < 32768)
    (hlen : stream.length < 65535) (hp : ∀ e ∈ events, e.IsPieceOf stream) :
    ∃ w, run (step config) {} events = some w ∧ w.received.flatten <+: stream ∧
      w.received.flatten.length = w.receiving.lastConfirmedOffset.value := by
  obtain ⟨w, hr, hi⟩ := run_invariant (I := Inv stream) (P := fun _ e => e.IsPieceOf stream)
    (fun w e h he => step_inv hw hlen w e h he) (init_inv stream)
    (Along.of_forall fun e he _ => hp e he)
  refine ⟨w, hr, ?_, hi.received_length⟩
  rw [show w.received.flatten = _ from hi.received_eq]
  exact List.take_prefix _ _

theorem received_prefix_of_stream_overlap :
    ∃ w, run (step testConfig) {}
        [.send 2 [3, 4], .update 1, .repeat_ 1 2 [3], .send 0 [1, 2, 3], .update 2] = some w ∧
      w.received.flatten <+: [1, 2, 3, 4] ∧
      w.received.flatten.length = w.receiving.lastConfirmedOffset.value :=
  received_prefix_of_stream testConfig [1, 2, 3, 4]
    [.send 2 [3, 4], .update 1, .repeat_ 1 2 [3], .send 0 [1, 2, 3], .update 2]
    (by decide) (by decide) (by decide)

end Integrity

/-- Every confirm was put into its packet after the bytes it names were handed over. -/
def ConfirmsDelivered (stream : DataBuffer) (w : ReceiverWorld) : Prop :=
  ∀ response ∈ w.responses, ∀ o, .confirm o ∈ response.packet →
    o < response.handed.length ∧ stream.take (o + 1) <+: response.handed

/-- A repeat that the window test drops ends at or before the confirmed offset. -/
def DroppedRepeatIsOld (config : SafeStreamConfig) (w : ReceiverWorld) : ReceiverEvent → Prop
  | .repeat_ _ offset data =>
    config.windowSize ≤ w.receiving.lastConfirmedOffset.distance (.ofVal offset) →
      offset + data.length ≤ w.receiving.lastConfirmedOffset.value
  | _ => True

instance (config : SafeStreamConfig) (w : ReceiverWorld) :
    DecidablePred (DroppedRepeatIsOld config w)
  | .repeat_ _ offset data => inferInstanceAs (Decidable
      (config.windowSize ≤ w.receiving.lastConfirmedOffset.distance (.ofVal offset) →
        offset + data.length ≤ w.receiving.lastConfirmedOffset.value))
  | .send _ _ => inferInstanceAs (Decidable True)
  | .update _ => inferInstanceAs (Decidable True)

/-- A repeat one window ahead of an empty receiver is confirmed without delivery. -/
theorem confirm_without_delivery :
    ¬ ∀ (config : SafeStreamConfig) (stream : DataBuffer) (events : List ReceiverEvent),
      stream.length < 65535 → (∀ e ∈ events, e.IsPieceOf stream) → TimesOrdered events →
      ∃ w, run (step config) {} events = some w ∧ ConfirmsDelivered stream w := by
  intro h
  obtain ⟨w, hr, hs⟩ := h narrowConfig [1, 2, 3, 4, 5] [.repeat_ 1 4 [5], .update 0]
    (by decide) (by decide) (by decide)
  have hw : w.responses = [⟨[.confirm 4], []⟩] :=
    run_observe (f := fun w => w.responses) hr (by decide)
  have hc := hs ⟨[.confirm 4], []⟩ (by rw [hw]; exact List.mem_singleton.2 rfl) 4
    (List.mem_singleton.2 rfl)
  exact absurd hc.1 (by decide)

structure ConfirmInv (stream : DataBuffer) (w : ReceiverWorld) : Prop where
  inv : Inv stream w
  queued : w.receiving.ConfirmsBelow
  written : ConfirmsDelivered stream w

section Confirms
variable {config : SafeStreamConfig} {stream : DataBuffer}

theorem init_confirmInv (stream : DataBuffer) : ConfirmInv stream {} := by
  refine ⟨init_inv stream, ?_, ?_⟩
  · intro o ho
    cases ho
  · intro response hr
    cases hr

theorem step_confirmInv (hw : config.windowSize < 32768) (hlen : stream.length < 65535)
    (w : ReceiverWorld) (e : ReceiverEvent) (h : ConfirmInv stream w)
    (he : e.IsPieceOf stream ∧ DroppedRepeatIsOld config w e) :
    ∃ w', step config w e = some w' ∧ ConfirmInv stream w' := by
  obtain ⟨hp, hold⟩ := he
  obtain ⟨w', hstep, hi⟩ := step_inv hw hlen w e h.inv hp
  refine ⟨w', hstep, ?_⟩
  cases e with
  | send offset data =>
    obtain ⟨r, hr, rfl⟩ := Option.map_eq_some_iff.1 hstep
    exact ⟨hi, SafeStreamReceiving.receiveSend_confirmsBelow hw hlen hp h.inv h.queued hr,
      h.written⟩
  | repeat_ count offset data =>
    obtain ⟨r, hr, rfl⟩ := Option.map_eq_some_iff.1 hstep
    exact ⟨hi, SafeStreamReceiving.receiveRepeat_confirmsBelow count hw hlen hp h.inv h.queued
      hold hr, h.written⟩
  | update t =>
    obtain ⟨hbelow, hpacket⟩ :=
      SafeStreamReceiving.update_confirmsBelow config hlen h.inv h.queued t
    simp only [step, Option.some.injEq] at hstep
    subst hstep
    refine ⟨hi, hbelow, ?_⟩
    intro response hresp o ho
    rcases List.mem_append.1 hresp with hresp | hresp
    · exact h.written response hresp o ho
    · obtain ⟨packet, hpk, rfl⟩ := List.mem_map.1 hresp
      have hlt := hpacket packet (Option.mem_toList.1 hpk) o ho
      refine ⟨hlt.trans_eq hi.received_length.symm, ?_⟩
      have heq : (w.received ++ _).flatten = _ := hi.received_eq
      dsimp only
      rw [heq]
      exact List.take_prefix_take_left hlt

/-- In every run in which each dropped repeat is old, no packet confirms a byte that has
not been handed over. -/
theorem confirms_only_delivered (config : SafeStreamConfig) (stream : DataBuffer)
    (events : List ReceiverEvent) (hw : config.windowSize < 32768)
    (hlen : stream.length < 65535)
    (ha : Along (step config) (fun w e => e.IsPieceOf stream ∧ DroppedRepeatIsOld config w e)
      {} events) :
    ∃ w, run (step config) {} events = some w ∧ ConfirmsDelivered stream w := by
  obtain ⟨w, hr, hi⟩ := run_invariant (I := ConfirmInv stream)
    (fun w e h he => step_confirmInv hw hlen w e h he) (init_confirmInv stream) ha
  exact ⟨w, hr, hi.written⟩

theorem confirms_only_delivered_duplicate :
    ∃ w, run (step narrowConfig) {}
        [.send 0 [1, 2], .update 1, .repeat_ 1 0 [1, 2], .update 2] = some w ∧
      ConfirmsDelivered [1, 2, 3, 4, 5] w :=
  confirms_only_delivered narrowConfig [1, 2, 3, 4, 5]
    [.send 0 [1, 2], .update 1, .repeat_ 1 0 [1, 2], .update 2]
    (by decide) (by decide) (by decide)

end Confirms

end ReceiverWorld
end AetherClient
