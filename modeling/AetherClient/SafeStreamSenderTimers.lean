import AetherClient.SafeStreamSenderRuns
import AetherClient.Tables

set_option autoImplicit false

namespace AetherClient
open Runs

def SenderEvent.time : SenderEvent → Option TimePoint
  | .update currentTime => some currentTime
  | _ => none

def SenderTimesOrdered (events : List SenderEvent) : Prop :=
  (events.filterMap SenderEvent.time).Pairwise (· ≤ ·)

instance (events : List SenderEvent) : Decidable (SenderTimesOrdered events) :=
  inferInstanceAs (Decidable (List.Pairwise _ _))

namespace SendingChunkList

def sendTimes (chunks : List SendingChunk) : List TimePoint :=
  chunks.map SendingChunk.sendTime

section Times
variable {w : ℕ} {chunks : List SendingChunk} {offset : SafeStreamRingIndex}

theorem removeUpTo_sendTimes :
    (sendTimes (removeUpTo w chunks offset)).Sublist (sendTimes chunks) := by
  apply Tables.filterMap_map_sublist
  intro sch left hl
  dsimp only at hl
  split_ifs at hl
  · cases hl
    rfl
  · cases hl
    rfl

theorem cutOverlap_sendTimes (range : OffsetRange) :
    (sendTimes (chunks.filterMap (cutOverlap range))).Sublist (sendTimes chunks) := by
  apply Tables.filterMap_map_sublist
  intro sch left hl
  unfold cutOverlap at hl
  split_ifs at hl
  · cases hl
    rfl
  · cases hl
    rfl
  · cases hl
    rfl

theorem register_sendTimes (w : ℕ) (chunks : List SendingChunk)
    (begin end_ : SafeStreamRingIndex) (sendTime : TimePoint) :
    (sendTimes (register w chunks begin end_ sendTime).1).Sublist (sendTimes chunks) ∧
      (register w chunks begin end_ sendTime).2.sendTime = sendTime := by
  unfold register
  dsimp only
  split
  · exact ⟨List.Sublist.refl _, rfl⟩
  · split_ifs
    · exact ⟨List.eraseP_sublist.map _, rfl⟩
    · exact ⟨cutOverlap_sendTimes _, rfl⟩

end Times
end SendingChunkList

namespace SafeStreamSending
open SendDataBuffer SendingChunkList

section Times
variable {config : SafeStreamConfig} {s s' : SafeStreamSending} {t time : TimePoint}
  {m : Option Message}

theorem sendChunk_sendTimes (config : SafeStreamConfig) (s : SafeStreamSending)
    (chunk : DataChunk) (t : TimePoint) :
    (sendTimes (s.sendChunk config chunk t).1.sendingChunks).Sublist
      (sendTimes s.sendingChunks ++ [t]) := by
  obtain ⟨hothers, htime⟩ := register_sendTimes config.windowSize s.sendingChunks chunk.offset
    (chunk.offset + sizeMinusOne chunk.data.length) t
  have hback : ∀ last : SendingChunk, last.sendTime = t → (sendTimes
      ((register config.windowSize s.sendingChunks chunk.offset
        (chunk.offset + sizeMinusOne chunk.data.length) t).1 ++ [last])).Sublist
      (sendTimes s.sendingChunks ++ [t]) := by
    intro last hl
    unfold sendTimes at hothers ⊢
    rw [List.map_append, List.map_singleton, hl]
    exact hothers.append_right _
  unfold sendChunk
  dsimp only
  split_ifs
  · exact hback _ htime
  · exact removeUpTo_sendTimes.trans (hback _ htime)
  · exact hback _ htime

theorem update_sendTimes (h : s.update config t = some (s', m, time)) :
    (sendTimes s'.sendingChunks).Sublist (sendTimes s.sendingChunks ++ [t]) := by
  obtain ⟨o, _, he, _⟩ := handleTimeouts_eq config s t
  obtain ⟨_, ⟨_, b, rfl, _⟩ | ⟨b, chunk, _, _, _, _, _, hsent⟩⟩ := update_inversion h
  · rw [he]
    exact List.sublist_append_left _ _
  · have hback := sendChunk_sendTimes config
      { (s.handleTimeouts config t).1 with sendDataBuffer := b } chunk t
    rw [hsent, he] at hback
    exact hback

end Times
end SafeStreamSending

namespace SenderWorld
open SendingChunkList

section Times
variable {config : SafeStreamConfig} {w w' : SenderWorld} {events : List SenderEvent}

theorem step_sendTimes {e : SenderEvent} (h : step config w e = some w') :
    (sendTimes w'.sending.sendingChunks).Sublist
      (sendTimes w.sending.sendingChunks ++ e.time.toList) := by
  rcases step_cases h with ⟨data, rfl, _, hsend⟩ |
    ⟨_, ⟨t, m, time, rfl, hu⟩ | ⟨_, ⟨_, hq⟩ | ⟨o, _, _, _, hq⟩⟩⟩
  · rw [SafeStreamSending.sendData_inversion hsend]
    exact List.sublist_append_left _ _
  · exact SafeStreamSending.update_sendTimes hu
  · rw [hq]
    exact List.sublist_append_left _ _
  · rw [hq]
    exact removeUpTo_sendTimes.trans (List.sublist_append_left _ _)

theorem run_sendTimes (h : run (step config) {} events = some w) :
    (sendTimes w.sending.sendingChunks).Sublist (events.filterMap SenderEvent.time) := by
  induction events using List.reverseRecOn generalizing w with
  | nil =>
    cases h
    exact List.Sublist.refl _
  | append_singleton events e ih =>
    rw [run_append] at h
    obtain ⟨v, hv, he⟩ := Option.bind_eq_some_iff.1 h
    have hstep : step config v e = some w := by simpa [run] using he
    have htime : [e].filterMap SenderEvent.time = e.time.toList := by
      cases hte : e.time <;> simp [hte]
    rw [List.filterMap_append, htime]
    exact (step_sendTimes hstep).trans ((ih hv).append_right _)

end Times

def IsOldest (chunks : List SendingChunk) (ch : SendingChunk) : Prop :=
  ∀ c ∈ chunks, ch.sendTime ≤ c.sendTime

/-- An update at `t` moves back exactly when a chunk has waited longer than the timeout, to the
begin of an oldest chunk, and what it sends starts there. -/
structure ResendsOldest (config : SafeStreamConfig) (s : SafeStreamSending) (t : TimePoint) :
    Prop where
  expired : (∃ ch ∈ s.sendingChunks, ch.sendTime + config.waitConfirmTimeout < t) →
    ∃ ch ∈ s.sendingChunks, IsOldest s.sendingChunks ch ∧
      (s.handleTimeouts config t).1 = { s with lastSentOffset := ch.beginOffset }
  waiting : (¬ ∃ ch ∈ s.sendingChunks, ch.sendTime + config.waitConfirmTimeout < t) →
    (s.handleTimeouts config t).1 = s
  starts : ∀ s' m time, s.update config t = some (s', some m, time) →
    m.start = (s.handleTimeouts config t).1.lastSentOffset.value

section Front
variable {config : SafeStreamConfig} {s : SafeStreamSending} {t : TimePoint}

theorem isOldest_head {front : SendingChunk} {rest : List SendingChunk}
    (h : (sendTimes (front :: rest)).Pairwise (· ≤ ·)) : IsOldest (front :: rest) front := by
  intro c hc
  rcases List.mem_cons.1 hc with rfl | hc
  · exact Int.le_refl _
  · exact (List.pairwise_cons.1 h).1 c.sendTime (List.mem_map_of_mem hc)

theorem update_message_start {s' : SafeStreamSending} {m : Message} {time : TimePoint}
    (h : s.update config t = some (s', some m, time)) :
    m.start = (s.handleTimeouts config t).1.lastSentOffset.value := by
  obtain ⟨_, ⟨hn, _⟩ | ⟨b, chunk, _, _, _, _, hoff, hsent⟩⟩ :=
    SafeStreamSending.update_inversion h
  · cases hn
  · obtain ⟨_, _, _, _, ⟨_, m', hm, hstart, _⟩ | ⟨hm, _⟩⟩ := SafeStreamSending.sendChunk_spec config
      { (s.handleTimeouts config t).1 with sendDataBuffer := b } chunk t
    · rw [hsent] at hm
      cases hm
      rw [hstart, hoff]
    · rw [hsent] at hm
      cases hm

theorem resendsOldest_of_sorted (h : (sendTimes s.sendingChunks).Pairwise (· ≤ ·)) :
    ResendsOldest config s t where
  expired := by
    rintro ⟨ch, hch, hlt⟩
    cases hq : s.sendingChunks with
    | nil =>
      rw [hq] at hch
      cases hch
    | cons front rest =>
      rw [hq] at h hch
      have hold := isOldest_head h
      have hfront : front.sendTime + config.waitConfirmTimeout < t :=
        Int.lt_of_le_of_lt (Int.add_le_add_right (hold ch hch) _) hlt
      refine ⟨front, List.mem_cons_self, hold, ?_⟩
      simp only [SafeStreamSending.handleTimeouts, hq, if_pos hfront]
  waiting := by
    intro hnone
    cases hq : s.sendingChunks with
    | nil => simp only [SafeStreamSending.handleTimeouts, hq]
    | cons front rest =>
      have hfront : ¬ front.sendTime + config.waitConfirmTimeout < t := by
        intro hlt
        exact hnone ⟨front, by rw [hq]; exact List.mem_cons_self, hlt⟩
      simp only [SafeStreamSending.handleTimeouts, hq, if_neg hfront]
  starts := fun _ _ _ hu => update_message_start hu

end Front

/-- In every history with non-decreasing times the outstanding chunks are ordered by their send
times, so the chunk that an update looks at is an oldest one. -/
theorem chunks_ordered_resends_oldest (config : SafeStreamConfig) (events : List SenderEvent)
    (t : TimePoint) (w : SenderWorld) (ht : SenderTimesOrdered (events ++ [.update t]))
    (hr : run (step config) {} events = some w) :
    (sendTimes w.sending.sendingChunks).Pairwise (· ≤ ·) ∧ ResendsOldest config w.sending t := by
  have hevents : (events.filterMap SenderEvent.time).Pairwise (· ≤ ·) := by
    unfold SenderTimesOrdered at ht
    rw [List.filterMap_append] at ht
    exact (List.pairwise_append.1 ht).1
  have hsorted := hevents.sublist (run_sendTimes hr)
  exact ⟨hsorted, resendsOldest_of_sorted hsorted⟩

theorem chunks_ordered_resends_oldest_timeout :
    ∃ w, run (step testConfig) {}
        [.setMaxDataSize 2, .write [1, 2, 3, 4], .update 0, .update 10, .requestRepeat 0,
          .update 20] = some w ∧
      (sendTimes w.sending.sendingChunks).Pairwise (· ≤ ·) ∧
      ResendsOldest testConfig w.sending 100 :=
  ⟨_, rfl, chunks_ordered_resends_oldest testConfig
    [.setMaxDataSize 2, .write [1, 2, 3, 4], .update 0, .update 10, .requestRepeat 0, .update 20]
    100 _ (by decide) rfl⟩

/-- If a chunk is outstanding after the update, the returned time lies after `t` and no later
than the moment at which the timeout of any of them expires. -/
def WakesInTime (config : SafeStreamConfig) (s' : SafeStreamSending) (t time : TimePoint) :
    Prop :=
  s'.sendingChunks ≠ [] →
    t < time ∧ ∀ ch ∈ s'.sendingChunks, time ≤ ch.sendTime + config.waitConfirmTimeout

/-- The packet limit is zero, the window test refuses, or no buffered write has the position to
send from in range. -/
def NothingToSend (config : SafeStreamConfig) (s : SafeStreamSending) : Prop :=
  s.maxDataSize = 0 ∨
    config.windowSize < s.lastConfirmed.distance (s.lastSentOffset + s.maxDataSize) ∨
    ∀ a ∈ s.sendDataBuffer.sendActionViews,
      (a.sendingData.getOffsetRange config.windowSize).inRange s.lastSentOffset = false

instance (config : SafeStreamConfig) (s : SafeStreamSending) :
    Decidable (NothingToSend config s) :=
  inferInstanceAs (Decidable (_ ∨ _ ∨ _))

def TimerCovers (config : SafeStreamConfig) (s : SafeStreamSending) (t : TimePoint) : Prop :=
  (∃ front ∈ s.sendingChunks.head?, t < front.sendTime + config.waitConfirmTimeout) ∨
    (s.sendingChunks = [] ∧ NothingToSend config s)

instance (config : SafeStreamConfig) (s : SafeStreamSending) (t : TimePoint) :
    Decidable (TimerCovers config s t) :=
  inferInstanceAs (Decidable (_ ∨ _))

section Wake
variable {config : SafeStreamConfig} {s s' : SafeStreamSending} {t time : TimePoint}
  {m : Option Message}

theorem sendSlice_of_nothingToSend (hm : s.maxDataSize ≠ 0) (hn : NothingToSend config s) :
    s.sendSlice config t = some (s, none) := by
  unfold SafeStreamSending.sendSlice
  split_ifs with hwin
  · rfl
  · rcases hn with hmax | hfar | hout
    · exact absurd hmax hm
    · exact absurd hfar hwin
    · rw [SendDataBuffer.getSlice_of_outside hout]
      rfl

theorem update_of_nothingToSend (hq : s.sendingChunks = []) (hn : NothingToSend config s) :
    s.update config t = some (s, none, t) := by
  have htimed : s.handleTimeouts config t = (s, t) := by
    simp only [SafeStreamSending.handleTimeouts, hq]
  simp only [SafeStreamSending.update, htimed]
  split_ifs with hm
  · rw [sendSlice_of_nothingToSend hm hn]
    rfl
  · rfl

theorem wakesInTime_of_front {front : SendingChunk} {rest : List SendingChunk}
    (hq : s.sendingChunks = front :: rest)
    (hsorted : (sendTimes s.sendingChunks ++ [t]).Pairwise (· ≤ ·))
    (hlt : t < front.sendTime + config.waitConfirmTimeout)
    (h : s.update config t = some (s', m, time)) : WakesInTime config s' t time := by
  have htime : time = front.sendTime + config.waitConfirmTimeout := by
    rw [(SafeStreamSending.update_inversion h).1]
    simp only [SafeStreamSending.handleTimeouts, hq, if_neg (Int.not_lt.2 (Int.le_of_lt hlt))]
  have hold : ∀ u ∈ sendTimes s.sendingChunks ++ [t], front.sendTime ≤ u := by
    rw [hq] at hsorted ⊢
    intro u hu
    rcases List.mem_cons.1 hu with rfl | hu
    · exact Int.le_refl _
    · exact (List.pairwise_cons.1 hsorted).1 u hu
  intro _
  rw [htime]
  refine ⟨hlt, ?_⟩
  intro ch hch
  have hmem := (SafeStreamSending.update_sendTimes h).subset (List.mem_map_of_mem hch)
  exact Int.add_le_add_right (hold _ hmem) _

end Wake

/-- After any history with non-decreasing times, an update that finds the front timeout running,
or nothing outstanding and nothing to send, asks to be woken in time. -/
theorem update_wakes_in_time (config : SafeStreamConfig) (events : List SenderEvent)
    (t : TimePoint) (w : SenderWorld) (s' : SafeStreamSending) (m : Option Message)
    (time : TimePoint) (ht : SenderTimesOrdered (events ++ [.update t]))
    (hr : run (step config) {} events = some w) (hc : TimerCovers config w.sending t)
    (hu : w.sending.update config t = some (s', m, time)) :
    WakesInTime config s' t time := by
  rcases hc with ⟨front, hfront, hlt⟩ | ⟨hq, hn⟩
  · obtain ⟨rest, hq⟩ := List.head?_eq_some_iff.1 hfront
    have hsorted : (sendTimes w.sending.sendingChunks ++ [t]).Pairwise (· ≤ ·) := by
      unfold SenderTimesOrdered at ht
      rw [List.filterMap_append] at ht
      exact ht.sublist ((run_sendTimes hr).append_right _)
    exact wakesInTime_of_front hq hsorted hlt hu
  · rw [update_of_nothingToSend hq hn] at hu
    cases hu
    intro hne
    exact absurd hq hne

theorem update_wakes_in_time_second_packet :
    ∃ w s' m time, run (step testConfig) {}
        [.setMaxDataSize 2, .write [1, 2, 3, 4], .update 0] = some w ∧
      w.sending.update testConfig 10 = some (s', m, time) ∧ s'.sendingChunks ≠ [] ∧
      WakesInTime testConfig s' 10 time :=
  ⟨_, _, _, _, rfl, rfl, by decide, update_wakes_in_time testConfig
    [.setMaxDataSize 2, .write [1, 2, 3, 4], .update 0] 10 _ _ _ _ (by decide) rfl (by decide) rfl⟩

/-- The update that sends the first packet returns the current time: no wake-up is scheduled for
the timeout of that packet. -/
theorem first_packet_asks_for_no_wake :
    ¬ ∀ (config : SafeStreamConfig) (events : List SenderEvent) (t : TimePoint) (w : SenderWorld)
      (s' : SafeStreamSending) (m : Option Message) (time : TimePoint),
      SenderTimesOrdered (events ++ [.update t]) → run (step config) {} events = some w →
      w.sending.update config t = some (s', m, time) → WakesInTime config s' t time := by
  intro h
  have hw := h testConfig [.setMaxDataSize 4, .write [1, 2]] 0 _ _ _ _ (by decide) rfl rfl
  exact absurd (hw (by decide)).1 (by decide)

end SenderWorld
end AetherClient
