import AetherClient.SafeStreamReceiverRuns

set_option autoImplicit false

namespace AetherClient
open Runs

namespace SafeStreamReceiving

/-- A chunk does not begin where the one before it ends, the first one where `next` is. -/
def HasGap : SafeStreamRingIndex → List ReceivingChunk → Prop
  | _, [] => False
  | next, chunk :: chunks =>
    chunk.offset ≠ next ∨ HasGap (chunk.offset + toUint16 chunk.data.length) chunks

instance HasGap.decidable : (next : SafeStreamRingIndex) → (chunks : List ReceivingChunk) →
    Decidable (HasGap next chunks)
  | _, [] => inferInstanceAs (Decidable False)
  | _, chunk :: chunks =>
    have := HasGap.decidable (chunk.offset + toUint16 chunk.data.length) chunks
    inferInstanceAs (Decidable (_ ∨ _))

def HasReady (r : SafeStreamReceiving) : Prop :=
  ∃ chunk ∈ r.receivedDataChunks.head?, chunk.offset = r.lastConfirmedOffset

theorem splitChain_rest_eq_nil_iff (next : SafeStreamRingIndex) (chunks : List ReceivingChunk) :
    (splitChain next chunks).2.1 = [] ↔ ¬ HasGap next chunks := by
  induction chunks generalizing next with
  | nil => simp [splitChain, HasGap]
  | cons chunk chunks ih =>
    unfold splitChain HasGap
    by_cases he : next = chunk.offset
    · rw [if_pos he]
      dsimp only
      rw [ih]
      simp [he]
    · rw [if_neg he]
      simp [Ne.symm he]

theorem splitChain_rest_head (next : SafeStreamRingIndex) (chunks : List ReceivingChunk)
    {chunk : ReceivingChunk} {rest : List ReceivingChunk}
    (h : (splitChain next chunks).2.1 = chunk :: rest) :
    chunk.offset ≠ (splitChain next chunks).2.2 := by
  induction chunks generalizing next with
  | nil => cases h
  | cons first chunks ih =>
    unfold splitChain at h ⊢
    by_cases he : next = first.offset
    · rw [if_pos he] at h ⊢
      exact ih _ h
    · rw [if_neg he] at h ⊢
      cases h
      exact Ne.symm he

section Deadlines
variable (config : SafeStreamConfig) (r : SafeStreamReceiving)

def confirmDeadline : TimePoint := r.lastSendConfirmTime + config.sendConfirmTimeout
def repeatDeadline : TimePoint := r.oldestRepeatTime + config.sendRepeatTimeout

end Deadlines

/-- After an update at `t`, chunks that the confirm timer holds back and a gap in front of a
stored chunk are each looked at again by their deadline. -/
structure AsksToBeWoken (config : SafeStreamConfig) (r : SafeStreamReceiving) (t : TimePoint) :
    Prop where
  held : t < (r.update config t).1.confirmDeadline config → (r.update config t).1.HasReady →
    t < (r.update config t).2.nextTime ∧
      (r.update config t).2.nextTime ≤ (r.update config t).1.confirmDeadline config
  missing : HasGap (r.update config t).1.lastConfirmedOffset
      (r.update config t).1.receivedDataChunks →
    t < (r.update config t).2.nextTime ∧
      (r.update config t).2.nextTime ≤ (r.update config t).1.repeatDeadline config

/-- Both timers are running, or nothing is stored, or the confirm timer has elapsed and all that
is stored is one chain from the confirmed offset. -/
def TimersCover (config : SafeStreamConfig) (r : SafeStreamReceiving) (t : TimePoint) : Prop :=
  (t < r.confirmDeadline config ∧ t < r.repeatDeadline config) ∨
    r.receivedDataChunks = [] ∨
    (r.confirmDeadline config ≤ t ∧ ¬ HasGap r.lastConfirmedOffset r.receivedDataChunks)

instance (config : SafeStreamConfig) (r : SafeStreamReceiving) (t : TimePoint) :
    Decidable (TimersCover config r t) :=
  inferInstanceAs (Decidable (_ ∨ _ ∨ _))

section Update
variable {config : SafeStreamConfig} {r : SafeStreamReceiving} {t : TimePoint}

theorem checkCompletedChains_of_running (h : t < r.confirmDeadline config) :
    checkCompletedChains config r t = (r, none, r.confirmDeadline config) :=
  if_pos h

theorem checkCompletedChains_of_elapsed (h : r.confirmDeadline config ≤ t) :
    (checkCompletedChains config r t).2.2 = t ∧
      (checkCompletedChains config r t).1.oldestRepeatTime = r.oldestRepeatTime ∧
      (checkCompletedChains config r t).1.receivedDataChunks =
        (splitChain r.lastConfirmedOffset r.receivedDataChunks).2.1 ∧
      (checkCompletedChains config r t).1.lastConfirmedOffset =
        (splitChain r.lastConfirmedOffset r.receivedDataChunks).2.2 := by
  have hnot : ¬ t < r.lastSendConfirmTime + config.sendConfirmTimeout := Int.not_lt.2 h
  unfold checkCompletedChains
  rw [if_neg hnot]
  dsimp only
  split_ifs with he
  · exact ⟨rfl, rfl, rfl, he.symm⟩
  · exact ⟨rfl, rfl, rfl, rfl⟩

theorem checkMissedOffset_of_running (h : t < r.repeatDeadline config) :
    checkMissedOffset config r t = (r, r.repeatDeadline config) :=
  if_pos h

theorem checkMissedOffset_time_of_elapsed (h : r.repeatDeadline config ≤ t) :
    (checkMissedOffset config r t).2 = t := by
  have hnot : ¬ t < r.oldestRepeatTime + config.sendRepeatTimeout := Int.not_lt.2 h
  unfold checkMissedOffset
  rw [if_neg hnot]

theorem update_times (config : SafeStreamConfig) (r : SafeStreamReceiving) (t : TimePoint) :
    let chains := checkCompletedChains config r t
    (r.update config t).2.nextTime = min chains.2.2 (checkMissedOffset config chains.1 t).2 ∧
      (r.update config t).1.lastSendConfirmTime =
        (checkMissedOffset config chains.1 t).1.lastSendConfirmTime ∧
      (r.update config t).1.oldestRepeatTime =
        (checkMissedOffset config chains.1 t).1.oldestRepeatTime := by
  intro chains
  simp only [update]
  split_ifs
  · exact ⟨rfl, rfl, rfl⟩
  · unfold makeResponse
    split_ifs
    · exact ⟨rfl, rfl, rfl⟩
    · exact ⟨rfl, rfl, rfl⟩

theorem repTime_of_elapsed (h : (checkCompletedChains config r t).1.repeatDeadline config ≤ t) :
    (r.update config t).2.nextTime ≤ t := by
  rw [(update_times config r t).1, checkMissedOffset_time_of_elapsed h]
  exact Int.min_le_right _ _

theorem confTime_of_elapsed (h : r.confirmDeadline config ≤ t) :
    (r.update config t).2.nextTime ≤ t := by
  rw [(update_times config r t).1, (checkCompletedChains_of_elapsed h).1]
  exact Int.min_le_left _ _

theorem hasReady_or_hasGap (h : r.receivedDataChunks ≠ []) :
    r.HasReady ∨ HasGap r.lastConfirmedOffset r.receivedDataChunks := by
  unfold HasReady
  cases hc : r.receivedDataChunks with
  | nil => exact absurd hc h
  | cons chunk chunks =>
    by_cases he : chunk.offset = r.lastConfirmedOffset
    · exact Or.inl ⟨chunk, rfl, he⟩
    · exact Or.inr (Or.inl he)

theorem update_of_running (h : t < r.confirmDeadline config) :
    (r.update config t).1.receivedDataChunks = r.receivedDataChunks ∧
      (r.update config t).1.lastConfirmedOffset = r.lastConfirmedOffset ∧
      (r.update config t).1.confirmDeadline config = r.confirmDeadline config := by
  obtain ⟨_, hchunks, hlast, _⟩ := update_spec config r t
  obtain ⟨_, htime, _⟩ := update_times config r t
  rw [checkCompletedChains_of_running h] at hchunks hlast htime
  refine ⟨hchunks, hlast, ?_⟩
  unfold confirmDeadline
  rw [htime, (checkMissedOffset_frame config r t).1.lastSendConfirmTime]

theorem update_of_elapsed (h : r.confirmDeadline config ≤ t) :
    (r.update config t).1.receivedDataChunks =
        (splitChain r.lastConfirmedOffset r.receivedDataChunks).2.1 ∧
      (r.update config t).1.lastConfirmedOffset =
        (splitChain r.lastConfirmedOffset r.receivedDataChunks).2.2 := by
  obtain ⟨_, hchunks, hlast, _⟩ := update_spec config r t
  obtain ⟨_, _, hsplit, hnext⟩ := checkCompletedChains_of_elapsed h
  exact ⟨hchunks.trans hsplit, hlast.trans hnext⟩

theorem asksToBeWoken_of_nil (h : (r.update config t).1.receivedDataChunks = []) :
    AsksToBeWoken config r t where
  held := by
    rintro _ ⟨chunk, hc, _⟩
    rw [h] at hc
    cases hc
  missing := by
    rw [h]
    exact False.elim

theorem asksToBeWoken_of_running (hc : t < r.confirmDeadline config)
    (hr : t < r.repeatDeadline config) : AsksToBeWoken config r t := by
  obtain ⟨hnext, _, hold⟩ := update_times config r t
  rw [checkCompletedChains_of_running hc] at hnext hold
  rw [checkMissedOffset_of_running hr] at hnext hold
  have hafter : t < (r.update config t).2.nextTime := by
    rw [hnext]
    exact Int.lt_min.2 ⟨hc, hr⟩
  refine ⟨fun _ _ => ⟨hafter, ?_⟩, fun _ => ⟨hafter, ?_⟩⟩
  · rw [hnext, (update_of_running hc).2.2]
    exact Int.min_le_left _ _
  · have hrepeat : (r.update config t).1.repeatDeadline config = r.repeatDeadline config :=
      congrArg (· + config.sendRepeatTimeout) hold
    rw [hnext, hrepeat]
    exact Int.min_le_right _ _

theorem update_nil_of_asks (h : AsksToBeWoken config r t)
    (hnext : (r.update config t).2.nextTime ≤ t)
    (hready : (r.update config t).1.HasReady → t < (r.update config t).1.confirmDeadline config) :
    (r.update config t).1.receivedDataChunks = [] := by
  by_contra hne
  rcases hasReady_or_hasGap hne with hr | hg
  · exact absurd (h.held (hready hr) hr).1 (Int.not_lt.2 hnext)
  · exact absurd (h.missing hg).1 (Int.not_lt.2 hnext)

/-- The receiver asks to be woken in time after an update if and only if both timers are running,
nothing is stored, or the update hands over everything that is stored. -/
theorem asksToBeWoken_iff (config : SafeStreamConfig) (r : SafeStreamReceiving) (t : TimePoint) :
    AsksToBeWoken config r t ↔ TimersCover config r t := by
  unfold TimersCover
  by_cases hc : t < r.confirmDeadline config
  · obtain ⟨hchunks, _, hdeadline⟩ := update_of_running hc
    by_cases hr : t < r.repeatDeadline config
    · exact iff_of_true (asksToBeWoken_of_running hc hr) (Or.inl ⟨hc, hr⟩)
    · have hnext : (r.update config t).2.nextTime ≤ t := by
        apply repTime_of_elapsed
        rw [checkCompletedChains_of_running hc]
        exact Int.not_lt.1 hr
      constructor
      · intro h
        right
        left
        rw [← hchunks]
        exact update_nil_of_asks h hnext fun _ => by rw [hdeadline]; exact hc
      · rintro (⟨_, hrun⟩ | hnil | ⟨hle, _⟩)
        · exact absurd hrun hr
        · exact asksToBeWoken_of_nil (hchunks.trans hnil)
        · exact absurd hc (Int.not_lt.2 hle)
  · have hle := Int.not_lt.1 hc
    obtain ⟨hchunks, hlast⟩ := update_of_elapsed hle
    have hnil := splitChain_rest_eq_nil_iff r.lastConfirmedOffset r.receivedDataChunks
    rw [← hchunks] at hnil
    constructor
    · intro h
      right
      right
      refine ⟨hle, hnil.1 (update_nil_of_asks h (confTime_of_elapsed hle) ?_)⟩
      -- what the chain leaves behind is not ready
      rintro ⟨chunk, hhead, hoff⟩
      obtain ⟨rest, hrest⟩ := List.head?_eq_some_iff.1 hhead
      rw [hchunks] at hrest
      rw [hlast] at hoff
      exact absurd hoff (splitChain_rest_head _ _ hrest)
    · rintro (⟨hrun, _⟩ | hempty | ⟨_, hgap⟩)
      · exact absurd hrun hc
      · apply asksToBeWoken_of_nil
        rw [hchunks, hempty]
        rfl
      · exact asksToBeWoken_of_nil (hnil.2 hgap)

end Update
end SafeStreamReceiving

/-- A byte is missing, both timers have elapsed: the update requests it and returns the current
time, so nobody comes back when the request is lost. -/
theorem ReceiverWorld.gap_asks_for_no_wake :
    ¬ ∀ (config : SafeStreamConfig) (events : List ReceiverEvent) (t : TimePoint)
      (w : ReceiverWorld), TimesOrdered (events ++ [.update t]) →
      run (ReceiverWorld.step config) {} events = some w →
      SafeStreamReceiving.AsksToBeWoken config w.receiving t := by
  intro h
  have hasks := h testConfig [.send 1 [2]] 100 _ (by decide) rfl
  exact absurd (hasks.missing (by decide)).1 (by decide)

end AetherClient
