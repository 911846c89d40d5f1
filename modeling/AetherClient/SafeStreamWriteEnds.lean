import AetherClient.SafeStreamSenderRuns
import AetherClient.SendingChunks
import AetherClient.Tables

set_option autoImplicit false

namespace AetherClient

namespace SendingData

def EndsBy (offset : ℕ) (d : SendingData) : Prop := d.offset.value + d.data.length ≤ offset + 1

instance (offset : ℕ) (d : SendingData) : Decidable (EndsBy offset d) :=
  inferInstanceAs (Decidable (_ ≤ _))

end SendingData

namespace SafeStreamSending
open SendDataBuffer SendingChunkList

section Unfinished
variable {config : SafeStreamConfig} {s : SafeStreamSending}

def Unfinished (b : SendDataBuffer) : Prop :=
  ∀ a ∈ b.sendActionViews, a.state = .waiting ∨ a.state = .sending

theorem Unfinished.getSlice {b b' : SendDataBuffer} {w maxSize : ℕ} {chunk : DataChunk}
    {offset : SafeStreamRingIndex} (h : Unfinished b)
    (hs : SendDataBuffer.getSlice w b offset maxSize = some (b', chunk)) : Unfinished b' := by
  intro a ha
  rcases mem_of_marked (getSlice_marked hs) a ha with ha | ha
  · exact h a ha
  · exact Or.inr ha

theorem Unfinished.removeWhere {b : SendDataBuffer} (h : Unfinished b)
    (p : SendingDataAction → Bool) (mark : SendingDataAction → SendingDataAction) :
    Unfinished (b.removeWhere p mark) :=
  fun a ha => h a (List.mem_filter.1 ha).1

theorem Unfinished.update {s' : SafeStreamSending} {t time : TimePoint} {m : Option Message}
    (h : Unfinished s.sendDataBuffer) (hu : s.update config t = some (s', m, time)) :
    Unfinished s'.sendDataBuffer := by
  obtain ⟨_, ⟨_, b, rfl, hb⟩ | ⟨b, chunk, _, _, hs, _, _, hsent⟩⟩ := update_inversion hu
  · rcases hb with rfl | ⟨chunk, hs⟩
    · exact h
    · exact h.getSlice hs
  · obtain ⟨_, _, _, _, hbuf⟩ := sendChunk_spec config
      { (s.handleTimeouts config t).1 with sendDataBuffer := b } chunk t
    rw [hsent] at hbuf
    rcases hbuf with ⟨hbuf, _⟩ | ⟨_, _, hbuf⟩
    · rw [hbuf]
      exact h.getSlice hs
    · rw [hbuf]
      exact (h.getSlice hs).removeWhere _ _

theorem step_unfinished (config : SafeStreamConfig) (w : SenderWorld) (e : SenderEvent)
    (w' : SenderWorld) (h : Unfinished w.sending.sendDataBuffer)
    (hs : SenderWorld.step config w e = some w') : Unfinished w'.sending.sendDataBuffer := by
  rcases SenderWorld.step_cases hs with ⟨data, rfl, _, hsend⟩ |
    ⟨_, ⟨t, m, time, rfl, hu⟩ | ⟨_, ⟨hb, _⟩ | ⟨_, p, mark, hb, _⟩⟩⟩
  · rw [sendData_inversion hsend]
    intro a ha
    rcases List.mem_append.1 ha with ha | ha
    · exact h a ha
    · rw [List.mem_singleton.1 ha]
      exact Or.inl rfl
  · exact h.update hu
  · rw [hb]
    exact h
  · rw [hb]
    exact h.removeWhere p mark

theorem run_unfinished (config : SafeStreamConfig) {events : List SenderEvent} {w : SenderWorld}
    (h : Runs.run (SenderWorld.step config) {} events = some w) :
    Unfinished w.sending.sendDataBuffer :=
  Runs.run_preserves (P := fun _ _ => True)
    (fun w e w' hi _ hs => step_unfinished config w e w' hi hs)
    (fun a ha => by cases ha) (Runs.Along.of_forall fun _ _ _ => trivial) h

end Unfinished

/-- The buffered writes are adjacent, not empty, stay below offset 65535 and are not
finished. -/
structure HoldsWrites (b : SendDataBuffer) : Prop where
  adjacent : b.Consecutive
  nonempty : ∀ a ∈ b.sendActionViews, a.sendingData.data ≠ []
  below : ∀ a ∈ b.sendActionViews, a.sendingData.stop ≤ 65535
  unfinished : Unfinished b

section Confirm
variable (config : SafeStreamConfig)

/-- The writes that end by the confirmed offset leave the buffer and report that they are
done; the others stay as they are. -/
structure ConfirmsExactly (s : SafeStreamSending) (offset : SafeStreamRingIndex) : Prop where
  kept : (s.confirm config offset).sendDataBuffer.sendActionViews =
    s.sendDataBuffer.sendActionViews.filter fun a => !decide (a.sendingData.EndsBy offset.value)
  finished : (s.confirm config offset).sendDataBuffer.finished =
    s.sendDataBuffer.finished ++ (s.sendDataBuffer.sendActionViews.filter fun a =>
      decide (a.sendingData.EndsBy offset.value)).map SendingDataAction.sentConfirmed
  reported : ∀ a ∈ s.sendDataBuffer.sendActionViews, a.sendingData.EndsBy offset.value →
    (a.id, .done) ∈ ((s.confirm config offset).sendDataBuffer.updateAction a.id).2

/-- The write ends after the offset, by at most a window, or before it, by less than the
ring's length without a window; it does not end at the offset. -/
def EndsClearOf (offset : ℕ) (a : SendingDataAction) : Prop :=
  (offset + 1 < a.sendingData.stop ∧ a.sendingData.stop ≤ offset + config.windowSize + 1) ∨
    (a.sendingData.stop < offset + 1 ∧
      offset + 1 < a.sendingData.stop + (65535 - config.windowSize))

instance (offset : ℕ) (a : SendingDataAction) : Decidable (EndsClearOf config offset a) :=
  inferInstanceAs (Decidable (_ ∨ _))

end Confirm

section ConfirmExact
variable {config : SafeStreamConfig} {s : SafeStreamSending} {offset : SafeStreamRingIndex}

theorem before_eq_endsBy_iff (hw : config.windowSize ≤ 65535) {a : SendingDataAction}
    (hstop : a.sendingData.stop ≤ 65535) (hne : a.sendingData.data ≠ []) :
    (a.sendingData.getOffsetRange config.windowSize).before offset =
        decide (a.sendingData.EndsBy offset.value) ↔
      EndsClearOf config offset.value a := by
  have hb := SendingData.before_iff_positions hw hstop offset
  have hspan := span_of_ne_nil hne
  have hends : a.sendingData.EndsBy offset.value ↔ a.sendingData.stop ≤ offset.value + 1 := by
    unfold SendingData.EndsBy SendingData.stop
    rw [hspan]
  unfold EndsClearOf
  by_cases he : a.sendingData.stop ≤ offset.value + 1
  · rw [decide_eq_true (hends.2 he), ← Bool.not_eq_false, hb]
    omega
  · rw [decide_eq_false (mt hends.1 he), hb]
    omega

theorem sentConfirmed_reports {b : SendDataBuffer} {a : SendingDataAction}
    (ha : a.state = .waiting ∨ a.state = .sending) (hmem : a.sentConfirmed ∈ b.finished) :
    (a.id, .done) ∈ (b.updateAction a.id).2 := by
  have hset : a.sentConfirmed = { a with state := .done, changed := true } := by
    unfold SendingDataAction.sentConfirmed SendingDataAction.set
    rw [if_neg]
    rcases ha with h | h <;> simp [h]
  refine List.mem_filterMap.2 ⟨a.sentConfirmed, hmem, ?_⟩
  simp [hset, SendingDataAction.update]

/-- A confirm is exact if and only if no buffered write ends at the offset, more than a
window after it, or a ring's length less a window before it. -/
theorem confirm_exact_iff (config : SafeStreamConfig) (s : SafeStreamSending)
    (offset : SafeStreamRingIndex) (hw : config.windowSize ≤ 65535)
    (hb : HoldsWrites s.sendDataBuffer)
    (ho : s.lastConfirmed.distance offset ≤ config.windowSize) :
    ConfirmsExactly config s offset ↔
      ∀ a ∈ s.sendDataBuffer.sendActionViews, EndsClearOf config offset.value a := by
  have hconfirm : (s.confirm config offset).sendDataBuffer =
      s.sendDataBuffer.confirm config.windowSize offset := by
    unfold confirm
    rw [if_pos ho]
    rfl
  have hpoint : (∀ a ∈ s.sendDataBuffer.sendActionViews,
      (a.sendingData.getOffsetRange config.windowSize).before offset =
        decide (a.sendingData.EndsBy offset.value)) ↔
      ∀ a ∈ s.sendDataBuffer.sendActionViews, EndsClearOf config offset.value a :=
    forall₂_congr fun a ha => before_eq_endsBy_iff hw (hb.below a ha) (hb.nonempty a ha)
  rw [← hpoint]
  constructor
  · intro h a ha
    have hk := h.kept
    rw [hconfirm] at hk
    simpa using Tables.filter_eq_filter_iff.1 hk a ha
  · intro h
    have hfinished : (s.confirm config offset).sendDataBuffer.finished =
        s.sendDataBuffer.finished ++ (s.sendDataBuffer.sendActionViews.filter fun a =>
          decide (a.sendingData.EndsBy offset.value)).map SendingDataAction.sentConfirmed := by
      rw [hconfirm, ← Tables.filter_eq_filter_iff.2 h]
      rfl
    refine ⟨?_, hfinished, ?_⟩
    · rw [hconfirm]
      exact Tables.filter_eq_filter_iff.2 fun a ha => congrArg Bool.not (h a ha)
    · intro a ha hends
      apply sentConfirmed_reports (hb.unfinished a ha)
      rw [hfinished]
      exact List.mem_append_right _
        (List.mem_map_of_mem (List.mem_filter.2 ⟨ha, decide_eq_true hends⟩))

end ConfirmExact

def oneWrite : SafeStreamSending :=
  { maxDataSize := 100
    sendDataBuffer :=
      { sendActionViews := [⟨0, ⟨.ofVal 0, [1, 2, 3]⟩, .sending, true⟩], bufferSize := 3 }
    sendingChunks := [⟨.ofVal 0, .ofVal 2, 1, 0⟩]
    nextToAdd := .ofVal 3
    lastSentOffset := .ofVal 3 }

example : (Runs.run (SenderWorld.step testConfig) {}
    [.setMaxDataSize 100, .write [1, 2, 3], .update 0]).map SenderWorld.sending =
      some oneWrite := by decide +kernel

theorem oneWrite_holdsWrites : HoldsWrites oneWrite.sendDataBuffer where
  adjacent := by decide
  nonempty := by decide
  below := by decide
  unfinished := by
    unfold Unfinished
    decide

/-- The confirm of its last byte does not finish a write. -/
theorem confirm_of_last_byte_keeps_write :
    ¬ ∀ (config : SafeStreamConfig) (s : SafeStreamSending) (offset : SafeStreamRingIndex),
      config.windowSize ≤ 65535 → HoldsWrites s.sendDataBuffer →
      (s.sendDataBuffer.sendActionViews.map fun a => a.sendingData.data.length).sum ≤
        config.bufferCapacity →
      s.lastConfirmed.value ≤ offset.value →
      offset.value ≤ s.lastConfirmed.value + config.windowSize →
      ConfirmsExactly config s offset := by
  intro h
  have hex := (h testConfig oneWrite (.ofVal 2) (by decide) oneWrite_holdsWrites (by decide)
    (by decide) (by decide)).kept
  exact absurd hex (by decide)

theorem confirm_exact_past_write : ConfirmsExactly testConfig oneWrite (.ofVal 3) :=
  (confirm_exact_iff testConfig oneWrite (.ofVal 3) (by decide) oneWrite_holdsWrites
    (by decide)).2 (by decide)

/-- Only concerned writes leave the buffer, and they end with `mark`. Every other write stays
as it is, and its bytes that were in an outstanding chunk still are in one. -/
structure EndsOnly (concerns : SendingDataAction → Prop)
    (mark : SendingDataAction → SendingDataAction) (s s' : SafeStreamSending) : Prop where
  kept : ∀ a ∈ s.sendDataBuffer.sendActionViews, ¬ concerns a →
    a ∈ s'.sendDataBuffer.sendActionViews
  ended : ∀ a ∈ s'.sendDataBuffer.finished, a ∈ s.sendDataBuffer.finished ∨
    ∃ b ∈ s.sendDataBuffer.sendActionViews, concerns b ∧ mark b = a
  tracked : ∀ a ∈ s.sendDataBuffer.sendActionViews, ¬ concerns a → ∀ i, a.sendingData.Holds i →
    (∃ ch ∈ s.sendingChunks, ch.Covers i) → ∃ ch ∈ s'.sendingChunks, ch.Covers i

/-- On the ring the write ends at most a window after `offset`, and `offset` is more than a
window after its begin: it lies neither before the offset nor around it. -/
def OutOfReach (w offset : ℕ) (a : SendingDataAction) : Prop :=
  ((offset < a.sendingData.stop ∧ a.sendingData.stop ≤ offset + w + 1) ∨
      a.sendingData.stop + (65535 - w) ≤ offset + 1) ∧
    ((offset < a.sendingData.offset.value ∧
        a.sendingData.offset.value < offset + (65535 - w)) ∨
      a.sendingData.offset.value + w < offset)

instance (w offset : ℕ) (a : SendingDataAction) : Decidable (OutOfReach w offset a) :=
  inferInstanceAs (Decidable (_ ∧ _))

def OthersOutOfReach (w : ℕ) (concerns : SendingDataAction → Prop) (s : SafeStreamSending)
    (offset : SafeStreamRingIndex) : Prop :=
  ∀ a ∈ s.sendDataBuffer.sendActionViews, ¬ concerns a → OutOfReach w offset.value a ∧
    ∀ i, a.sendingData.Holds i → (∃ ch ∈ s.sendingChunks, ch.Covers i) →
      ∃ ch ∈ s.sendingChunks, LeavesByte w offset ch i

section Ends
variable {config : SafeStreamConfig} {s s' : SafeStreamSending} {offset : SafeStreamRingIndex}
  {concerns : SendingDataAction → Prop} {mark : SendingDataAction → SendingDataAction} {w : ℕ}

theorem upTo_eq_false_iff (hw : w ≤ 65535) {a : SendingDataAction}
    (hstop : a.sendingData.stop ≤ 65535) :
    upTo w offset a = false ↔ OutOfReach w offset.value a := by
  have hb := SendingData.before_iff_positions hw hstop offset
  have hr := SendingData.inRange_iff_positions hw hstop offset
  have hoff := a.sendingData.offset.value_le
  unfold upTo OutOfReach
  rw [Bool.or_eq_false_iff, hb, ← Bool.not_eq_true, hr]
  omega

theorem upTo_self (w : ℕ) (a : SendingDataAction) : upTo w a.sendingData.offset a = true := by
  have hbegin : (a.sendingData.getOffsetRange w).begin = a.sendingData.offset := rfl
  unfold upTo OffsetRange.before OffsetRange.inRange
  rw [hbegin, RingIndex.distance_self]
  simp only [Nat.zero_le, decide_true, Bool.true_and, ← Bool.decide_or, decide_eq_true_eq]
  omega

theorem endsOnly_iff (hw : w ≤ 65535)
    (hb : ∀ a ∈ s.sendDataBuffer.sendActionViews, a.sendingData.stop ≤ 65535)
    (hchunks : s'.sendingChunks = removeUpTo w s.sendingChunks offset)
    (hbuffer : s'.sendDataBuffer = s.sendDataBuffer.removeWhere (upTo w offset) mark) :
    EndsOnly concerns mark s s' ↔ OthersOutOfReach w concerns s offset := by
  have hviews : ∀ a, a ∈ s'.sendDataBuffer.sendActionViews ↔
      a ∈ s.sendDataBuffer.sendActionViews ∧ upTo w offset a = false := by
    intro a
    rw [hbuffer]
    simp [removeWhere]
  constructor
  · intro h a ha hc
    have hup := ((hviews a).1 (h.kept a ha hc)).2
    refine ⟨(upTo_eq_false_iff hw (hb a ha)).1 hup, ?_⟩
    intro i hi hcov
    rw [← exists_removeUpTo_covers hw, ← hchunks]
    exact h.tracked a ha hc i hi hcov
  · intro h
    refine ⟨?_, ?_, ?_⟩
    · intro a ha hc
      exact (hviews a).2 ⟨ha, (upTo_eq_false_iff hw (hb a ha)).2 (h a ha hc).1⟩
    · intro a ha
      rw [hbuffer] at ha
      rcases List.mem_append.1 ha with ha | ha
      · exact Or.inl ha
      · obtain ⟨b, hbm, he⟩ := List.mem_map.1 ha
        obtain ⟨hbv, hup⟩ := List.mem_filter.1 hbm
        refine Or.inr ⟨b, hbv, ?_, he⟩
        by_contra hc
        rw [(upTo_eq_false_iff hw (hb b hbv)).2 (h b hbv hc).1] at hup
        cases hup
    · intro a ha hc i hi hcov
      rw [hchunks, exists_removeUpTo_covers hw]
      exact (h a ha hc).2 i hi hcov

theorem stopWrite_of_waiting (hid : (s.sendDataBuffer.sendActionViews.map (·.id)).Nodup)
    {a : SendingDataAction} (ha : a ∈ s.sendDataBuffer.sendActionViews)
    (hwait : a.state = .waiting) :
    s.stopWrite config a.id = s.stopSending config a.sendingData.offset := by
  have hfind : s.sendDataBuffer.find a.id = some a := by
    have hkey := Tables.find_of_key hid ha
    unfold SendDataBuffer.find
    rw [List.find?_append]
    simp only [beq_eq_decide]
    rw [hkey]
    rfl
  have hstop : a.canStop = true := by
    simp [SendingDataAction.canStop, hwait]
  unfold stopWrite
  rw [hfind]
  simp only [hstop, if_true]

/-- The stop of a waiting write and the report for a packet end nothing else and keep
everything else tracked if and only if no other write is in reach of the one offset that the
sender compares with. -/
theorem ends_only_concerned_iff (config : SafeStreamConfig) (s : SafeStreamSending)
    (hw : config.windowSize ≤ 65535)
    (hb : ∀ a ∈ s.sendDataBuffer.sendActionViews, a.sendingData.stop ≤ 65535)
    (hid : (s.sendDataBuffer.sendActionViews.map (·.id)).Nodup) :
    (∀ a ∈ s.sendDataBuffer.sendActionViews, a.state = .waiting →
      ((a.stopped ∈ (s.stopWrite config a.id).sendDataBuffer.finished ∧
          EndsOnly (fun b => b.id = a.id) SendingDataAction.stopped s
            (s.stopWrite config a.id)) ↔
        OthersOutOfReach config.windowSize (fun b => b.id = a.id) s a.sendingData.offset)) ∧
    ∀ (offset : SafeStreamRingIndex) (size : ℕ),
      (EndsOnly (HasByteIn offset.value size) SendingDataAction.failed s
          (s.reportWriteError config offset) ↔
        OthersOutOfReach config.windowSize (HasByteIn offset.value size) s offset) ∧
      (EndsOnly (HasByteIn offset.value size) SendingDataAction.failed s
          (s.reportWriteStopped config offset) ↔
        OthersOutOfReach config.windowSize (HasByteIn offset.value size) s offset) := by
  refine ⟨?_, fun offset size => ⟨endsOnly_iff hw hb rfl rfl, endsOnly_iff hw hb rfl rfl⟩⟩
  intro a ha hwait
  rw [stopWrite_of_waiting hid ha hwait]
  have hstopped : a.stopped ∈
      (s.stopSending config a.sendingData.offset).sendDataBuffer.finished :=
    List.mem_append_right _
      (List.mem_map_of_mem (List.mem_filter.2 ⟨ha, upTo_self config.windowSize a⟩))
  rw [and_iff_right hstopped]
  exact endsOnly_iff hw hb rfl rfl

end Ends

def twoWrites : SafeStreamSending :=
  { maxDataSize := 2
    sendDataBuffer :=
      { sendActionViews := [⟨0, ⟨.ofVal 0, [1, 2]⟩, .sending, true⟩,
          ⟨1, ⟨.ofVal 2, [3]⟩, .waiting, true⟩]
        bufferSize := 3 }
    sendingChunks := [⟨.ofVal 0, .ofVal 1, 1, 0⟩]
    nextToAdd := .ofVal 3
    lastSentOffset := .ofVal 2 }

example : (Runs.run (SenderWorld.step testConfig) {}
    [.setMaxDataSize 2, .write [1, 2], .write [3], .update 0]).map SenderWorld.sending =
      some twoWrites := by decide +kernel

/-- The transport reports an error for the packet with the first write. -/
theorem ends_only_first_write :
    EndsOnly (HasByteIn 0 2) SendingDataAction.failed twoWrites
      (twoWrites.reportWriteError testConfig (.ofVal 0)) := by
  refine ((ends_only_concerned_iff testConfig twoWrites (by decide) (by decide)
    (by decide)).2 (.ofVal 0) 2).1.2 ?_
  intro a ha hc
  have hlast : a = ⟨1, ⟨.ofVal 2, [3]⟩, .waiting, true⟩ := by
    rcases List.mem_cons.1 ha with rfl | ha
    · exact absurd (by decide) hc
    · exact List.mem_singleton.1 ha
  subst hlast
  refine ⟨by decide, ?_⟩
  rintro i ⟨hlo, _⟩ ⟨ch, hch, _, hle⟩
  rw [List.mem_singleton.1 hch] at hle
  have hlo' : 2 ≤ i := hlo
  have hle' : i ≤ 1 := hle
  omega

/-- The stop of the second write also ends the first one, which was sent already. -/
theorem stop_ends_earlier_write :
    ¬ ∀ (config : SafeStreamConfig) (s : SafeStreamSending), config.windowSize ≤ 65535 →
      HoldsWrites s.sendDataBuffer → (s.sendDataBuffer.sendActionViews.map (·.id)).Nodup →
      (∀ a ∈ s.sendDataBuffer.sendActionViews, a.state = .waiting →
        a.stopped ∈ (s.stopWrite config a.id).sendDataBuffer.finished ∧
          EndsOnly (fun b => b.id = a.id) SendingDataAction.stopped s
            (s.stopWrite config a.id)) ∧
      ∀ (offset : SafeStreamRingIndex) (size : ℕ), 0 < size → offset.value + size ≤ 65535 →
        EndsOnly (HasByteIn offset.value size) SendingDataAction.failed s
          (s.reportWriteError config offset) ∧
        EndsOnly (HasByteIn offset.value size) SendingDataAction.failed s
          (s.reportWriteStopped config offset) := by
  intro h
  have hwrites : HoldsWrites twoWrites.sendDataBuffer :=
    ⟨by decide, by decide, by decide, by unfold Unfinished; decide⟩
  obtain ⟨_, hends⟩ := (h testConfig twoWrites (by decide) hwrites (by decide)).1
    ⟨1, ⟨.ofVal 2, [3]⟩, .waiting, true⟩ (by decide) rfl
  have hkept := hends.kept ⟨0, ⟨.ofVal 0, [1, 2]⟩, .sending, true⟩ (by decide) (by decide)
  exact absurd hkept (by decide)

end SafeStreamSending
end AetherClient
