import AetherClient.SafeStreamSenderRuns

set_option autoImplicit false

namespace AetherClient
open Pieces Runs

def Message.CarriesByteOf (m : Message) (d : SendingData) : Prop :=
  ∃ i byte, m.start ≤ i ∧ m.data[i - m.start]? = some byte ∧
    d.offset.value ≤ i ∧ d.data[i - d.offset.value]? = some byte

namespace SendDataBuffer

theorem sliceFrom_head {a : SendingDataAction} {rest views : List SendingDataAction}
    {current : SafeStreamRingIndex} {k remaining : ℕ} {data : DataBuffer}
    (hs : sliceFrom (a :: rest) current remaining = some (views, data))
    (hcur : current.value = a.sendingData.offset.value + k)
    (hk : k < a.sendingData.data.length) (hr : 0 < remaining) :
    data[0]? = a.sendingData.data[k]? := by
  rw [sliceFrom_cons a rest current k remaining hk.le hcur] at hs
  split_ifs at hs
  · cases hs
    rw [List.getElem?_take_of_lt hr, List.getElem?_drop, Nat.add_zero]
  · obtain ⟨tail, _, he⟩ := Option.map_eq_some_iff.1 hs
    rw [← (Prod.mk.inj he).2, List.getElem?_append_left (by rw [List.length_drop]; omega),
      List.getElem?_drop, Nat.add_zero]

theorem sliceFrom_eq_none_of_lt {c : SendingDataAction} {rest : List SendingDataAction}
    {current : SafeStreamRingIndex} {remaining : ℕ} (hstop : c.sendingData.stop < 65535)
    (hlt : current.value < c.sendingData.offset.value) :
    sliceFrom (c :: rest) current remaining = none := by
  have hspan := length_le_span c.sendingData.data
  unfold SendingData.stop at hstop
  have hskip : ¬ c.sendingData.offset.distance current ≤ c.sendingData.data.length := by
    rw [RingIndex.distance_of_gt hlt]
    omega
  rw [sliceFrom, if_neg hskip]

theorem offset_le_of_mem {c e : SendingDataAction} {rest : List SendingDataAction}
    (hp : (c :: rest).Pairwise fun a c => a.sendingData.stop ≤ c.sendingData.offset.value)
    (he : e ∈ c :: rest) : c.sendingData.offset.value ≤ e.sendingData.offset.value := by
  rcases List.mem_cons.1 he with rfl | he
  · exact le_refl _
  · have hle := (List.pairwise_cons.1 hp).1 e he
    unfold SendingData.stop at hle
    omega

theorem sliceFrom_isSome_iff {a : SendingDataAction} {rest : List SendingDataAction}
    {current : SafeStreamRingIndex} {k remaining : ℕ} (hk : k ≤ a.sendingData.data.length)
    (hcur : current.value = a.sendingData.offset.value + k)
    (hp : (a :: rest).Pairwise fun a c => a.sendingData.stop ≤ c.sendingData.offset.value)
    (hb : ∀ c ∈ a :: rest, c.sendingData.stop < 65535) :
    (sliceFrom (a :: rest) current remaining).isSome ↔
      ∀ i, current.value ≤ i → i < current.value + remaining →
        (∃ c ∈ rest, i < c.sendingData.offset.value) → ∃ c ∈ a :: rest, c.sendingData.Holds i := by
  induction rest generalizing a k current remaining with
  | nil =>
    rw [sliceFrom_cons a [] current k remaining hk hcur]
    have hno : ∀ i, (∃ c ∈ ([] : List SendingDataAction), i < c.sendingData.offset.value) →
        ∃ c ∈ [a], c.sendingData.Holds i := by
      rintro i ⟨c, hc, -⟩
      exact absurd hc List.not_mem_nil
    split_ifs
    · exact ⟨fun _ i _ _ => hno i, fun _ => rfl⟩
    · exact ⟨fun _ i _ _ => hno i, fun _ => rfl⟩
  | cons c rest ih =>
    rw [sliceFrom_cons a (c :: rest) current k remaining hk hcur]
    obtain ⟨hafter, hrest⟩ := List.pairwise_cons.1 hp
    have hac := hafter c List.mem_cons_self
    have hspan := length_le_span a.sendingData.data
    have hstop := hb a List.mem_cons_self
    unfold SendingData.stop at hac hstop
    -- up to its end the first write holds all positions
    have hfirst : ∀ i, current.value ≤ i → i < a.sendingData.offset.value + a.sendingData.data.length →
        ∃ d ∈ a :: c :: rest, d.sendingData.Holds i :=
      fun i hi hlt => ⟨a, List.mem_cons_self, by omega, hlt⟩
    split_ifs with hm
    · exact ⟨fun _ i hi hlt _ => hfirst i hi (by omega), fun _ => rfl⟩
    · have hnext : (current.clockwise (toUint16 (a.sendingData.data.length - k))).value =
          a.sendingData.offset.value + a.sendingData.data.length := by
        rw [toUint16_of_lt (by omega), RingIndex.clockwise_value _ _ (by omega) (by omega)]
        omega
      rw [Option.isSome_map]
      by_cases heq : c.sendingData.offset.value =
          a.sendingData.offset.value + a.sendingData.data.length
      · rw [ih (Nat.zero_le _) (by omega) hrest fun d hd => hb d (List.mem_cons_of_mem _ hd), hnext]
        constructor
        · rintro h i hi hlt ⟨d, hd, hid⟩
          by_cases hin : i < a.sendingData.offset.value + a.sendingData.data.length
          · exact hfirst i hi hin
          · have hd' : d ∈ rest := (List.mem_cons.1 hd).resolve_left (by rintro rfl; omega)
            obtain ⟨e, he, hold⟩ := h i (by omega) (by omega) ⟨d, hd', hid⟩
            exact ⟨e, List.mem_cons_of_mem _ he, hold⟩
        · rintro h i hi hlt ⟨d, hd, hid⟩
          obtain ⟨e, he, hold⟩ := h i (by omega) (by omega) ⟨d, List.mem_cons_of_mem _ hd, hid⟩
          refine ⟨e, (List.mem_cons.1 he).resolve_left ?_, hold⟩
          rintro rfl
          have hend := hold.2
          omega
      · -- the position behind the first write is missing
        rw [sliceFrom_eq_none_of_lt (hb c (List.mem_cons_of_mem _ List.mem_cons_self)) (by omega)]
        refine ⟨fun h => absurd h Bool.false_ne_true, fun h => ?_⟩
        obtain ⟨e, he, hlo, hhi⟩ := h (a.sendingData.offset.value + a.sendingData.data.length)
          (by omega) (by omega) ⟨c, List.mem_cons_self, by omega⟩
        rcases List.mem_cons.1 he with rfl | he
        · omega
        · have hce := offset_le_of_mem hrest he
          omega

end SendDataBuffer

namespace SenderWorld
open SendDataBuffer

/-- The write has bytes, and some of them lie at or after the position to send from. -/
def HasUnsent (s : SafeStreamSending) (d : SendingData) : Prop :=
  d.data ≠ [] ∧ s.lastSentOffset.value < d.offset.value + d.data.length

def SendsUnsent (w w' : SenderWorld) : Prop :=
  ∃ m, w'.emitted = w.emitted ++ [m] ∧
    ∃ a ∈ w.sending.sendDataBuffer.sendActionViews,
      HasUnsent w.sending a.sendingData ∧ m.CarriesByteOf a.sendingData

section Gates
variable (config : SafeStreamConfig)

/-- The write contains the position to send from, and both its ends are within a window
of it. -/
def Contains (s : SafeStreamSending) (d : SendingData) : Prop :=
  d.offset.value ≤ s.lastSentOffset.value ∧
    s.lastSentOffset.value < d.offset.value + d.data.length ∧
    s.lastSentOffset.value ≤ d.offset.value + config.windowSize ∧
    d.offset.value + d.data.length ≤ s.lastSentOffset.value + config.windowSize + 1

instance (s : SafeStreamSending) (d : SendingData) : Decidable (Contains config s d) :=
  inferInstanceAs (Decidable (_ ∧ _))

/-- The gates of an update, and that as far as the packet limit reaches no byte is missing in front
of a buffered write. -/
structure CanSend (s : SafeStreamSending) : Prop where
  limit : s.maxDataSize ≠ 0
  window : s.lastConfirmed.distance (s.lastSentOffset + s.maxDataSize) ≤ config.windowSize
  buffered : ∃ a ∈ s.sendDataBuffer.sendActionViews, Contains config s a.sendingData
  noGap : ∀ i, s.lastSentOffset.value ≤ i → i < s.lastSentOffset.value + s.maxDataSize →
    (∃ c ∈ s.sendDataBuffer.sendActionViews, i < c.sendingData.offset.value) →
    ∃ a ∈ s.sendDataBuffer.sendActionViews, a.sendingData.Holds i

end Gates

section Progress
variable {config : SafeStreamConfig} {accepted : List DataBuffer} {s : SafeStreamSending}

theorem Contains.inRange {a : SendingDataAction} (hw : config.windowSize < 32768)
    (h : SafeStreamSending.Inv accepted s) (ha : a ∈ s.sendDataBuffer.sendActionViews)
    (hc : Contains config s a.sendingData) :
    (a.sendingData.getOffsetRange config.windowSize).inRange s.lastSentOffset = true := by
  obtain ⟨h1, h2, h3, h4⟩ := hc
  have hspan : span a.sendingData.data = a.sendingData.data.length :=
    Nat.max_eq_left (by omega)
  rw [inRange_view_iff hw (h.view_stop_lt ha)]
  unfold SendingData.stop
  omega

theorem contains_of_inRange {a : SendingDataAction} (hw : config.windowSize < 32768)
    (h : SafeStreamSending.Inv accepted s) (ha : a ∈ s.sendDataBuffer.sendActionViews)
    (hd : a.sendingData.data ≠ [])
    (hin : (a.sendingData.getOffsetRange config.windowSize).inRange s.lastSentOffset = true) :
    Contains config s a.sendingData := by
  obtain ⟨h1, h2, h3, h4⟩ := (inRange_view_iff hw (h.view_stop_lt ha)).1 hin
  unfold SendingData.stop at h2 h4
  rw [span_of_ne_nil hd] at h2 h4
  exact ⟨h1, h2, h3, h4⟩

theorem views_pairwise (h : SafeStreamSending.Inv accepted s) :
    s.sendDataBuffer.sendActionViews.Pairwise fun a c =>
      a.sendingData.stop ≤ c.sendingData.offset.value := by
  have hord := List.pairwise_map.1 h.ordered
  refine hord.imp_of_mem fun ha hc hid => ?_
  exact h.stop_le_offset (SafeStreamSending.mem_writes ha) (SafeStreamSending.mem_writes hc) hid

theorem rest_of_empty_view (h : SafeStreamSending.Inv accepted s)
    {pre rest : List SendingDataAction} {a : SendingDataAction} {remaining : ℕ}
    (hl : s.sendDataBuffer.sendActionViews = pre ++ a :: rest) (hempty : a.sendingData.data = [])
    (hoff : s.lastSentOffset.value = a.sendingData.offset.value) (hr : 0 < remaining)
    (hs : (sliceFrom (a :: rest) s.lastSentOffset remaining).isSome) : rest = [] := by
  cases rest with
  | nil => rfl
  | cons c later =>
    have hp := views_pairwise h
    rw [hl] at hp
    have hsub := (List.pairwise_append.1 hp).2.1
    have hac := (List.pairwise_cons.1 hsub).1 c List.mem_cons_self
    have hpos := span_pos a.sendingData.data
    rw [sliceFrom_isSome_iff (Nat.zero_le _) hoff hsub fun d hd =>
      h.view_stop_lt (by rw [hl]; exact List.mem_append_right _ hd)] at hs
    unfold SendingData.stop at hac
    obtain ⟨d, hd, hlo, hhi⟩ := hs s.lastSentOffset.value (le_refl _) (by omega)
      ⟨c, List.mem_cons_self, by omega⟩
    rcases List.mem_cons.1 hd with rfl | hd
    · rw [hempty, List.length_nil] at hhi
      omega
    · have had := (List.pairwise_cons.1 hsub).1 d hd
      unfold SendingData.stop at had
      omega

theorem not_contains_of_empty_last (hw : config.windowSize < 32768)
    (h : SafeStreamSending.Inv accepted s) {pre : List SendingDataAction} {a : SendingDataAction}
    (hl : s.sendDataBuffer.sendActionViews = pre ++ [a]) (hd : a.sendingData.data = [])
    (hpre : ∀ c ∈ pre,
      (c.sendingData.getOffsetRange config.windowSize).inRange s.lastSentOffset = false) :
    ¬ ∃ c ∈ s.sendDataBuffer.sendActionViews, Contains config s c.sendingData := by
  rintro ⟨c, hc, hcon⟩
  rw [hl] at hc
  rcases List.mem_append.1 hc with hc | hc
  · have hout := hpre c hc
    rw [hcon.inRange hw h (by rw [hl]; exact List.mem_append_left _ hc)] at hout
    cases hout
  · rw [List.mem_singleton.1 hc] at hcon
    obtain ⟨h1, h2, _⟩ := hcon
    rw [hd] at h2
    simp only [List.length_nil] at h2
    omega

theorem slice_head (hw : config.windowSize < 32768) (h : SafeStreamSending.Inv accepted s)
    (hm : s.maxDataSize ≠ 0) {b : SendDataBuffer} {chunk : DataChunk}
    (hs : s.sendDataBuffer.getSlice config.windowSize s.lastSentOffset s.maxDataSize =
      some (b, chunk)) :
    chunk.offset = s.lastSentOffset ∧
    ((chunk.data = [] ∧
        ¬ ∃ a ∈ s.sendDataBuffer.sendActionViews, Contains config s a.sendingData) ∨
      ∃ a ∈ s.sendDataBuffer.sendActionViews, Contains config s a.sendingData ∧
        ∃ byte, chunk.data[0]? = some byte ∧
          a.sendingData.data[s.lastSentOffset.value - a.sendingData.offset.value]? =
            some byte) := by
  obtain ⟨slice, hslice, he⟩ := Option.map_eq_some_iff.1 hs
  obtain ⟨_, rfl⟩ := Prod.mk.inj he
  refine ⟨rfl, ?_⟩
  rcases split_at_first
      (fun a => (a.sendingData.getOffsetRange config.windowSize).inRange s.lastSentOffset)
      s.sendDataBuffer.sendActionViews with ⟨hd, _, hall⟩ | ⟨pre, a, rest, hl, _, hd, hpre, hin⟩
  · left
    rw [hd] at hslice
    cases hslice
    refine ⟨rfl, ?_⟩
    rintro ⟨a, ha, hc⟩
    have hout := hall a ha
    rw [hc.inRange hw h ha] at hout
    cases hout
  · rw [hd] at hslice
    have ha : a ∈ s.sendDataBuffer.sendActionViews := by simp [hl]
    obtain ⟨h1, h2, _⟩ := (inRange_view_iff hw (h.view_stop_lt ha)).1 hin
    by_cases hne : a.sendingData.data = []
    · -- the position is that of an empty write, which must be the last one
      left
      have hoff : s.lastSentOffset.value = a.sendingData.offset.value := by
        unfold SendingData.stop at h2
        rw [hne] at h2
        simp only [span, List.length_nil, Nat.zero_le, Nat.max_eq_right] at h2
        omega
      have hrest : rest = [] := rest_of_empty_view h hl hne hoff (Nat.pos_of_ne_zero hm)
        (by rw [hslice]; rfl)
      subst hrest
      rw [sliceFrom_cons a [] _ 0 _ (Nat.zero_le _) hoff, if_neg (by rw [hne]; simpa using hm)]
        at hslice
      simp only [sliceFrom, Option.map_some, List.drop_zero, List.append_nil, hne] at hslice
      cases hslice
      exact ⟨rfl, not_contains_of_empty_last hw h hl hne hpre⟩
    · right
      have hcon := contains_of_inRange hw h ha hne hin
      have hlo := hcon.1
      have hhi := hcon.2.1
      refine ⟨a, ha, hcon, _, ?_, List.getElem?_eq_getElem (by omega)⟩
      rw [sliceFrom_head hslice (by omega : s.lastSentOffset.value =
        a.sendingData.offset.value + (s.lastSentOffset.value - a.sendingData.offset.value))
        (by omega) (Nat.pos_of_ne_zero hm)]
      exact List.getElem?_eq_getElem (by omega)

theorem getSlice_isSome_iff (hw : config.windowSize < 32768) (h : SafeStreamSending.Inv accepted s)
    (hbuf : ∃ a ∈ s.sendDataBuffer.sendActionViews, Contains config s a.sendingData) (maxSize : ℕ) :
    (s.sendDataBuffer.getSlice config.windowSize s.lastSentOffset maxSize).isSome ↔
      ∀ i, s.lastSentOffset.value ≤ i → i < s.lastSentOffset.value + maxSize →
        (∃ c ∈ s.sendDataBuffer.sendActionViews, i < c.sendingData.offset.value) →
        ∃ a ∈ s.sendDataBuffer.sendActionViews, a.sendingData.Holds i := by
  rcases split_at_first
      (fun a => (a.sendingData.getOffsetRange config.windowSize).inRange s.lastSentOffset)
      s.sendDataBuffer.sendActionViews with ⟨_, _, hall⟩ | ⟨pre, a, rest, hl, _, _, hpre, hin⟩
  · obtain ⟨a, ha, hc⟩ := hbuf
    have hout := hall a ha
    rw [hc.inRange hw h ha] at hout
    cases hout
  · have hp := views_pairwise h
    rw [hl] at hp
    obtain ⟨-, hsub, hbefore⟩ := List.pairwise_append.1 hp
    have hlt : ∀ c ∈ a :: rest, c.sendingData.stop < 65535 := fun c hc =>
      h.view_stop_lt (by rw [hl]; exact List.mem_append_right _ hc)
    obtain ⟨h1, h2, -⟩ := (inRange_view_iff hw (hlt a List.mem_cons_self)).1 hin
    have hk : s.lastSentOffset.value - a.sendingData.offset.value ≤ a.sendingData.data.length := by
      unfold SendingData.stop span at h2
      omega
    -- the writes in front of the first one in range end before the position
    have hold : ∀ c ∈ pre, c.sendingData.stop ≤ s.lastSentOffset.value := fun c hc =>
      (hbefore c hc a List.mem_cons_self).trans h1
    rw [getSlice_of_split hl hpre hin, Option.isSome_map,
      sliceFrom_isSome_iff hk (by omega) hsub hlt, hl]
    refine forall_congr' fun i => imp_congr_right fun hi => imp_congr_right fun _ =>
      imp_congr ⟨?_, ?_⟩ ⟨?_, ?_⟩
    · rintro ⟨c, hc, hic⟩
      exact ⟨c, List.mem_append_right _ (List.mem_cons_of_mem _ hc), hic⟩
    · rintro ⟨c, hc, hic⟩
      rcases List.mem_append.1 hc with hc | hc
      · have hstop := hold c hc
        unfold SendingData.stop at hstop
        omega
      · refine ⟨c, (List.mem_cons.1 hc).resolve_left ?_, hic⟩
        rintro rfl
        omega
    · rintro ⟨c, hc, hci⟩
      exact ⟨c, List.mem_append_right _ hc, hci⟩
    · rintro ⟨c, hc, hci⟩
      refine ⟨c, (List.mem_append.1 hc).resolve_left ?_, hci⟩
      intro hc
      have hstop := hold c hc
      have hspan := length_le_span c.sendingData.data
      have hend := hci.2
      unfold SendingData.stop at hstop
      omega

theorem update_of_idle (hq : s.sendingChunks = []) (t : TimePoint) :
    s.update config t =
      if s.maxDataSize ≠ 0 then (s.sendSlice config t).map fun res => (res.1, res.2, t)
      else some (s, none, t) := by
  simp only [SafeStreamSending.update, SafeStreamSending.handleTimeouts, hq]

theorem sendChunk_of_idle {c : SafeStreamConfig} (hq : s.sendingChunks = [])
    (chunk : DataChunk) (t : TimePoint) :
    (s.sendChunk c chunk t).2 = some (.send chunk.offset.value chunk.data) := by
  simp only [SafeStreamSending.sendChunk, SendingChunkList.register, hq, List.find?_nil,
    if_pos]

theorem update_sends_slice (hq : s.sendingChunks = []) (t : TimePoint) {b : SendDataBuffer}
    {chunk : DataChunk} (hm : s.maxDataSize ≠ 0)
    (hwin : s.lastConfirmed.distance (s.lastSentOffset + s.maxDataSize) ≤ config.windowSize)
    (hs : s.sendDataBuffer.getSlice config.windowSize s.lastSentOffset s.maxDataSize =
      some (b, chunk)) (hd : chunk.data ≠ []) :
    ∃ s', s.update config t =
      some (s', some (.send chunk.offset.value chunk.data), t) := by
  have hsend := sendChunk_of_idle (c := config) (s := { s with sendDataBuffer := b }) hq chunk t
  rw [update_of_idle hq, if_pos hm, SafeStreamSending.sendSlice, if_neg (Nat.not_lt.2 hwin), hs]
  refine ⟨({ s with sendDataBuffer := b }.sendChunk config chunk t).1, ?_⟩
  rw [Option.map_some, Option.map_some, if_neg (by simpa using hd), hsend]

theorem slice_of_update_message (hq : s.sendingChunks = []) {t time : TimePoint}
    {s' : SafeStreamSending} {m : Message} (hu : s.update config t = some (s', some m, time)) :
    s.maxDataSize ≠ 0 ∧
      s.lastConfirmed.distance (s.lastSentOffset + s.maxDataSize) ≤ config.windowSize ∧
      ∃ b chunk, s.sendDataBuffer.getSlice config.windowSize s.lastSentOffset s.maxDataSize =
        some (b, chunk) ∧ chunk.data ≠ [] := by
  have htimed : s.handleTimeouts config t = (s, t) := by
    simp only [SafeStreamSending.handleTimeouts, hq]
  have hinv := SafeStreamSending.update_inversion hu
  rw [htimed] at hinv
  obtain ⟨_, ⟨hnone, _⟩ | ⟨b, chunk, hm, hwin, hs, hd, _⟩⟩ := hinv
  · cases hnone
  · exact ⟨hm, hwin, b, chunk, hs, hd⟩

end Progress

/-- From every reached state with nothing outstanding, the next update sends bytes of a
write that has unsent ones exactly if the gates are open and no byte is missing. -/
theorem update_sends_unsent_iff (config : SafeStreamConfig) (events : List SenderEvent)
    (w : SenderWorld) (t : TimePoint) (hw : config.windowSize < 32768)
    (ha : Along (step config) StreamFits {} events)
    (hr : run (step config) {} events = some w) (hq : w.sending.sendingChunks = []) :
    (∃ w', step config w (.update t) = some w' ∧ SendsUnsent w w') ↔
      CanSend config w.sending := by
  have h : Inv w := run_preserves (I := Inv) (step_inv config) init_inv ha hr
  constructor
  · rintro ⟨w', hs, m, hem, -⟩
    obtain ⟨res, hu, rfl⟩ := Option.map_eq_some_iff.1 hs
    have hmsg : res.2.1 = some m := by
      have htail := List.append_cancel_left hem
      cases hres : res.2.1 with
      | none => simp [hres] at htail
      | some m' => simpa [hres] using htail
    obtain ⟨hm, hwin, b, chunk, hslice, hd⟩ :=
      slice_of_update_message hq (hu.trans (by rw [← hmsg]))
    rcases (slice_head hw h hm hslice).2 with ⟨hnil, _⟩ | ⟨a, ha, hc, _⟩
    · exact absurd hnil hd
    · have hbuf : ∃ a ∈ w.sending.sendDataBuffer.sendActionViews, Contains config w.sending
          a.sendingData := ⟨a, ha, hc⟩
      exact ⟨hm, hwin, hbuf, (getSlice_isSome_iff hw h hbuf _).1 (by rw [hslice]; rfl)⟩
  · rintro ⟨hm, hwin, hbuf, hgap⟩
    have hsome := (getSlice_isSome_iff hw h hbuf _).2 hgap
    obtain ⟨⟨b, chunk⟩, hslice⟩ := Option.isSome_iff_exists.1 hsome
    obtain ⟨hoff, hhead⟩ := slice_head hw h hm hslice
    rcases hhead with ⟨_, hno⟩ | ⟨a, ha, hc, byte, hfirst, hbyte⟩
    · exact absurd hbuf hno
    · have hd : chunk.data ≠ [] := by
        rintro hnil
        rw [hnil] at hfirst
        cases hfirst
      obtain ⟨s', hu⟩ := update_sends_slice hq t hm hwin hslice hd
      obtain ⟨hlo, hhi, _⟩ := hc
      have hs : step config w (.update t) = some { w with
          sending := s'
          emitted := w.emitted ++ [.send chunk.offset.value chunk.data] } := by
        simp only [step, hu, Option.map_some, Option.toList_some]
      refine ⟨_, hs, _, rfl, a, ha, ⟨?_, hhi⟩, w.sending.lastSentOffset.value, byte, ?_, ?_,
        hlo, hbyte⟩
      · rintro hnil
        rw [hnil] at hbyte
        cases hbyte
      · exact le_of_eq (congrArg RingIndex.value hoff)
      · change chunk.data[w.sending.lastSentOffset.value - chunk.offset.value]? = _
        rw [hoff, Nat.sub_self]
        exact hfirst

theorem update_sends_unsent_second_write :
    ∃ w, run (step testConfig) {}
        [.setMaxDataSize 4, .write [1, 2], .update 0, .confirm 1, .write [3, 4]] = some w ∧
      ((∃ w', step testConfig w (.update 1) = some w' ∧ SendsUnsent w w') ↔
        CanSend testConfig w.sending) := by
  refine ⟨_, rfl, ?_⟩
  exact update_sends_unsent_iff testConfig
    [.setMaxDataSize 4, .write [1, 2], .update 0, .confirm 1, .write [3, 4]] _ 1
    (by decide) (by decide) rfl (by decide)

/-- A packet limit above the window size never passes the window test. -/
theorem limit_above_window_sends_nothing :
    ¬ ∀ (config : SafeStreamConfig) (events : List SenderEvent) (w : SenderWorld) (t : TimePoint),
      1 ≤ config.windowSize → config.windowSize < 32768 →
      (∃ n, .setMaxDataSize n ∈ events) → (∀ n, .setMaxDataSize n ∈ events → 0 < n) →
      Along (step config) StreamFits {} events → run (step config) {} events = some w →
      w.sending.sendingChunks = [] →
      (∃ a ∈ w.sending.sendDataBuffer.sendActionViews, HasUnsent w.sending a.sendingData) →
      ∃ w', step config w (.update t) = some w' ∧ SendsUnsent w w' := by
  intro h
  obtain ⟨w, hr⟩ : ∃ w, run (step narrowConfig) {} [.setMaxDataSize 5, .write [1]] = some w :=
    ⟨_, rfl⟩
  have hviews : w.sending.sendDataBuffer.sendActionViews =
      [⟨0, ⟨.ofVal 0, [1]⟩, .waiting, true⟩] :=
    run_observe (f := fun w => w.sending.sendDataBuffer.sendActionViews) hr (by decide)
  have hsent : w.sending.lastSentOffset = .ofVal 0 :=
    run_observe (f := fun w => w.sending.lastSentOffset) hr (by decide)
  have hchunks : w.sending.sendingChunks = [] :=
    run_observe (f := fun w => w.sending.sendingChunks) hr (by decide)
  obtain ⟨w', hs, m, hm, _⟩ := h narrowConfig [.setMaxDataSize 5, .write [1]] w 0 (by decide)
    (by decide) ⟨5, by simp⟩ (by simp) (by decide) hr hchunks
    ⟨_, by rw [hviews]; exact List.mem_singleton.2 rfl, by simp [HasUnsent, hsent]⟩
  have hem : w.emitted = [] := run_observe (f := fun w => w.emitted) hr (by decide)
  have hem' : w'.emitted = [] :=
    run_observe (f := fun w => w.emitted) ((run_snoc (.update 0) hr).trans hs) (by decide)
  rw [hem, hem'] at hm
  cases hm

end SenderWorld
end AetherClient
