import AetherClient.Runs
import AetherClient.SafeStreamSendingIntegrity

set_option autoImplicit false

namespace AetherClient
open Pieces Runs

inductive SenderEvent where
  | write (data : DataBuffer)
  | setMaxDataSize (maxDataSize : ℕ)
  | update (currentTime : TimePoint)
  | confirm (offset : ℕ)
  | requestRepeat (offset : ℕ)
  | stopWrite (id : ℕ)
  | reportWriteError (offset : ℕ)
  | reportWriteStopped (offset : ℕ)
deriving DecidableEq, Repr

structure SenderWorld where
  sending : SafeStreamSending := {}
  accepted : List DataBuffer := []
  emitted : List Message := []
deriving DecidableEq, Repr

namespace SenderWorld

section Step
variable (config : SafeStreamConfig)

def step (w : SenderWorld) : SenderEvent → Option SenderWorld
  | .write data => some <|
    match w.sending.sendData config w.accepted.length data with
    | none => w
    | some s => { w with sending := s, accepted := w.accepted ++ [data] }
  | .setMaxDataSize maxDataSize => some { w with sending := w.sending.setMaxDataSize maxDataSize }
  | .update currentTime => (w.sending.update config currentTime).map fun res =>
    { w with sending := res.1, emitted := w.emitted ++ res.2.1.toList }
  | .confirm offset => some { w with sending := w.sending.confirm config (.ofVal offset) }
  | .requestRepeat offset =>
    some { w with sending := w.sending.requestRepeatSend (.ofVal offset) }
  | .stopWrite id => some { w with sending := w.sending.stopWrite config id }
  | .reportWriteError offset =>
    some { w with sending := w.sending.reportWriteError config (.ofVal offset) }
  | .reportWriteStopped offset =>
    some { w with sending := w.sending.reportWriteStopped config (.ofVal offset) }

end Step

def StreamFits (w : SenderWorld) : SenderEvent → Prop
  | .write data => totalSpan w.accepted + span data < 65535
  | _ => True

instance (w : SenderWorld) : DecidablePred (StreamFits w)
  | .write data => inferInstanceAs (Decidable (totalSpan w.accepted + span data < 65535))
  | .setMaxDataSize _ | .update _ | .confirm _ | .requestRepeat _ | .stopWrite _
  | .reportWriteError _ | .reportWriteStopped _ => inferInstanceAs (Decidable True)

def Inv (w : SenderWorld) : Prop := SafeStreamSending.Inv w.accepted w.sending

section Invariant

theorem step_cases {config : SafeStreamConfig} {w w' : SenderWorld} {e : SenderEvent}
    (h : step config w e = some w') :
    (∃ data, e = .write data ∧ w'.accepted = w.accepted ++ [data] ∧
        w.sending.sendData config w.accepted.length data = some w'.sending) ∨
      w'.accepted = w.accepted ∧
        ((∃ t m time, e = .update t ∧ w.sending.update config t = some (w'.sending, m, time)) ∨
          w'.sending.nextToAdd = w.sending.nextToAdd ∧
            ((w'.sending.sendDataBuffer = w.sending.sendDataBuffer ∧
                w'.sending.sendingChunks = w.sending.sendingChunks) ∨
              ∃ offset p mark,
                w'.sending.sendDataBuffer = w.sending.sendDataBuffer.removeWhere p mark ∧
                w'.sending.sendingChunks = SendingChunkList.removeUpTo config.windowSize
                  w.sending.sendingChunks offset)) := by
  cases e with
  | write data =>
    simp only [step, Option.some.injEq] at h
    subst h
    split
    · exact Or.inr ⟨rfl, Or.inr ⟨rfl, Or.inl ⟨rfl, rfl⟩⟩⟩
    · next s hs => exact Or.inl ⟨data, rfl, rfl, hs⟩
  | setMaxDataSize n =>
    cases h
    exact Or.inr ⟨rfl, Or.inr ⟨rfl, Or.inl ⟨rfl, rfl⟩⟩⟩
  | update t =>
    obtain ⟨res, hu, rfl⟩ := Option.map_eq_some_iff.1 h
    exact Or.inr ⟨rfl, Or.inl ⟨t, _, _, rfl, hu⟩⟩
  | confirm o =>
    cases h
    refine Or.inr ⟨rfl, Or.inr ?_⟩
    dsimp only
    rcases SafeStreamSending.confirm_cases config w.sending (.ofVal o) with he | he
    · rw [he]
      exact ⟨rfl, Or.inl ⟨rfl, rfl⟩⟩
    · rw [he]
      exact ⟨rfl, Or.inr ⟨_, _, _, rfl, rfl⟩⟩
  | requestRepeat o =>
    cases h
    exact Or.inr ⟨rfl, Or.inr ⟨rfl, Or.inl ⟨rfl, rfl⟩⟩⟩
  | stopWrite id =>
    cases h
    refine Or.inr ⟨rfl, Or.inr ?_⟩
    dsimp only
    rcases SafeStreamSending.stopWrite_cases config w.sending id with he | ⟨o, he⟩
    · rw [he]
      exact ⟨rfl, Or.inl ⟨rfl, rfl⟩⟩
    · rw [he]
      exact ⟨rfl, Or.inr ⟨_, _, _, rfl, rfl⟩⟩
  | reportWriteError o =>
    cases h
    exact Or.inr ⟨rfl, Or.inr ⟨rfl, Or.inr ⟨_, _, _, rfl, rfl⟩⟩⟩
  | reportWriteStopped o =>
    cases h
    exact Or.inr ⟨rfl, Or.inr ⟨rfl, Or.inr ⟨_, _, _, rfl, rfl⟩⟩⟩

theorem step_inv (config : SafeStreamConfig) (w : SenderWorld) (e : SenderEvent)
    (w' : SenderWorld) (h : Inv w)
    (hf : StreamFits w e) (hs : step config w e = some w') : Inv w' := by
  unfold Inv at h ⊢
  rcases step_cases hs with ⟨data, rfl, hacc, hsend⟩ | ⟨hacc, ⟨t, m, time, rfl, hu⟩ | ⟨hn, hcut⟩⟩
  · rw [hacc]
    exact SafeStreamSending.sendData_inv h hsend hf
  · obtain ⟨hn, hw⟩ := SafeStreamSending.update_frame hu
    rw [hacc]
    exact h.sublist hn hw
  · rw [hacc]
    apply h.sublist hn
    rcases hcut with ⟨hb, _⟩ | ⟨_, p, mark, hb, _⟩
    · rw [hb]
    · rw [hb]
      exact SendDataBuffer.removeWhere_writes _ _ _

theorem init_inv : Inv {} := SafeStreamSending.Inv.init

end Invariant

def PositionsOrdered (s : SafeStreamSending) : Prop :=
  s.lastConfirmed.value ≤ s.lastSentOffset.value ∧ s.lastSentOffset.value ≤ s.nextToAdd.value

def WasSent (w : SenderWorld) (i : ℕ) : Prop := ∃ m ∈ w.emitted, m.start ≤ i ∧ i < m.stop

def nextUnsent (w : SenderWorld) : ℕ := (w.emitted.map Message.stop).foldr max 0

instance (w : SenderWorld) (i : ℕ) : Decidable (WasSent w i) :=
  inferInstanceAs (Decidable (∃ m ∈ w.emitted, _))

/-- Writes, limits, updates, confirms of sent bytes and requests for sent bytes or the
next one. -/
def PeerIsHonest (w : SenderWorld) : SenderEvent → Prop
  | .write data => totalSpan w.accepted + span data < 65535
  | .setMaxDataSize _ => True
  | .update _ => True
  | .confirm offset => WasSent w offset
  | .requestRepeat offset => offset ≤ nextUnsent w
  | .stopWrite _ | .reportWriteError _ | .reportWriteStopped _ => False

instance (w : SenderWorld) : DecidablePred (PeerIsHonest w)
  | .write data => inferInstanceAs (Decidable (totalSpan w.accepted + span data < 65535))
  | .setMaxDataSize _ => inferInstanceAs (Decidable True)
  | .update _ => inferInstanceAs (Decidable True)
  | .confirm offset => inferInstanceAs (Decidable (WasSent w offset))
  | .requestRepeat offset => inferInstanceAs (Decidable (offset ≤ nextUnsent w))
  | .stopWrite _ => inferInstanceAs (Decidable False)
  | .reportWriteError _ => inferInstanceAs (Decidable False)
  | .reportWriteStopped _ => inferInstanceAs (Decidable False)

section Conditions
variable (config : SafeStreamConfig)

/-- A front chunk that has timed out begins at or after the confirmed position. -/
def TimeoutKeepsConfirmed (s : SafeStreamSending) (t : TimePoint) : Prop :=
  ∀ sch ∈ s.sendingChunks.head?, sch.sendTime + config.waitConfirmTimeout < t →
    s.lastConfirmed.value ≤ sch.beginOffset.value

instance (s : SafeStreamSending) (t : TimePoint) :
    Decidable (TimeoutKeepsConfirmed config s t) :=
  inferInstanceAs (Decidable (∀ sch ∈ s.sendingChunks.head?, _))

/-- An accepted confirm names a byte before the position to send from, a request names a
position that is not confirmed yet, and an update finds consecutive writes and no
timeout that goes back behind the confirmed position. -/
def KeepsPositions (w : SenderWorld) : SenderEvent → Prop
  | .confirm offset => w.sending.lastConfirmed.distance (.ofVal offset) ≤ config.windowSize →
      offset < w.sending.lastSentOffset.value
  | .requestRepeat offset => w.sending.lastConfirmed.value ≤ offset
  | .update t => w.sending.sendDataBuffer.Consecutive ∧
      TimeoutKeepsConfirmed config w.sending t
  | _ => True

instance (w : SenderWorld) : DecidablePred (KeepsPositions config w)
  | .confirm offset => inferInstanceAs (Decidable
      (w.sending.lastConfirmed.distance (.ofVal offset) ≤ config.windowSize →
        offset < w.sending.lastSentOffset.value))
  | .requestRepeat offset =>
    inferInstanceAs (Decidable (w.sending.lastConfirmed.value ≤ offset))
  | .update t => inferInstanceAs (Decidable (w.sending.sendDataBuffer.Consecutive ∧
      TimeoutKeepsConfirmed config w.sending t))
  | .write _ | .setMaxDataSize _ | .stopWrite _ | .reportWriteError _
  | .reportWriteStopped _ => inferInstanceAs (Decidable True)

end Conditions

def ChunksBeginBy (bound : ℕ) (chunks : List SendingChunk) : Prop :=
  ∀ sch ∈ chunks, sch.beginOffset.value ≤ bound

section Chunks
open SendingChunkList
variable {w bound : ℕ} {chunks : List SendingChunk}

theorem ChunksBeginBy.removeUpTo {offset : SafeStreamRingIndex}
    (h : ChunksBeginBy bound chunks) (ho : offset.value ≤ bound) :
    ChunksBeginBy bound (removeUpTo w chunks offset) := by
  intro sch hsch
  obtain ⟨old, hold, he⟩ := List.mem_filterMap.1 hsch
  dsimp only at he
  split_ifs at he
  · cases he
    exact ho
  · cases he
    exact h sch hold

theorem register_end (chunks : List SendingChunk) (begin end_ : SafeStreamRingIndex)
    (t : TimePoint) : (register w chunks begin end_ t).2.endOffset = end_ := by
  unfold register
  dsimp only
  split
  · rfl
  · split_ifs with he
    · exact he.2.symm
    · rfl

theorem ChunksBeginBy.register {begin end_ : SafeStreamRingIndex} {t : TimePoint}
    (h : ChunksBeginBy bound chunks) (hb : begin.value ≤ bound) (he : (end_ + 1).value ≤ bound) :
    ChunksBeginBy bound (register w chunks begin end_ t).1 ∧
      (register w chunks begin end_ t).2.beginOffset.value ≤ bound := by
  unfold SendingChunkList.register
  dsimp only
  split
  · exact ⟨h, hb⟩
  · next sch hfind =>
    split_ifs
    · exact ⟨fun ch hch => h ch (List.eraseP_subset hch), h sch (List.mem_of_find?_eq_some hfind)⟩
    · refine ⟨?_, hb⟩
      intro ch hch
      obtain ⟨old, hold, hcut⟩ := List.mem_filterMap.1 hch
      unfold cutOverlap at hcut
      split_ifs at hcut
      · cases hcut
        exact he
      · cases hcut
        exact h old hold
      · cases hcut
        exact h ch hold

theorem ChunksBeginBy.sendChunk (config : SafeStreamConfig) {s : SafeStreamSending}
    (chunk : DataChunk) (t : TimePoint) (h : ChunksBeginBy bound s.sendingChunks)
    (hd : chunk.data ≠ []) (hend : chunk.offset.value + chunk.data.length ≤ bound)
    (hb : bound < 65535) :
    ChunksBeginBy bound (s.sendChunk config chunk t).1.sendingChunks := by
  have hpos := List.length_pos_iff.2 hd
  have hlast : (chunk.offset + sizeMinusOne chunk.data.length).value =
      chunk.offset.value + chunk.data.length - 1 := by
    rw [sizeMinusOne_of_pos hpos (by omega), RingIndex.add_value _ _ (by omega) (by omega)]
    omega
  have hnext : (chunk.offset + sizeMinusOne chunk.data.length + 1).value ≤ bound := by
    rw [RingIndex.add_value _ _ (by decide) (by omega)]
    omega
  obtain ⟨hothers, hnew⟩ := h.register (w := config.windowSize) (t := t)
    (show chunk.offset.value ≤ bound by omega) hnext
  have happend : ∀ last : SendingChunk, last.beginOffset.value ≤ bound → ChunksBeginBy bound
      ((SendingChunkList.register config.windowSize s.sendingChunks chunk.offset
        (chunk.offset + sizeMinusOne chunk.data.length) t).1 ++ [last]) := by
    intro last hl sch hsch
    rcases List.mem_append.1 hsch with hsch | hsch
    · exact hothers sch hsch
    · rw [List.mem_singleton.1 hsch]
      exact hl
  unfold SafeStreamSending.sendChunk
  dsimp only
  split_ifs
  · exact happend _ hnew
  · refine (happend _ hnew).removeUpTo ?_
    rw [register_end]
    omega
  · exact happend _ hnew

end Chunks

structure PositionInv (w : SenderWorld) : Prop where
  inv : Inv w
  ordered : PositionsOrdered w.sending
  chunks : ChunksBeginBy w.sending.nextToAdd.value w.sending.sendingChunks
  emitted : ∀ m ∈ w.emitted, m.stop ≤ w.sending.nextToAdd.value

section Positions
variable {config : SafeStreamConfig}

theorem PositionInv.next_lt {w : SenderWorld} (h : PositionInv w) :
    w.sending.nextToAdd.value < 65535 := by
  rw [h.inv.next_eq]
  exact h.inv.below

theorem PositionInv.nextUnsent_le {w : SenderWorld} (h : PositionInv w) :
    nextUnsent w ≤ w.sending.nextToAdd.value := by
  have hall := h.emitted
  unfold nextUnsent
  generalize w.emitted = ms at hall ⊢
  induction ms with
  | nil => exact Nat.zero_le _
  | cons m ms ih =>
    have hm := hall m List.mem_cons_self
    have hrest := ih fun m hm => hall m (List.mem_cons_of_mem _ hm)
    simp only [List.map_cons, List.foldr_cons]
    exact Nat.max_le.2 ⟨hm, hrest⟩

theorem update_positions {w : SenderWorld} (hw : config.windowSize < 32768)
    (h : PositionInv w) (t : TimePoint) (hc : w.sending.sendDataBuffer.Consecutive)
    (ht : TimeoutKeepsConfirmed config w.sending t) :
    ∃ s m time, w.sending.update config t = some (s, m, time) ∧
      s.nextToAdd = w.sending.nextToAdd ∧ PositionsOrdered s ∧
      ChunksBeginBy s.nextToAdd.value s.sendingChunks ∧
      ∀ msg, m = some msg → msg.stop ≤ s.nextToAdd.value := by
  have hlt := h.next_lt
  have hstops : ∀ a ∈ w.sending.sendDataBuffer.sendActionViews,
      a.sendingData.stop ≤ w.sending.nextToAdd.value := fun a ha =>
    h.inv.stop_le (SafeStreamSending.mem_writes ha)
  obtain ⟨o, time, he, hwhere⟩ := SafeStreamSending.handleTimeouts_eq config w.sending t
  have ho : w.sending.lastConfirmed.value ≤ o.value ∧ o.value ≤ w.sending.nextToAdd.value := by
    rcases hwhere with rfl | ⟨sch, rest, hs, hexp, rfl⟩
    · exact h.ordered
    · exact ⟨ht sch (by simp [hs]) hexp, h.chunks sch (by simp [hs])⟩
  have hcases := SafeStreamSending.update_cases hw h.inv hc t
  rw [he] at hcases
  rcases hcases with ⟨_, hu⟩ | ⟨_, _, b, data, _, _, hdata, hu⟩
  · exact ⟨_, _, _, hu, rfl, ho, h.chunks, fun msg hm => by cases hm⟩
  · by_cases hd : data = []
    · rw [if_pos (by simp [hd])] at hu
      exact ⟨_, _, _, hu, rfl, ho, h.chunks, fun msg hm => by cases hm⟩
    · rw [if_neg (by simpa using hd)] at hu
      have hend : o.value + data.length ≤ w.sending.nextToAdd.value := by
        rcases hdata with ⟨hnil, _⟩ | hslice
        · exact absurd hnil hd
        · exact hslice.end_le hc hstops
      have hmove : (o.clockwise (toUint16 data.length)).value = o.value + data.length := by
        rw [toUint16_of_lt (by omega), RingIndex.clockwise_value _ _ (by omega) (by omega)]
      obtain ⟨hn, hlast, _, hsent, hmsg⟩ := SafeStreamSending.sendChunk_spec config
        { w.sending with lastSentOffset := o, sendDataBuffer := b } ⟨data, o⟩ t
      refine ⟨_, _, _, hu, hn, ⟨?_, ?_⟩, ?_, ?_⟩
      · rw [hlast, hsent, hmove]
        exact ho.1.trans (Nat.le_add_right _ _)
      · rw [hn, hsent, hmove]
        exact hend
      · rw [hn]
        exact ChunksBeginBy.sendChunk config ⟨data, o⟩ t h.chunks hd hend hlt
      · intro msg hm
        rw [hn]
        rcases hmsg with ⟨_, m, he, hms, hmd⟩ | ⟨he, _⟩
        · rw [he] at hm
          cases hm
          rw [Message.stop, hms, hmd]
          exact hend
        · rw [he] at hm
          cases hm

theorem init_positionInv : PositionInv {} := by
  refine ⟨init_inv, ⟨le_refl _, le_refl _⟩, ?_, ?_⟩
  · intro sch hsch
    cases hsch
  · intro m hm
    cases hm

theorem sendData_next_le {s s' : SafeStreamSending} {accepted : List DataBuffer}
    {data : DataBuffer} (h : SafeStreamSending.Inv accepted s)
    (h' : SafeStreamSending.Inv (accepted ++ [data]) s') :
    s.nextToAdd.value ≤ s'.nextToAdd.value := by
  rw [h.next_eq, h'.next_eq, totalSpan_append]
  exact Nat.le_add_right _ _

theorem step_positionInv (hw : config.windowSize < 32768) (w : SenderWorld) (e : SenderEvent)
    (h : PositionInv w) (he : PeerIsHonest w e ∧ KeepsPositions config w e) :
    ∃ w', step config w e = some w' ∧ PositionInv w' := by
  obtain ⟨hp, hk⟩ := he
  have hlt := h.next_lt
  obtain ⟨hord, hord'⟩ := h.ordered
  cases e with
  | write data =>
    refine ⟨_, rfl, ?_⟩
    split
    · exact h
    · next s hs =>
      have hinv := SafeStreamSending.sendData_inv h.inv hs hp
      have hle := sendData_next_le h.inv hinv
      rw [SafeStreamSending.sendData_inversion hs] at hinv hle ⊢
      refine ⟨hinv, ⟨hord, hord'.trans hle⟩, ?_, ?_⟩
      · intro sch hsch
        exact (h.chunks sch hsch).trans hle
      · intro m hm
        exact (h.emitted m hm).trans hle
  | setMaxDataSize n =>
    exact ⟨_, rfl, h.inv.sublist rfl (List.Sublist.refl _), h.ordered, h.chunks, h.emitted⟩
  | update t =>
    obtain ⟨s, m, time, hu, hn, hpos, hch, hm⟩ := update_positions hw h t hk.1 hk.2
    have hs : step config w (.update t) =
        some { w with sending := s, emitted := w.emitted ++ m.toList } := by
      simp only [step, hu, Option.map_some]
    refine ⟨_, hs, step_inv config w (.update t) _ h.inv trivial hs, hpos, hch, ?_⟩
    intro msg hmsg
    rcases List.mem_append.1 hmsg with hold | hnew
    · change msg.stop ≤ s.nextToAdd.value
      rw [hn]
      exact h.emitted msg hold
    · exact hm msg (Option.mem_toList.1 hnew)
  | confirm o =>
    have hinv := step_inv config w (.confirm o) _ h.inv trivial rfl
    refine ⟨_, rfl, ?_⟩
    by_cases hd : w.sending.lastConfirmed.distance (.ofVal o) ≤ config.windowSize
    · have ho := hk hd
      have hv : (RingIndex.ofVal o : SafeStreamRingIndex).value = o :=
        RingIndex.ofVal_value o (by omega)
      have hnext : ((RingIndex.ofVal o : SafeStreamRingIndex) + 1).value = o + 1 := by
        rw [RingIndex.add_value _ _ (by decide) (by omega), hv]
      simp only [SafeStreamSending.confirm, if_pos hd] at hinv ⊢
      refine ⟨hinv, ⟨?_, hord'⟩, ?_, h.emitted⟩
      · rw [hnext]
        exact ho
      · apply h.chunks.removeUpTo
        rw [hv]
        omega
    · simp only [SafeStreamSending.confirm, if_neg hd]
      exact h
  | requestRepeat o =>
    have hle : o ≤ w.sending.nextToAdd.value := hp.trans h.nextUnsent_le
    have hv : (RingIndex.ofVal o : SafeStreamRingIndex).value = o :=
      RingIndex.ofVal_value o (by omega)
    refine ⟨_, rfl, h.inv.sublist rfl (List.Sublist.refl _), ⟨?_, ?_⟩, h.chunks, h.emitted⟩
    · exact hk.trans_eq hv.symm
    · exact hv.trans_le hle
  | stopWrite id => exact hp.elim
  | reportWriteError o => exact hp.elim
  | reportWriteStopped o => exact hp.elim

/-- In every run whose confirms, requests and timeouts stay at or after what is
confirmed and before what is sent, and whose updates find consecutive writes, the three
positions stay in order. -/
theorem positions_stay_ordered (config : SafeStreamConfig) (events : List SenderEvent)
    (hw : config.windowSize < 32768)
    (ha : Along (step config) (fun w e => PeerIsHonest w e ∧ KeepsPositions config w e)
      {} events) :
    ∃ w, run (step config) {} events = some w ∧ PositionsOrdered w.sending := by
  obtain ⟨w, hr, hi⟩ := run_invariant (I := PositionInv)
    (fun w e h he => step_positionInv hw w e h he) init_positionInv ha
  exact ⟨w, hr, hi.ordered⟩

theorem positions_stay_ordered_timeout :
    ∃ w, run (step testConfig) {}
        [.setMaxDataSize 2, .write [1, 2, 3, 4], .update 0, .update 0, .confirm 1,
          .requestRepeat 2, .update 10, .update 70, .confirm 3] = some w ∧
      PositionsOrdered w.sending :=
  positions_stay_ordered testConfig
    [.setMaxDataSize 2, .write [1, 2, 3, 4], .update 0, .update 0, .confirm 1,
      .requestRepeat 2, .update 10, .update 70, .confirm 3]
    (by decide) (by decide)

end Positions

/-- A repeat request that arrives after its bytes were confirmed moves the position to
send from back behind the confirmed one. -/
theorem late_request_rewinds_behind_confirmed :
    ¬ ∀ (config : SafeStreamConfig) (events : List SenderEvent), config.windowSize < 32768 →
      Along (step config) PeerIsHonest {} events →
      ∃ w, run (step config) {} events = some w ∧ PositionsOrdered w.sending := by
  intro h
  obtain ⟨w, hr, hs⟩ := h testConfig
    [.setMaxDataSize 4, .write [1, 2, 3, 4], .update 0, .confirm 3, .requestRepeat 0]
    (by decide) (by decide)
  have hlast : w.sending.lastConfirmed.value = 4 :=
    run_observe (f := fun w => w.sending.lastConfirmed.value) hr (by decide)
  have hsent : w.sending.lastSentOffset.value = 0 :=
    run_observe (f := fun w => w.sending.lastSentOffset.value) hr (by decide)
  have hle := hs.1
  omega

end SenderWorld
end AetherClient
