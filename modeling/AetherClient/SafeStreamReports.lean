import AetherClient.SafeStreamLink

set_option autoImplicit false

namespace AetherClient
open Pieces Runs

def Delivered (p q : Party) (id : ℕ) : Prop :=
  id < p.accepted.length ∧
    (p.accepted.take (id + 1)).flatten.length ≤ q.received.flatten.length

/-- Data flows from `p` to `q`, and every confirm on its way back, queued or already
turned into a result names delivered bytes. -/
structure ReportFlow (p q : Party) : Prop extends Flow p q where
  queued : q.stream.receiving.ConfirmsBelow
  returning : ∀ packet ∈ q.channel, ∀ o, .confirm o ∈ packet → o < q.received.flatten.length
  finished : ∀ a ∈ p.stream.sending.sendDataBuffer.finished, a.state = .done → Delivered p q a.id
  reported : ∀ id, (id, .done) ∈ p.reports → Delivered p q id

section Delivered
variable {p q p' q' : Party} {id : ℕ}

theorem Delivered.mono (h : Delivered p q id) (ha : p.accepted <+: p'.accepted)
    (hr : q.received.flatten.length ≤ q'.received.flatten.length) : Delivered p' q' id := by
  obtain ⟨hlt, hle⟩ := h
  obtain ⟨more, hm⟩ := ha
  refine ⟨?_, ?_⟩
  · rw [← hm, List.length_append]
    omega
  · rw [← hm, List.take_append_of_le_length hlt]
    exact hle.trans hr

theorem Delivered.take_isPrefix (hf : Flow p q) (h : Delivered p q id) :
    (p.accepted.take (id + 1)).flatten <+: q.received.flatten := by
  have hpre : (p.accepted.take (id + 1)).flatten <+: p.accepted.flatten := by
    conv_rhs => rw [← List.take_append_drop (id + 1) p.accepted, List.flatten_append]
    exact List.prefix_append _ _
  have hrec : q.received.flatten <+: p.accepted.flatten := by
    rw [hf.receiver.received_eq]
    exact List.take_prefix _ _
  exact List.prefix_of_prefix_length_le hpre hrec h.2

end Delivered

section Message
variable (config : SafeStreamConfig)

/-- A confirm finds no buffered write that ends more than a window after it, and a repeat
that is dropped is old. -/
def MessageIsSound (s : SafeStream) : Message → Prop
  | .confirm offset => s.sending.lastConfirmed.distance (.ofVal offset) ≤ config.windowSize →
      ∀ a ∈ s.sending.sendDataBuffer.sendActionViews,
        a.sendingData.stop ≤ offset + config.windowSize + 1
  | .repeat_ _ offset data =>
    config.windowSize ≤ s.receiving.lastConfirmedOffset.distance (.ofVal offset) →
      offset + data.length ≤ s.receiving.lastConfirmedOffset.value
  | _ => True

instance (s : SafeStream) : DecidablePred (MessageIsSound config s)
  | .confirm offset => inferInstanceAs (Decidable
      (s.sending.lastConfirmed.distance (.ofVal offset) ≤ config.windowSize →
        ∀ a ∈ s.sending.sendDataBuffer.sendActionViews,
          a.sendingData.stop ≤ offset + config.windowSize + 1))
  | .repeat_ _ offset data => inferInstanceAs (Decidable
      (config.windowSize ≤ s.receiving.lastConfirmedOffset.distance (.ofVal offset) →
        offset + data.length ≤ s.receiving.lastConfirmedOffset.value))
  | .send _ _ => inferInstanceAs (Decidable True)
  | .requestRepeat _ => inferInstanceAs (Decidable True)

end Message

/-- What the messages of a packet keep at the end that reads it: its receiver is in step
with `stream`, and of its own writes only those within the first `delivered` bytes are
done. -/
structure ReaderInv (stream received : DataBuffer) (accepted : List DataBuffer) (delivered : ℕ)
    (s : SafeStream) : Prop where
  receiver : SafeStreamReceiving.Inv stream s.receiving received
  queued : s.receiving.ConfirmsBelow
  sender : SafeStreamSending.Inv accepted s.sending
  done : ∀ a ∈ s.sending.sendDataBuffer.finished, a.state = .done →
    a.id < accepted.length ∧ (accepted.take (a.id + 1)).flatten.length ≤ delivered

section Reader
variable {config : SafeStreamConfig} {stream received : DataBuffer} {accepted : List DataBuffer}
  {delivered : ℕ} {s : SafeStream}

theorem ReaderInv.confirm {o : ℕ} (hw : config.windowSize < 32768)
    (hne : ∀ data ∈ accepted, data ≠ []) (h : ReaderInv stream received accepted delivered s)
    (ho : o < delivered) (hd : delivered < 65535)
    (hnear : MessageIsSound config s (.confirm o)) :
    ReaderInv stream received accepted delivered
      { s with sending := s.sending.confirm config (.ofVal o) } := by
  have hv : (RingIndex.ofVal o : SafeStreamRingIndex).value = o :=
    RingIndex.ofVal_value o (by omega)
  obtain ⟨hn, hwr⟩ := SafeStreamSending.confirm_writes config s.sending (.ofVal o)
  refine ⟨h.receiver, h.queued, h.sender.sublist hn hwr, ?_⟩
  intro a ha hdone
  change a ∈ (s.sending.confirm config (.ofVal o)).sendDataBuffer.finished at ha
  unfold SafeStreamSending.confirm at ha
  split_ifs at ha with hdist
  · rcases List.mem_append.1 ha with ha | ha
    · exact h.done a ha hdone
    · obtain ⟨c, hc, rfl⟩ := List.mem_map.1 ha
      obtain ⟨hview, hbefore⟩ := List.mem_filter.1 hc
      have hplaced := h.sender.placed _ (SafeStreamSending.mem_writes hview)
      have hstop := h.sender.stop_eq (SafeStreamSending.mem_writes hview)
      have hend := c.sendingData.getOffsetRange_end config.windowSize
        (h.sender.view_stop_lt hview).le
      have hfar := hnear hdist c hview
      have hlt := (OffsetRange.before_iff _ _ hw).1 hbefore
      rw [hv] at hlt
      change o + config.windowSize < _ ∨ _ at hlt
      obtain ⟨hid, _⟩ := SendDataBuffer.set_sendingData c .done
      change (c.set .done).id < _ ∧ _
      rw [show c.sentConfirmed = c.set .done from rfl, hid]
      refine ⟨(List.getElem?_eq_some_iff.1 hplaced.1).1, ?_⟩
      rw [totalSpan_eq_length fun d hd => hne d (List.mem_of_mem_take hd)] at hstop
      dsimp only at hstop
      omega
  · exact h.done a ha hdone

theorem onMessage_readerInv (hw : config.windowSize < 32768) (hlen : stream.length < 65535)
    (hne : ∀ data ∈ accepted, data ≠ []) (hd : delivered < 65535) (s : SafeStream) (m : Message)
    (h : ReaderInv stream received accepted delivered s)
    (hm : MessageIsSound config s m ∧ m.IsPieceOf stream ∧ ∀ o, m = .confirm o → o < delivered) :
    ∃ s', s.onMessage config m = some s' ∧
      ReaderInv stream received accepted delivered s' := by
  obtain ⟨hsound, hp, hconf⟩ := hm
  cases m with
  | confirm o => exact ⟨_, rfl, h.confirm hw hne (hconf o rfl) hd hsound⟩
  | requestRepeat o =>
    exact ⟨_, rfl, h.receiver, h.queued, h.sender.sublist rfl (List.Sublist.refl _), h.done⟩
  | send offset data =>
    obtain ⟨r, hr, _, hi⟩ := SafeStreamReceiving.receiveSend_inv config hw hlen
      (SafeStreamReceiving.truePiece_ofVal hlen hp).2 h.receiver
    simp only [SafeStream.onMessage, hr, Option.map_some]
    exact ⟨_, rfl, hi, SafeStreamReceiving.receiveSend_confirmsBelow hw hlen hp h.receiver
      h.queued hr, h.sender, h.done⟩
  | repeat_ n offset data =>
    obtain ⟨r, hr, _, hi⟩ := SafeStreamReceiving.receiveRepeat_inv config n hw hlen
      (SafeStreamReceiving.truePiece_ofVal hlen hp).2 h.receiver
    simp only [SafeStream.onMessage, hr, Option.map_some]
    exact ⟨_, rfl, hi, SafeStreamReceiving.receiveRepeat_confirmsBelow n hw hlen hp h.receiver
      h.queued hsound hr, h.sender, h.done⟩

end Reader

namespace Link
section Reports
variable {config : SafeStreamConfig}

def ReportsAreSound (config : SafeStreamConfig) (l : Link) (e : LinkEvent) : Prop :=
  MeetsNoGap l e ∧ match e with
    | .deliver side => ∀ packet ∈ (l side).channel.head?,
      Along (SafeStream.onMessage config) (MessageIsSound config) (l side.peer).stream packet
    | _ => True

instance (config : SafeStreamConfig) (l : Link) : DecidablePred (ReportsAreSound config l)
  | .deliver side => inferInstanceAs (Decidable (MeetsNoGap l (.deliver side) ∧
      ∀ packet ∈ (l side).channel.head?, _))
  | .write side data => inferInstanceAs (Decidable (MeetsNoGap l (.write side data) ∧ True))
  | .updateSending side t =>
    inferInstanceAs (Decidable (MeetsNoGap l (.updateSending side t) ∧ True))
  | .setMaxDataSize _ _ | .updateReceiving _ _ | .updateAction _ _ | .lose _ _ =>
    inferInstanceAs (Decidable (True ∧ True))

theorem init_both_reportFlow : Both ReportFlow init := by
  intro side
  refine ⟨init_both_flow side, ?_, ?_, ?_, ?_⟩
  · intro o ho
    cases ho
  · intro packet hp
    cases hp
  · intro a ha
    cases ha
  · intro id hid
    cases hid

end Reports
end Link

theorem ReportFlow.mono {p q p' q' : Party} (h : ReportFlow p q) (hf : Flow p' q')
    (ha : p.accepted <+: p'.accepted)
    (hd : q.received.flatten.length ≤ q'.received.flatten.length)
    (hq : q'.stream.receiving.ConfirmsBelow)
    (hret : ∀ packet ∈ q'.channel, packet ∈ q.channel ∨
      ∀ o, .confirm o ∈ packet → o < q'.received.flatten.length)
    (hfin : ∀ a ∈ p'.stream.sending.sendDataBuffer.finished, a.state = .done →
      ∃ c ∈ p.stream.sending.sendDataBuffer.finished, c.state = .done ∧ c.id = a.id)
    (hrep : ∀ id, (id, .done) ∈ p'.reports → (id, .done) ∈ p.reports ∨
      ∃ c ∈ p.stream.sending.sendDataBuffer.finished, c.state = .done ∧ c.id = id) :
    ReportFlow p' q' := by
  refine ⟨hf, hq, ?_, ?_, ?_⟩
  · intro packet hp o ho
    rcases hret packet hp with hold | hnew
    · exact (h.returning packet hold o ho).trans_le hd
    · exact hnew o ho
  · intro a ha' hdone
    obtain ⟨c, hc, hs, hid⟩ := hfin a ha' hdone
    rw [← hid]
    exact (h.finished c hc hs).mono ha hd
  · intro id hid
    rcases hrep id hid with hold | ⟨c, hc, hs, rfl⟩
    · exact (h.reported id hold).mono ha hd
    · exact (h.finished c hc hs).mono ha hd

theorem ReportFlow.keep {p q p' q' : Party} (h : ReportFlow p q) (hf : Flow p' q')
    (hacc : p'.accepted = p.accepted) (hrec : q'.received = q.received)
    (hq : q'.stream.receiving = q.stream.receiving) (hch : q'.channel ⊆ q.channel)
    (hfin : p'.stream.sending.sendDataBuffer.finished = p.stream.sending.sendDataBuffer.finished)
    (hrep : p'.reports = p.reports) : ReportFlow p' q' := by
  refine h.mono hf (by rw [hacc]) (by rw [hrec]) (by rw [hq]; exact h.queued)
    (fun _ hp => Or.inl (hch hp)) ?_ ?_
  · intro a ha hd
    exact ⟨a, hfin ▸ ha, hd, rfl⟩
  · intro id hid
    exact Or.inl (hrep ▸ hid)

theorem ReportFlow.read {config : SafeStreamConfig} {p q : Party} {packet : Packet}
    {rest : List Packet} (hw : config.windowSize < 32768) (hout : ReportFlow p q)
    (hin : ReportFlow q p) (hch : p.channel = packet :: rest)
    (hs : Along (SafeStream.onMessage config) (MessageIsSound config) q.stream packet) :
    ∃ s, q.stream.onPacket config packet = some s ∧
      ReaderInv p.accepted.flatten q.received.flatten q.accepted p.received.flatten.length s := by
  have hmem : packet ∈ p.channel := by rw [hch]; exact List.mem_cons_self
  have hlen : p.received.flatten.length < 65535 := by
    rw [hin.receiver.received_length]
    exact hin.receiver.confirmed_le.trans_lt hin.stream_lt
  refine run_invariant (onMessage_readerInv hw hout.stream_lt hin.nonempty hlen)
    ⟨hout.receiver, hout.queued, hin.sender, hin.finished⟩ (hs.and (.of_forall ?_))
  intro m hm _
  refine ⟨hout.inFlight packet hmem m hm, ?_⟩
  rintro o rfl
  exact hin.returning packet hmem o hm

namespace Link
section Run
variable {config : SafeStreamConfig}

theorem updateAction_done (b : SendDataBuffer) (id : ℕ) :
    (∀ a ∈ (b.updateAction id).1.finished, a.state = .done →
      ∃ c ∈ b.finished, c.state = .done ∧ c.id = a.id) ∧
    ∀ i, (i, .done) ∈ (b.updateAction id).2 → ∃ c ∈ b.finished, c.state = .done ∧ c.id = i := by
  have hstate : ∀ a : SendingDataAction, a.update.1.state = a.state ∧ a.update.1.id = a.id := by
    intro a
    unfold SendingDataAction.update
    split_ifs <;> exact ⟨rfl, rfl⟩
  refine ⟨?_, ?_⟩
  · intro a ha hdone
    obtain ⟨c, hc, rfl⟩ := List.mem_map.1 ha
    refine ⟨c, (List.mem_filter.1 hc).1, ?_⟩
    split_ifs at hdone ⊢
    · rw [(hstate c).1] at hdone
      exact ⟨hdone, (hstate c).2.symm⟩
    · exact ⟨hdone, rfl⟩
  · intro i hi
    obtain ⟨c, hc, he⟩ := List.mem_filterMap.1 hi
    dsimp only at he
    split_ifs at he with hid
    · obtain ⟨state, hst, heq⟩ := Option.map_eq_some_iff.1 he
      obtain ⟨rfl, rfl⟩ := Prod.mk.inj heq
      refine ⟨c, hc, ?_, rfl⟩
      unfold SendingDataAction.update at hst
      split_ifs at hst
      · cases hcs : c.state with
        | done => rfl
        | waiting => simp [hcs] at hst
        | sending => simp [hcs] at hst
        | stopped => simp [hcs] at hst
        | failed => simp [hcs] at hst
    · cases he

section Event
variable {l l' : Link} {side : Side} (h : Both ReportFlow l) (hflow : Both Flow l')
include h hflow

theorem reportFlow_write {data : DataBuffer} (hs : step config l (.write side data) = some l') :
    Both ReportFlow l' := by
  cases hsend : (l side).stream.sending.sendData config (l side).accepted.length data with
  | none =>
    simp only [step, hsend, Option.some.injEq] at hs
    subst hs
    exact h
  | some s =>
    simp only [step, hsend, Option.some.injEq] at hs
    subst hs
    obtain ⟨hout, hin⟩ := hflow.of_modify
    have hfin : s.sendDataBuffer.finished =
        (l side).stream.sending.sendDataBuffer.finished := by
      rw [SafeStreamSending.sendData_inversion hsend]
      rfl
    refine Both.modify ?_ ?_
    · refine (h.out side).mono hout (List.prefix_append _ _) (le_refl _) (h.out side).queued
        (fun _ hp => Or.inl hp) ?_ (fun _ hid => Or.inl hid)
      intro a ha hd
      exact ⟨a, by rwa [← hfin], hd, rfl⟩
    · exact (h.into side).keep hin rfl rfl rfl (List.Subset.refl _) rfl rfl

theorem reportFlow_updateSending {t : TimePoint} (hw : config.windowSize < 32768)
    (hgap : MeetsNoGap l (.updateSending side t))
    (hs : step config l (.updateSending side t) = some l') : Both ReportFlow l' := by
  obtain ⟨s, m, time, hu, _, hm, hfin⟩ := (h.out side).update t hw hgap
  simp only [step, hu, Option.map_some, Option.some.injEq] at hs
  subst hs
  obtain ⟨hout, hin⟩ := hflow.of_modify
  refine Both.modify ?_ ?_
  · refine (h.out side).mono hout List.prefix_rfl (le_refl _) (h.out side).queued
      (fun _ hp => Or.inl hp) ?_ (fun _ hid => Or.inl hid)
    intro a ha hd
    rcases hfin a ha with hold | hfail
    · exact ⟨a, hold, hd, rfl⟩
    · rw [hfail] at hd
      cases hd
  · refine (h.into side).mono hin List.prefix_rfl (le_refl _) (h.into side).queued ?_
      (fun a ha hd => ⟨a, ha, hd, rfl⟩) (fun _ hid => Or.inl hid)
    intro packet hp
    rcases List.mem_append.1 hp with hp | hp
    · exact Or.inl hp
    · right
      obtain ⟨m', hm', rfl⟩ := List.mem_map.1 hp
      intro o ho
      exact absurd (List.mem_singleton.1 ho).symm ((hm m' (Option.mem_toList.1 hm')).2 o)

theorem reportFlow_updateReceiving {t : TimePoint}
    (hs : step config l (.updateReceiving side t) = some l') : Both ReportFlow l' := by
  cases hs
  obtain ⟨hout, hin⟩ := hflow.of_modify
  have hf := h.into side
  obtain ⟨hbelow, hpacket⟩ := SafeStreamReceiving.update_confirmsBelow config hf.stream_lt
    hf.receiver hf.queued t
  refine Both.modify ?_ ?_
  · exact (h.out side).keep hout rfl rfl rfl (List.Subset.refl _) rfl rfl
  · refine hf.mono hin List.prefix_rfl ?_ hbelow ?_ (fun a ha hd => ⟨a, ha, hd, rfl⟩)
      (fun _ hid => Or.inl hid)
    · simp
    · intro packet hp
      rcases List.mem_append.1 hp with hp | hp
      · exact Or.inl hp
      · right
        intro o ho
        exact (hpacket packet (Option.mem_toList.1 hp) o ho).trans_eq
          hin.receiver.received_length.symm

theorem reportFlow_updateAction {id : ℕ} (hs : step config l (.updateAction side id) = some l') :
    Both ReportFlow l' := by
  cases hs
  obtain ⟨hout, hin⟩ := hflow.of_modify
  obtain ⟨hfin, hrep⟩ := updateAction_done (l side).stream.sending.sendDataBuffer id
  refine Both.modify ?_ ?_
  · refine (h.out side).mono hout List.prefix_rfl (le_refl _) (h.out side).queued
      (fun _ hp => Or.inl hp) hfin ?_
    intro i hi
    rcases List.mem_append.1 hi with hi | hi
    · exact Or.inl hi
    · exact Or.inr (hrep i hi)
  · exact (h.into side).keep hin rfl rfl rfl (List.Subset.refl _) rfl rfl

theorem reportFlow_deliver (hw : config.windowSize < 32768)
    (hread : ∀ packet ∈ (l side).channel.head?,
      Along (SafeStream.onMessage config) (MessageIsSound config) (l side.peer).stream packet)
    (hs : step config l (.deliver side) = some l') : Both ReportFlow l' := by
  simp only [step] at hs
  split at hs
  · cases hs
    exact h
  · next packet rest hch =>
    obtain ⟨s, hread', hr⟩ := (h.out side).read hw (h.into side) hch
      (hread packet (by simp [hch]))
    rw [hread', Option.map_some, Option.some.injEq] at hs
    subst hs
    obtain ⟨hout, hin⟩ := hflow.of_modify
    rw [peer_peer, modify_self] at hout hin
    refine Both.modify ?_ ?_
    · rw [peer_peer, modify_self]
      refine ⟨hout, (h.into side).queued, ?_, hr.done, (h.into side).reported⟩
      intro p hp
      exact (h.into side).returning p (by rw [hch]; exact List.mem_cons_of_mem _ hp)
    · rw [peer_peer, modify_self]
      exact ⟨hin, hr.queued, (h.out side).returning, (h.out side).finished,
        (h.out side).reported⟩

end Event

theorem step_both_reportFlow (hw : config.windowSize < 32768) (l : Link) (e : LinkEvent)
    (h : Both ReportFlow l) (he : ReportsAreSound config l e) :
    ∃ l', step config l e = some l' ∧ Both ReportFlow l' := by
  obtain ⟨hgap, hread⟩ := he
  obtain ⟨l', hs, hflow⟩ := step_both_flow hw l e (fun side => (h side).toFlow) hgap
  refine ⟨l', hs, ?_⟩
  cases e with
  | write side data => exact reportFlow_write h hflow hs
  | setMaxDataSize side n =>
    cases hs
    obtain ⟨hout, hin⟩ := hflow.of_modify
    exact Both.modify ((h.out side).keep hout rfl rfl rfl (List.Subset.refl _) rfl rfl)
      ((h.into side).keep hin rfl rfl rfl (List.Subset.refl _) rfl rfl)
  | updateSending side t => exact reportFlow_updateSending h hflow hw hgap hs
  | updateReceiving side t => exact reportFlow_updateReceiving h hflow hs
  | updateAction side id => exact reportFlow_updateAction h hflow hs
  | deliver side => exact reportFlow_deliver h hflow hw hread hs
  | lose side i =>
    cases hs
    obtain ⟨hout, hin⟩ := hflow.of_modify
    exact Both.modify ((h.out side).keep hout rfl rfl rfl (List.Subset.refl _) rfl rfl)
      ((h.into side).keep hin rfl rfl rfl List.eraseIdx_subset rfl rfl)

end Run
end Link
end AetherClient
