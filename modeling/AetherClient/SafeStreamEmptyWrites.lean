import AetherClient.SafeStreamSenderTimers
import AetherClient.SendDataBufferSlices

set_option autoImplicit false

namespace AetherClient
open Runs

/-- `events'` is `events` with empty writes put in at some places. -/
inductive EmptyWritesInserted : List SenderEvent → List SenderEvent → Prop
  | nil : EmptyWritesInserted [] []
  | keep {events events' : List SenderEvent} (e : SenderEvent)
      (h : EmptyWritesInserted events events') : EmptyWritesInserted (e :: events) (e :: events')
  | insert {events events' : List SenderEvent}
      (h : EmptyWritesInserted events events') : EmptyWritesInserted events (.write [] :: events')

def SenderEvent.IsPlain : SenderEvent → Prop
  | .write _ | .setMaxDataSize _ | .update _ | .confirm _ => True
  | _ => False

instance : DecidablePred SenderEvent.IsPlain
  | .write _ | .setMaxDataSize _ | .update _ | .confirm _ => inferInstanceAs (Decidable True)
  | .requestRepeat _ | .stopWrite _ | .reportWriteError _ | .reportWriteStopped _ =>
    inferInstanceAs (Decidable False)

namespace SendDataBuffer

structure Trails (next : SafeStreamRingIndex) (b b' : SendDataBuffer) : Prop where
  size : b'.bufferSize = b.bufferSize
  views : b'.sendActionViews = b.sendActionViews ∨
    ∃ e : SendingDataAction, e.sendingData = ⟨next, []⟩ ∧
      b'.sendActionViews = b.sendActionViews ++ [e]

section Trails
variable {next offset : SafeStreamRingIndex} {b b' : SendDataBuffer} {w maxSize : ℕ}

theorem Trails.removeWhere (h : Trails next b b') (p : SendingDataAction → Bool)
    (mark : SendingDataAction → SendingDataAction) :
    Trails next (b.removeWhere p mark) (b'.removeWhere p mark) := by
  rcases h.views with hv | ⟨e, he, hv⟩
  · refine ⟨?_, Or.inl ?_⟩
    · simp only [SendDataBuffer.removeWhere, hv, h.size]
    · simp only [SendDataBuffer.removeWhere, hv]
  · have hlen : e.sendingData.data.length = 0 := by rw [he]; rfl
    by_cases hp : p e = true
    · refine ⟨?_, Or.inl ?_⟩
      · simp [SendDataBuffer.removeWhere, hv, h.size, hp, hlen]
      · simp [SendDataBuffer.removeWhere, hv, hp]
    · refine ⟨?_, Or.inr ⟨e, he, ?_⟩⟩
      · simp [SendDataBuffer.removeWhere, hv, h.size, hp]
      · simp [SendDataBuffer.removeWhere, hv, hp]

theorem bytesEnd_of_empty {e : SendingDataAction} (he : e.sendingData = ⟨next, []⟩) :
    bytesEnd e = next.value ∧ e.sendingData.data.length = 0 := by
  unfold bytesEnd
  rw [he]
  exact ⟨rfl, rfl⟩

theorem sliceFrom_append_empty {a e : SendingDataAction} {post : List SendingDataAction}
    (he : e.sendingData = ⟨next, []⟩) (hm : 0 < maxSize) (hnext : next.value < 65535)
    (hc : (a :: (post ++ [e])).IsChain fun a c => bytesEnd a = c.sendingData.offset.value)
    (hb : ∀ c ∈ a :: post, c.sendingData.stop < 65535)
    (hlo : a.sendingData.offset.value ≤ offset.value) (hhi : offset.value < a.sendingData.stop) :
    ∃ views e' data, e'.sendingData = ⟨next, []⟩ ∧
      sliceFrom (a :: post) offset maxSize = some (views, data) ∧
      sliceFrom (a :: (post ++ [e])) offset maxSize = some (views ++ [e'], data) := by
  have hk : offset.value - a.sendingData.offset.value ≤ a.sendingData.data.length := by
    unfold SendingData.stop span at hhi
    omega
  have hbound : ∀ c ∈ a :: (post ++ [e]),
      bytesEnd c ≤ 65535 ∧ c.sendingData.data.length < 65535 := by
    intro c hc
    rw [← List.cons_append] at hc
    rcases List.mem_append.1 hc with hc | hc
    · have hs := hb c hc
      have hspan := length_le_span c.sendingData.data
      unfold SendingData.stop at hs
      unfold bytesEnd
      omega
    · have hempty := bytesEnd_of_empty he
      rw [List.mem_singleton.1 hc]
      omega
  have hshort : (a :: post).IsChain fun a c => bytesEnd a = c.sendingData.offset.value := by
    rw [← List.cons_append] at hc
    exact hc.left_of_append
  have hbytes : bytes (a :: (post ++ [e])) = bytes (a :: post) := by
    rw [← List.cons_append, bytes_append]
    simp [bytes, he]
  have hslice := sliceFrom_marks a post offset (offset.value - a.sendingData.offset.value) maxSize
    hshort (fun c hc => hbound c (List.cons_subset_cons a (List.subset_append_left post [e]) hc))
    hk (by omega) hm
  have hslice' := sliceFrom_marks a (post ++ [e]) offset
    (offset.value - a.sendingData.offset.value) maxSize hc hbound hk (by omega) hm
  rw [hbytes, ← List.cons_append, List.map_append, List.map_singleton] at hslice'
  refine ⟨_, _, _, ?_, hslice, hslice'⟩
  split_ifs
  · exact (set_sendingData e .sending).2.trans he
  · exact he

theorem inRange_empty_iff {e : SendingDataAction} (he : e.sendingData = ⟨next, []⟩)
    (hw : w < 32768) (hnext : next.value < 65535) :
    (e.sendingData.getOffsetRange w).inRange offset = true ↔ offset.value = next.value := by
  have hstop : e.sendingData.stop = next.value + 1 := by rw [he]; rfl
  have hoff : e.sendingData.offset = next := by rw [he]
  rw [SendingData.inRange_iff_positions (by omega) (by omega), hstop, hoff]
  omega

theorem getSlice_append_empty {e : SendingDataAction} (he : e.sendingData = ⟨next, []⟩)
    (hv : b'.sendActionViews = b.sendActionViews ++ [e]) (hc : b'.Consecutive)
    (hw : w < 32768) (hm : 0 < maxSize)
    (hb : ∀ a ∈ b.sendActionViews, a.sendingData.stop < 65535) (hnext : next.value < 65535)
    (offset : SafeStreamRingIndex) :
    ∃ views e' data, e'.sendingData = ⟨next, []⟩ ∧
      getSlice w b offset maxSize = some ({ b with sendActionViews := views }, ⟨data, offset⟩) ∧
      getSlice w b' offset maxSize =
        some ({ b' with sendActionViews := views ++ [e'] }, ⟨data, offset⟩) := by
  unfold Consecutive at hc
  rw [hv] at hc
  rcases Pieces.split_at_first
      (fun a : SendingDataAction => (a.sendingData.getOffsetRange w).inRange offset)
      b.sendActionViews with ⟨_, _, hall⟩ | ⟨pre, a, post, hl, _, _, hpre, hin⟩
  · have hslice : getSlice w b offset maxSize = some (b, ⟨[], offset⟩) :=
      getSlice_of_outside hall
    by_cases hin : (e.sendingData.getOffsetRange w).inRange offset = true
    · -- the empty write is found and gives no byte
      have hoff := (inRange_empty_iff he hw hnext).1 hin
      have hmarks := sliceFrom_marks e [] offset 0 maxSize (List.isChain_singleton e)
        (fun c hc => by
          have hempty := bytesEnd_of_empty he
          rw [List.mem_singleton.1 hc]
          omega)
        (Nat.zero_le _) (by rw [he]; exact hoff) hm
      have hnone : ((bytes [e]).drop 0).take maxSize = [] := by simp [bytes, he]
      have hmark : e.sendingData.offset.value < offset.value + maxSize := by
        rw [he]
        change next.value < offset.value + maxSize
        omega
      rw [hnone, List.map_singleton, if_pos hmark] at hmarks
      refine ⟨b.sendActionViews, e.sending, [], (set_sendingData e .sending).2.trans he, hslice, ?_⟩
      rw [getSlice_of_split hv hall hin, hmarks, Option.map_some]
    · refine ⟨b.sendActionViews, e, [], he, hslice, ?_⟩
      rw [getSlice_of_outside, ← hv]
      intro c hcm
      rw [hv] at hcm
      rcases List.mem_append.1 hcm with hcm | hcm
      · exact hall c hcm
      · rw [List.mem_singleton.1 hcm]
        simpa using hin
  · have ha : a ∈ b.sendActionViews := by
      rw [hl]
      exact List.mem_append_right _ List.mem_cons_self
    obtain ⟨hlo, hhi, _⟩ := (inRange_view_iff hw (hb a ha)).1 hin
    have hv' : b'.sendActionViews = pre ++ a :: (post ++ [e]) := by
      rw [hv, hl, List.append_assoc, List.cons_append]
    rw [← hv, hv'] at hc
    obtain ⟨views, e', data, he', hs, hs'⟩ := sliceFrom_append_empty he hm hnext
      hc.right_of_append
      (fun c hcm => hb c (by rw [hl]; exact List.mem_append_right _ hcm)) hlo hhi
    refine ⟨pre ++ views, e', data, he', ?_, ?_⟩
    · rw [getSlice_of_split hl hpre hin, hs, Option.map_some]
    · rw [getSlice_of_split hv' hpre hin, hs', Option.map_some, List.append_assoc]

theorem Trails.getSlice (h : Trails next b b') (hc : b'.Consecutive) (hw : w < 32768)
    (hm : 0 < maxSize) (hb : ∀ a ∈ b.sendActionViews, a.sendingData.stop < 65535)
    (hnext : next.value < 65535) (offset : SafeStreamRingIndex) :
    ∃ c c' chunk, SendDataBuffer.getSlice w b offset maxSize = some (c, chunk) ∧
      SendDataBuffer.getSlice w b' offset maxSize = some (c', chunk) ∧ Trails next c c' := by
  rcases h.views with hv | ⟨e, he, hv⟩
  · have hcb : b.Consecutive := by
      unfold Consecutive at hc ⊢
      rwa [← hv]
    obtain ⟨c, data, hs, _⟩ := getSlice_spec offset hcb hb hw hm
    obtain ⟨slice, hslice, heq⟩ := Option.map_eq_some_iff.1 hs
    refine ⟨_, { b' with sendActionViews := c.sendActionViews }, _, hs, ?_, ?_, Or.inl rfl⟩
    · rw [← (Prod.mk.inj heq).1, ← (Prod.mk.inj heq).2]
      simp only [SendDataBuffer.getSlice, hv, hslice, Option.map_some]
    · rw [← (Prod.mk.inj heq).1]
      exact h.size
  · obtain ⟨views, e', data, he', hs, hs'⟩ :=
      getSlice_append_empty he hv hc hw hm hb hnext offset
    exact ⟨_, _, _, hs, hs', h.size, Or.inr ⟨e', he', rfl⟩⟩

end Trails
end SendDataBuffer

namespace SafeStreamSending
open SendDataBuffer

/-- The second sender may have accepted one more write, an empty one. -/
def Trails (s s' : SafeStreamSending) : Prop :=
  ∃ next b, SendDataBuffer.Trails s.nextToAdd s.sendDataBuffer b ∧
    s' = { s with nextToAdd := next, sendDataBuffer := b }

section Trails
variable {config : SafeStreamConfig} {s s' : SafeStreamSending} {t : TimePoint}

theorem Trails.confirm (h : Trails s s') (offset : SafeStreamRingIndex) :
    Trails (s.confirm config offset) (s'.confirm config offset) := by
  obtain ⟨next, b, hb, rfl⟩ := h
  unfold SafeStreamSending.confirm
  split_ifs
  · exact ⟨next, _, hb.removeWhere _ _, rfl⟩
  · exact ⟨next, b, hb, rfl⟩

theorem Trails.sendChunk (h : Trails s s') (config : SafeStreamConfig) (chunk : DataChunk)
    (t : TimePoint) :
    (s'.sendChunk config chunk t).2 = (s.sendChunk config chunk t).2 ∧
      Trails (s.sendChunk config chunk t).1 (s'.sendChunk config chunk t).1 := by
  obtain ⟨next, b, hb, rfl⟩ := h
  unfold SafeStreamSending.sendChunk
  dsimp only
  split_ifs
  · exact ⟨rfl, next, b, hb, rfl⟩
  · exact ⟨rfl, next, _, hb.removeWhere _ _, rfl⟩
  · exact ⟨rfl, next, b, hb, rfl⟩

theorem handleTimeouts_with (s : SafeStreamSending) (next : SafeStreamRingIndex)
    (b : SendDataBuffer) :
    { s with nextToAdd := next, sendDataBuffer := b }.handleTimeouts config t =
      ({ (s.handleTimeouts config t).1 with nextToAdd := next, sendDataBuffer := b },
        (s.handleTimeouts config t).2) := by
  unfold handleTimeouts
  dsimp only
  split
  · rfl
  · split_ifs
    · rfl
    · rfl

theorem Trails.update {accepted : List DataBuffer} (h : Trails s s')
    (hw : config.windowSize < 32768) (hi : Inv accepted s)
    (hc : s'.sendDataBuffer.Consecutive) (t : TimePoint) :
    ∃ u u' m time, s.update config t = some (u, m, time) ∧
      s'.update config t = some (u', m, time) ∧ Trails u u' := by
  obtain ⟨next, b, hb, rfl⟩ := h
  obtain ⟨o, time, he, _⟩ := handleTimeouts_eq config s t
  have hnext : s.nextToAdd.value < 65535 := by
    rw [hi.next_eq]
    exact hi.below
  simp only [SafeStreamSending.update, handleTimeouts_with, he]
  by_cases hm : s.maxDataSize = 0
  · rw [if_neg (by simpa using hm), if_neg (by simpa using hm)]
    exact ⟨_, _, _, _, rfl, rfl, next, b, hb, rfl⟩
  · rw [if_pos hm, if_pos hm]
    unfold sendSlice
    dsimp only
    split_ifs
    · exact ⟨_, _, _, _, rfl, rfl, next, b, hb, rfl⟩
    · obtain ⟨c, c', chunk, hs, hs', hcc⟩ := hb.getSlice hc hw (Nat.pos_of_ne_zero hm)
        (fun a ha => hi.view_stop_lt ha) hnext o
      rw [hs, hs']
      simp only [Option.map_some]
      split_ifs
      · exact ⟨_, _, _, _, rfl, rfl, next, c', hcc, rfl⟩
      · have hsliced : Trails { s with lastSentOffset := o, sendDataBuffer := c }
            { s with lastSentOffset := o, nextToAdd := next, sendDataBuffer := c' } :=
          ⟨next, c', hcc, rfl⟩
        obtain ⟨hmsg, hsent⟩ := hsliced.sendChunk config chunk t
        refine ⟨_, _, _, _, rfl, ?_, hsent⟩
        rw [← hmsg]

end Trails
end SafeStreamSending

namespace SenderWorld
open SafeStreamSending

section Conditions
variable (config : SafeStreamConfig)

/-- No write is accepted after an empty one, and an update finds consecutive writes. -/
def EmptyIsLast (w : SenderWorld) : SenderEvent → Prop
  | .write data => [] ∈ w.accepted →
      config.bufferCapacity < w.sending.sendDataBuffer.size + data.length
  | .update _ => w.sending.sendDataBuffer.Consecutive
  | _ => True

instance (w : SenderWorld) : DecidablePred (EmptyIsLast config w)
  | .write data => inferInstanceAs (Decidable ([] ∈ w.accepted →
      config.bufferCapacity < w.sending.sendDataBuffer.size + data.length))
  | .update _ => inferInstanceAs (Decidable w.sending.sendDataBuffer.Consecutive)
  | .setMaxDataSize _ | .confirm _ | .requestRepeat _ | .stopWrite _ | .reportWriteError _
  | .reportWriteStopped _ => inferInstanceAs (Decidable True)

end Conditions

def packets (w : SenderWorld) : List (ℕ × DataBuffer) :=
  w.emitted.map fun m => (m.start, m.data)

def Follows (w w' : SenderWorld) : Prop :=
  w' = w ∨ (Trails w.sending w'.sending ∧ [] ∈ w'.accepted ∧ w'.emitted = w.emitted)

section Follows
variable {config : SafeStreamConfig} {w w' : SenderWorld}

theorem Follows.packets_eq (h : Follows w w') : packets w' = packets w := by
  rcases h with rfl | ⟨_, _, he⟩
  · rfl
  · unfold packets
    rw [he]

theorem sendData_eq_none {s : SafeStreamSending} {id : ℕ} {data : DataBuffer}
    (h : config.bufferCapacity < s.sendDataBuffer.size + data.length) :
    s.sendData config id data = none :=
  if_pos h

theorem Follows.insert (h : Follows w w') (he : EmptyIsLast config w' (.write [])) :
    ∃ u', step config w' (.write []) = some u' ∧ Follows w u' := by
  refine ⟨_, rfl, ?_⟩
  rcases h with rfl | ⟨ht, hacc, hem⟩
  · split
    · exact Or.inl rfl
    · next s hs =>
      rw [sendData_inversion hs]
      refine Or.inr ⟨⟨_, w'.sending.sendDataBuffer.addData w'.accepted.length
        ⟨w'.sending.nextToAdd, []⟩, ⟨rfl, Or.inr ⟨_, rfl, rfl⟩⟩, rfl⟩, ?_, rfl⟩
      exact List.mem_append_right _ (List.mem_singleton.2 rfl)
  · rw [sendData_eq_none (he hacc)]
    exact Or.inr ⟨ht, hacc, hem⟩

theorem step_update {s : SafeStreamSending} {t time : TimePoint} {m : Option Message}
    (h : w.sending.update config t = some (s, m, time)) :
    SenderWorld.step config w (.update t) =
      some { w with sending := s, emitted := w.emitted ++ m.toList } := by
  simp only [SenderWorld.step, h, Option.map_some]

theorem Follows.step (h : Follows w w') (hw : config.windowSize < 32768) (hi : Inv w)
    {e : SenderEvent} (hp : e.IsPlain) (hf : StreamFits w e) (he : EmptyIsLast config w' e) :
    ∃ u u', SenderWorld.step config w e = some u ∧ SenderWorld.step config w' e = some u' ∧
      Inv u ∧ Follows u u' := by
  rcases h with rfl | ⟨ht, hacc, hem⟩
  · -- the same event in the same world
    suffices hdef : ∃ u, SenderWorld.step config w' e = some u by
      obtain ⟨u, hu⟩ := hdef
      exact ⟨u, u, hu, hu, step_inv config w' e u hi hf hu, Or.inl rfl⟩
    cases e with
    | update t =>
      obtain ⟨s, m, time, hu, _⟩ := update_spec hw hi he t
      exact ⟨_, step_update hu⟩
    | write data => exact ⟨_, rfl⟩
    | setMaxDataSize n => exact ⟨_, rfl⟩
    | confirm o => exact ⟨_, rfl⟩
    | requestRepeat o => exact hp.elim
    | stopWrite id => exact hp.elim
    | reportWriteError o => exact hp.elim
    | reportWriteStopped o => exact hp.elim
  · cases e with
    | write data =>
      have hfull := he hacc
      have hsize : w'.sending.sendDataBuffer.size = w.sending.sendDataBuffer.size := by
        obtain ⟨next, b, hb, hs⟩ := ht
        rw [hs]
        exact hb.size
      have hstep : SenderWorld.step config w (.write data) = some w := by
        rw [hsize] at hfull
        simp only [SenderWorld.step, sendData_eq_none hfull]
      have hstep' : SenderWorld.step config w' (.write data) = some w' := by
        simp only [SenderWorld.step, sendData_eq_none hfull]
      exact ⟨w, w', hstep, hstep', hi, Or.inr ⟨ht, hacc, hem⟩⟩
    | update t =>
      obtain ⟨u, u', m, time, hu, hu', hut⟩ := ht.update hw hi he t
      refine ⟨_, _, step_update hu, step_update hu',
        step_inv config w (.update t) _ hi hf (step_update hu), Or.inr ⟨hut, hacc, ?_⟩⟩
      exact congrArg (· ++ m.toList) hem
    | setMaxDataSize n =>
      obtain ⟨next, b, hb, hs⟩ := ht
      refine ⟨_, _, rfl, rfl, step_inv config w (.setMaxDataSize n) _ hi hf rfl,
        Or.inr ⟨⟨next, b, hb, ?_⟩, hacc, hem⟩⟩
      rw [hs]
      rfl
    | confirm o =>
      exact ⟨_, _, rfl, rfl, step_inv config w (.confirm o) _ hi hf rfl,
        Or.inr ⟨ht.confirm _, hacc, hem⟩⟩
    | requestRepeat o => exact hp.elim
    | stopWrite id => exact hp.elim
    | reportWriteError o => exact hp.elim
    | reportWriteStopped o => exact hp.elim

theorem Follows.run {events events' : List SenderEvent}
    (hins : EmptyWritesInserted events events') (h : Follows w w')
    (hw : config.windowSize < 32768) (hi : Inv w) (hp : ∀ e ∈ events, e.IsPlain)
    (hf : Along (SenderWorld.step config) StreamFits w events)
    (he : Along (SenderWorld.step config) (EmptyIsLast config) w' events') :
    ∃ u u', Runs.run (SenderWorld.step config) w events = some u ∧
      Runs.run (SenderWorld.step config) w' events' = some u' ∧ Follows u u' := by
  induction hins generalizing w w' with
  | nil => exact ⟨w, w', rfl, rfl, h⟩
  | keep e _ ih =>
    obtain ⟨hfe, hfrest⟩ := hf
    obtain ⟨hee, herest⟩ := he
    obtain ⟨u, u', hu, hu', hiu, hfu⟩ := h.step hw hi (hp e List.mem_cons_self) hfe hee
    rw [hu] at hfrest
    rw [hu'] at herest
    obtain ⟨v, v', hv, hv', hfv⟩ := ih hfu hiu (fun e he => hp e (List.mem_cons_of_mem _ he))
      hfrest herest
    exact ⟨v, v', by simp [Runs.run, hu, hv], by simp [Runs.run, hu', hv'], hfv⟩
  | insert _ ih =>
    obtain ⟨hee, herest⟩ := he
    obtain ⟨u', hu', hfu⟩ := h.insert hee
    rw [hu'] at herest
    obtain ⟨v, v', hv, hv', hfv⟩ := ih hfu hi hp hf herest
    exact ⟨v, v', hv, by simp [Runs.run, hu', hv'], hfv⟩

end Follows

/-- Empty writes change no packet as long as no write is accepted after one and every update
finds consecutive writes. -/
theorem empty_writes_harmless (config : SafeStreamConfig) (events events' : List SenderEvent)
    (hw : config.windowSize < 32768) (hins : EmptyWritesInserted events events')
    (hp : ∀ e ∈ events, e.IsPlain) (hf : Along (step config) StreamFits {} events)
    (he : Along (step config) (EmptyIsLast config) {} events') :
    ∃ w w', run (step config) {} events = some w ∧ run (step config) {} events' = some w' ∧
      packets w' = packets w := by
  obtain ⟨w, w', hr, hr', h⟩ := Follows.run hins (Or.inl rfl) hw init_inv hp hf he
  exact ⟨w, w', hr, hr', h.packets_eq⟩

theorem empty_writes_harmless_at_end :
    ∃ w w', run (step testConfig) {} [.setMaxDataSize 4, .write [1, 2], .update 0, .confirm 1,
        .update 1] = some w ∧
      run (step testConfig) {} [.setMaxDataSize 4, .write [1, 2], .write [], .update 0,
        .confirm 1, .update 1] = some w' ∧
      packets w' = packets w :=
  empty_writes_harmless testConfig
    [.setMaxDataSize 4, .write [1, 2], .update 0, .confirm 1, .update 1]
    [.setMaxDataSize 4, .write [1, 2], .write [], .update 0, .confirm 1, .update 1] (by decide)
    (.keep _ (.keep _ (.insert (.keep _ (.keep _ (.keep _ .nil)))))) (by decide) (by decide)
    (by decide)

/-- An empty write in front of a byte makes the slice run past the end of the data. -/
theorem empty_write_first_is_undefined :
    ¬ ∀ (config : SafeStreamConfig) (events events' : List SenderEvent) (w : SenderWorld),
      config.windowSize < 32768 → EmptyWritesInserted events events' →
      (∀ e ∈ events, e.IsPlain) → Along (step config) StreamFits {} events →
      run (step config) {} events = some w →
      ∃ w', run (step config) {} events' = some w' ∧ packets w' = packets w := by
  intro h
  obtain ⟨w', hr, _⟩ := h testConfig [.setMaxDataSize 4, .write [1], .update 0]
    [.setMaxDataSize 4, .write [], .write [1], .update 0] _ (by decide)
    (.keep _ (.insert (.keep _ (.keep _ .nil)))) (by decide) (by decide) rfl
  have hnone : (run (step testConfig) {}
      [.setMaxDataSize 4, .write [], .write [1], .update 0]).isSome = false := by decide
  rw [hr] at hnone
  cases hnone

end SenderWorld
end AetherClient
