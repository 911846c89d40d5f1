import AetherClient.SafeStreamLink

set_option autoImplicit false

namespace AetherClient
open Pieces Runs

def position (k : ℕ) : SafeStreamRingIndex := .ofVal k

section Position
variable {k n : ℕ}

theorem position_value (h : k < 65535) : (position k).value = k := RingIndex.ofVal_value k h

theorem position_add (h : k + n < 65535) : position k + n = position (k + n) := by
  apply RingIndex.ext
  rw [RingIndex.add_value _ _ (by omega) (by rw [position_value (by omega)]; omega),
    position_value (by omega), position_value h]

theorem position_clockwise (h : k + n < 65535) :
    (position k).clockwise n = position (k + n) := by
  apply RingIndex.ext
  rw [RingIndex.clockwise_value _ _ (by omega) (by rw [position_value (by omega)]; omega),
    position_value (by omega), position_value h]

theorem position_sub_one (h : k < 65535) (hk : 0 < k) : position k - 1 = position (k - 1) := by
  apply RingIndex.ext
  rw [RingIndex.sub_value _ _ (by decide) (by rw [position_value h]; omega),
    position_value h, position_value (by omega)]

theorem position_distance (h : k + n < 65535) : (position k).distance (position (k + n)) = n := by
  have hk := position_value (k := k) (by omega)
  have hn := position_value h
  rw [RingIndex.distance_of_le (by omega)]
  omega

end Position

def sentUpTo (k maxDataSize : ℕ) (b : SendDataBuffer) : SafeStreamSending where
  maxDataSize := maxDataSize
  sendDataBuffer := b
  lastConfirmed := position k
  nextToAdd := position k
  lastSentOffset := position k

def deliveredUpTo (k : ℕ) : SafeStreamReceiving where
  lastConfirmedOffset := position k

/-- The buffer after the write with data `data` at `k` was sent and confirmed: it stays
until a later byte is confirmed, the writes before it are done. -/
def confirmedBuffer (b : SendDataBuffer) (id k : ℕ) (data : DataBuffer) : SendDataBuffer where
  sendActionViews := [⟨id, ⟨position k, data⟩, .sending, true⟩]
  finished := b.finished ++ b.sendActionViews.map SendingDataAction.sentConfirmed
  bufferSize := data.length

section RoundTrip
variable {config : SafeStreamConfig} {k m : ℕ} (id : ℕ) {data : DataBuffer} {b : SendDataBuffer}

theorem position_sizeMinusOne (hd : data ≠ []) (hend : k + data.length < 65535) :
    position k + sizeMinusOne data.length = position (k + data.length - 1) := by
  have hpos := List.length_pos_iff.2 hd
  rw [sizeMinusOne_of_pos hpos (by omega), position_add (by omega)]
  congr 1
  omega

theorem sentUpTo_sendData (hd : data ≠ []) (hend : k + data.length < 65535)
    (hcap : b.bufferSize + data.length ≤ config.bufferCapacity) :
    (sentUpTo k m b).sendData config id data =
      some { sentUpTo k m (b.addData id ⟨position k, data⟩) with
        nextToAdd := position (k + data.length) } := by
  have hpos := List.length_pos_iff.2 hd
  have hfull : ¬ config.bufferCapacity < (sentUpTo k m b).sendDataBuffer.size + data.length :=
    Nat.not_lt.2 hcap
  have hnext : position k + sizeMinusOne data.length + 1 = position (k + data.length) := by
    rw [position_sizeMinusOne hd hend, position_add (by omega)]
    congr 1
    omega
  rw [SafeStreamSending.sendData, if_neg hfull]
  simp only [SendingData.getOffsetRange, sentUpTo, hnext]

theorem getSlice_last (hd : data ≠ []) (hend : k + data.length < 65535)
    (hw : config.windowSize < 32768) (hlen : data.length ≤ config.windowSize)
    (hlim : data.length ≤ m)
    (hold : ∀ a ∈ b.sendActionViews, a.sendingData.stop = k) :
    (b.addData id ⟨position k, data⟩).getSlice config.windowSize (position k) m =
      some ({ b with
        sendActionViews := b.sendActionViews ++ [⟨id, ⟨position k, data⟩, .sending, true⟩]
        bufferSize := b.bufferSize + data.length }, ⟨data, position k⟩) := by
  have hpos := List.length_pos_iff.2 hd
  have hk := position_value (k := k) (by omega)
  have hstop : SendingData.stop ⟨position k, data⟩ = k + data.length := by
    change (position k).value + span data = _
    rw [hk, span_of_ne_nil hd]
  have hnew : (SendingData.getOffsetRange ⟨position k, data⟩ config.windowSize).inRange
      (position k) = true := by
    rw [SendDataBuffer.inRange_view_iff (a := ⟨id, ⟨position k, data⟩, .waiting, true⟩) hw
      (by dsimp only; omega)]
    dsimp only
    omega
  have hout : ∀ a ∈ b.sendActionViews,
      (!(a.sendingData.getOffsetRange config.windowSize).inRange (position k)) = true := by
    intro a ha
    have hs := hold a ha
    rw [Bool.not_eq_true', Bool.eq_false_iff, ne_eq,
      SendDataBuffer.inRange_view_iff hw (by omega)]
    omega
  have hslice : SendDataBuffer.sliceFrom [⟨id, ⟨position k, data⟩, .waiting, true⟩]
      (position k) m = some ([⟨id, ⟨position k, data⟩, .sending, true⟩], data) := by
    rw [SendDataBuffer.sliceFrom_cons _ [] (position k) 0 m (Nat.zero_le _) rfl]
    split_ifs with h
    · rw [List.drop_zero, List.take_of_length_le hlim]
      rfl
    · simp only [SendDataBuffer.sliceFrom, Option.map_some, List.drop_zero, List.append_nil]
      rfl
  simp only [SendDataBuffer.getSlice, SendDataBuffer.addData]
  rw [List.dropWhile_append_of_pos hout, List.takeWhile_append_of_pos hout]
  simp only [List.dropWhile_cons, List.takeWhile_cons, hnew, Bool.not_true, Bool.false_eq_true,
    if_false, List.append_nil, hslice, Option.map_some]

theorem sentUpTo_update (hd : data ≠ []) (hend : k + data.length < 65535)
    (hw : config.windowSize < 32768) (hlen : data.length ≤ config.windowSize)
    (hlim : data.length ≤ m)
    (hwin : (position k).distance (position k + m) ≤ config.windowSize)
    (hold : ∀ a ∈ b.sendActionViews, a.sendingData.stop = k) (t : TimePoint) :
    SafeStreamSending.update config
        { sentUpTo k m (b.addData id ⟨position k, data⟩) with
          nextToAdd := position (k + data.length) } t =
      some ({ maxDataSize := m
              sendDataBuffer := { b with
                sendActionViews :=
                  b.sendActionViews ++ [⟨id, ⟨position k, data⟩, .sending, true⟩]
                bufferSize := b.bufferSize + data.length }
              sendingChunks := [⟨position k, position (k + data.length - 1), 1, t⟩]
              lastConfirmed := position k
              nextToAdd := position (k + data.length)
              lastSentOffset := position (k + data.length) },
        some (.send k data), t) := by
  have hpos := List.length_pos_iff.2 hd
  have hm : m ≠ 0 := by omega
  have hmove : (position k).clockwise (toUint16 data.length) = position (k + data.length) := by
    rw [toUint16_of_lt (by omega), position_clockwise hend]
  simp only [SafeStreamSending.update, SafeStreamSending.handleTimeouts, sentUpTo, ne_eq, hm,
    not_false_eq_true, if_true, SafeStreamSending.sendSlice, if_neg (Nat.not_lt.2 hwin),
    getSlice_last id hd hend hw hlen hlim hold, Option.map_some, List.isEmpty_iff, hd,
    if_false, SafeStreamSending.sendChunk, SendingChunkList.register, List.find?_nil, hmove,
    position_sizeMinusOne hd hend, position_value (k := k) (by omega), List.nil_append]
  rfl

theorem sentUpTo_confirm (hd : data ≠ []) (hend : k + data.length < 65535)
    (hw : config.windowSize < 32768) (hlen : data.length ≤ config.windowSize)
    (hold : ∀ a ∈ b.sendActionViews, a.sendingData.stop = k)
    (hsize : b.bufferSize = (b.sendActionViews.map fun a => a.sendingData.data.length).sum)
    (t : TimePoint) :
    SafeStreamSending.confirm config
        { maxDataSize := m
          sendDataBuffer := { b with
            sendActionViews := b.sendActionViews ++ [⟨id, ⟨position k, data⟩, .sending, true⟩]
            bufferSize := b.bufferSize + data.length }
          sendingChunks := [⟨position k, position (k + data.length - 1), 1, t⟩]
          lastConfirmed := position k
          nextToAdd := position (k + data.length)
          lastSentOffset := position (k + data.length) } (position (k + data.length - 1)) =
      sentUpTo (k + data.length) m (confirmedBuffer b id k data) := by
  have hpos := List.length_pos_iff.2 hd
  have hk := position_value (k := k) (by omega)
  have hlast := position_value (k := k + data.length - 1) (by omega)
  generalize ho : position (k + data.length - 1) = o at hlast ⊢
  have hdist : (position k).distance o = data.length - 1 := by
    have := position_distance (k := k) (n := data.length - 1) (by omega)
    rwa [← Nat.add_sub_assoc hpos, ho] at this
  have hzero := RingIndex.distance_self o
  have hnext : o + 1 = position (k + data.length) := by
    rw [← ho, position_add (by omega)]
    congr 1
    omega
  -- the outstanding chunk collapses
  have hchunks : SendingChunkList.removeUpTo config.windowSize
      [⟨position k, o, 1, t⟩] o = [] := by
    have hbefore : OffsetRange.before ⟨position k, o, config.windowSize⟩ o = false := by
      simp [OffsetRange.before]
    have hin : OffsetRange.inRange ⟨position k, o, config.windowSize⟩ o = true := by
      simp only [OffsetRange.inRange, hdist, hzero, Bool.and_eq_true, decide_eq_true_eq]
      omega
    simp [SendingChunkList.removeUpTo, hbefore, hin]
  -- the earlier writes end before the confirmed byte, the new one ends with it
  have hdone : ∀ a ∈ b.sendActionViews,
      (a.sendingData.getOffsetRange config.windowSize).before o = true := by
    intro a ha
    have hs := hold a ha
    have he := a.sendingData.getOffsetRange_end config.windowSize (by omega)
    rw [OffsetRange.before_iff _ _ hw, hlast]
    change _ ∨ _ ∧ _ < _ + (65535 - config.windowSize)
    omega
  have hkeep : (SendingData.getOffsetRange ⟨position k, data⟩ config.windowSize).before o =
      false := by
    have he : (SendingData.getOffsetRange ⟨position k, data⟩ config.windowSize).end_ = o :=
      (position_sizeMinusOne hd hend).trans ho
    simp only [OffsetRange.before, he, hzero, decide_eq_false_iff_not]
    exact Nat.not_lt_zero _
  have hfilter : b.sendActionViews.filter (fun a =>
      (a.sendingData.getOffsetRange config.windowSize).before o) = b.sendActionViews :=
    List.filter_eq_self.2 hdone
  have hnone : b.sendActionViews.filter (fun a =>
      !(a.sendingData.getOffsetRange config.windowSize).before o) = [] := by
    rw [List.filter_eq_nil_iff]
    intro a ha
    simp [hdone a ha]
  rw [SafeStreamSending.confirm, if_pos (by change (position k).distance o ≤ _; omega)]
  simp only [SafeStreamSending.confirmDataChunks, SendDataBuffer.confirm,
    SendDataBuffer.removeWhere, List.filter_append, hfilter, hnone, List.filter_cons, hkeep,
    Bool.not_false, if_true, Bool.false_eq_true, if_false, List.filter_nil, List.append_nil,
    List.nil_append, hchunks, hnext, sentUpTo, confirmedBuffer, ← hsize, Nat.add_sub_cancel_left]

theorem deliveredUpTo_receiveSend (data : DataBuffer) (hw : 0 < config.windowSize) :
    (deliveredUpTo k).receiveSend config (position k) data =
      some { deliveredUpTo k with receivedDataChunks := [⟨position k, data⟩] } := by
  have hzero := RingIndex.distance_self (position k)
  have hin : ¬ config.windowSize ≤ (deliveredUpTo k).lastConfirmedOffset.distance (position k) := by
    change ¬ _ ≤ (position k).distance (position k)
    omega
  rw [SafeStreamReceiving.receiveSend, if_neg hin]
  rfl

theorem deliveredUpTo_update (config : SafeStreamConfig) (hd : data ≠ []) (hend : k + data.length < 65535)
    (hconf : config.sendConfirmTimeout ≤ 0) (hrep : 0 < config.sendRepeatTimeout) :
    ∃ time, SafeStreamReceiving.update config
        { deliveredUpTo k with receivedDataChunks := [⟨position k, data⟩] } 0 =
      (deliveredUpTo (k + data.length),
        ⟨some data, some [.confirm (k + data.length - 1)], false, time⟩) := by
  have hpos := List.length_pos_iff.2 hd
  have hnext : position k + toUint16 data.length = position (k + data.length) := by
    rw [toUint16_of_lt (by omega), position_add hend]
  have hne : position (k + data.length) ≠ position k := by
    intro h
    have := congrArg RingIndex.value h
    rw [position_value hend, position_value (by omega)] at this
    omega
  have hlast : (position (k + data.length) - 1).value = k + data.length - 1 := by
    rw [position_sub_one hend (by omega), position_value (by omega)]
  have hemit : SafeStreamReceiving.emitNonEmpty data = some data := by
    simp [SafeStreamReceiving.emitNonEmpty, hd]
  have hconf' : ¬ (0 : TimePoint) < 0 + config.sendConfirmTimeout := by
    rw [Int.zero_add]
    exact Int.not_lt.2 hconf
  have hrep' : (0 : TimePoint) < 0 + config.sendRepeatTimeout := by
    rw [Int.zero_add]
    exact hrep
  simp only [SafeStreamReceiving.update, SafeStreamReceiving.checkCompletedChains,
    deliveredUpTo, if_neg hconf', SafeStreamReceiving.splitChain, if_true,
    SafeStreamReceiving.joinChunks, List.map_cons, List.map_nil, List.flatten_cons,
    List.flatten_nil, List.append_nil, hnext, if_neg hne, hemit,
    SafeStreamReceiving.checkMissedOffset, if_pos hrep', Bool.false_eq_true, if_false,
    SafeStreamReceiving.makeResponse, List.nil_append, List.isEmpty_cons, Bool.false_and, hlast]
  exact ⟨_, rfl⟩

end RoundTrip

namespace Link

def join (p q : Party) : Link
  | .left => p
  | .right => q

theorem modify_join_left (p q p' : Party) : (join p q).modify .left p' = join p' q := by
  funext side
  cases side <;> rfl

theorem modify_join_right (p q q' : Party) : (join p q).modify .right q' = join p q' := by
  funext side
  cases side <;> rfl

def synced (k maxDataSize : ℕ) (b : SendDataBuffer) (accepted received : List DataBuffer) : Link :=
  join { stream := { sending := sentUpTo k maxDataSize b }, accepted := accepted }
    { stream := { receiving := deliveredUpTo k }, received := received }

def roundTrip (data : DataBuffer) : List LinkEvent :=
  [.write .left data, .updateSending .left 0, .deliver .left, .updateReceiving .right 0,
    .deliver .right]

structure EndsAt (k : ℕ) (b : SendDataBuffer) : Prop where
  stops : ∀ a ∈ b.sendActionViews, a.sendingData.stop = k
  size : b.bufferSize = (b.sendActionViews.map fun a => a.sendingData.data.length).sum

section Run
variable {k m : ℕ} {data : DataBuffer} {b : SendDataBuffer}

theorem EndsAt.confirmedBuffer (hd : data ≠ []) (hend : k + data.length < 65535) (id : ℕ) :
    EndsAt (k + data.length) (confirmedBuffer b id k data) := by
  refine ⟨?_, ?_⟩
  · intro a ha
    rw [List.mem_singleton.1 ha]
    change (position k).value + span data = _
    rw [position_value (by omega), span_of_ne_nil hd]
  · simp [AetherClient.confirmedBuffer]

/-- Without loss a write that fits into a packet, the window and the buffer is delivered
and confirmed, and the two ends are in sync again. -/
theorem run_roundTrip (config : SafeStreamConfig) (accepted received : List DataBuffer)
    (hb : EndsAt k b) (hd : data ≠ []) (hend : k + data.length < 65535)
    (hw : config.windowSize < 32768) (hlen : data.length ≤ config.windowSize)
    (hlim : data.length ≤ m)
    (hwin : (position k).distance (position k + m) ≤ config.windowSize)
    (hcap : b.bufferSize + data.length ≤ config.bufferCapacity)
    (hconf : config.sendConfirmTimeout ≤ 0) (hrep : 0 < config.sendRepeatTimeout) :
    run (step config) (synced k m b accepted received) (roundTrip data) =
      some (synced (k + data.length) m (confirmedBuffer b accepted.length k data)
        (accepted ++ [data]) (received ++ [data])) := by
  have hpos := List.length_pos_iff.2 hd
  obtain ⟨time, hdeliver⟩ := deliveredUpTo_update config hd hend hconf hrep
  have hsend := sentUpTo_sendData (m := m) accepted.length hd hend hcap
  have hupdate := sentUpTo_update accepted.length hd hend hw hlen hlim hwin hb.stops 0
  have hreceive := deliveredUpTo_receiveSend (k := k) data
    (show 0 < config.windowSize by omega)
  have hconfirm := sentUpTo_confirm (m := m) accepted.length hd hend hw hlen hb.stops
    hb.size 0
  have hleft : ∀ p q, join p q .left = p := fun _ _ => rfl
  have hright : ∀ p q, join p q .right = q := fun _ _ => rfl
  have hvalue : (RingIndex.ofVal k : SafeStreamRingIndex) = position k := rfl
  have hvalue' : (RingIndex.ofVal (k + data.length - 1) : SafeStreamRingIndex) =
      position (k + data.length - 1) := rfl
  simp only [roundTrip, run, step, synced, Side.peer, hleft, hright, modify_join_left,
    modify_join_right, SafeStream.onPacket, SafeStream.onMessage, hsend, hupdate, hvalue, hvalue',
    hreceive, hdeliver, hconfirm, Option.bind_some, Option.map_some, Option.toList_some,
    List.map_cons, List.map_nil, List.nil_append]

end Run

def Grows (p p' : Party) : Prop := p.accepted <+: p'.accepted ∧ p.received <+: p'.received

theorem grows_modify {l : Link} {side : Side} {p : Party} (other : Side)
    (ha : (l side).accepted <+: p.accepted) (hr : (l side).received <+: p.received) :
    Grows (l other) (l.modify side p other) := by
  by_cases he : other = side
  · subst he
    rw [modify_self]
    exact ⟨ha, hr⟩
  · rw [modify, if_neg he]
    exact ⟨List.prefix_rfl, List.prefix_rfl⟩

theorem step_grows (config : SafeStreamConfig) {l l' : Link} {e : LinkEvent}
    (h : step config l e = some l') (side : Side) : Grows (l side) (l' side) := by
  have hrefl : ∀ u : Link, Grows (u side) (u side) :=
    fun u => ⟨List.prefix_rfl, List.prefix_rfl⟩
  cases e with
  | write s data =>
    cases hs : (l s).stream.sending.sendData config (l s).accepted.length data with
    | none =>
      simp only [step, hs, Option.some.injEq] at h
      subst h
      exact hrefl l
    | some sent =>
      simp only [step, hs, Option.some.injEq] at h
      subst h
      exact grows_modify side (List.prefix_append _ _) List.prefix_rfl
  | setMaxDataSize s n =>
    cases h
    exact grows_modify side List.prefix_rfl List.prefix_rfl
  | updateSending s t =>
    obtain ⟨res, _, rfl⟩ := Option.map_eq_some_iff.1 h
    exact grows_modify side List.prefix_rfl List.prefix_rfl
  | updateReceiving s t =>
    cases h
    exact grows_modify side List.prefix_rfl (List.prefix_append _ _)
  | updateAction s id =>
    cases h
    exact grows_modify side List.prefix_rfl List.prefix_rfl
  | deliver s =>
    simp only [step] at h
    split at h
    · cases h
      exact hrefl l
    · next packet rest _ =>
      obtain ⟨stream, _, rfl⟩ := Option.map_eq_some_iff.1 h
      have hpop : Grows (l side) (l.modify s { l s with channel := rest } side) :=
        grows_modify side List.prefix_rfl List.prefix_rfl
      have hpeer := grows_modify (l := l.modify s { l s with channel := rest })
        (p := { l s.peer with stream := stream }) side
        (by rw [modify_peer]) (by rw [modify_peer])
      exact ⟨hpop.1.trans hpeer.1, hpop.2.trans hpeer.2⟩
  | lose s i =>
    cases h
    exact grows_modify side List.prefix_rfl List.prefix_rfl

theorem run_grows (config : SafeStreamConfig) {l l' : Link} {events : List LinkEvent}
    (h : run (step config) l events = some l') (side : Side) : Grows (l side) (l' side) := by
  refine run_preserves (I := fun u => Grows (l side) (u side)) (P := fun _ _ => True) ?_
    ⟨List.prefix_rfl, List.prefix_rfl⟩ (Along.of_forall fun _ _ _ => trivial) h
  intro u e u' hu _ hs
  obtain ⟨ha, hr⟩ := step_grows config hs side
  exact ⟨hu.1.trans ha, hu.2.trans hr⟩

def wideConfig : SafeStreamConfig :=
  { testConfig with bufferCapacity := 65535, windowSize := 32767 }

/-- The byte at 65534 is lost, the byte numbered 65535 arrives as number 0, and the
timeout sends both again. -/
def acrossTheWrap : List LinkEvent :=
  [.write .left [3], .updateSending .left 0, .lose .left 0, .write .left [4],
    .updateSending .left 0, .deliver .left, .updateSending .left 60, .deliver .left,
    .updateReceiving .right 60]

def upToTheWrap (a b : DataBuffer) : List LinkEvent :=
  .setMaxDataSize .left 32767 :: (roundTrip a ++ (roundTrip b ++ roundTrip [0]))

def wrapBuffer (a b : DataBuffer) : SendDataBuffer :=
  confirmedBuffer (confirmedBuffer (confirmedBuffer {} 0 0 a) 1 32767 b) 2 65533 [0]

theorem run_upToTheWrap {a b : DataBuffer} (ha : a.length = 32767) (hb : b.length = 32766) :
    run (step wideConfig) init (upToTheWrap a b) =
      some (synced 65534 32767 (wrapBuffer a b) [a, b, [0]] [a, b, [0]]) := by
  have hna : a ≠ [] := List.ne_nil_of_length_pos (by omega)
  have hnb : b ≠ [] := List.ne_nil_of_length_pos (by omega)
  have hstart : step wideConfig init (.setMaxDataSize .left 32767) =
      some (synced 0 32767 {} [] []) := by
    refine congrArg some (funext fun side => ?_)
    cases side <;> rfl
  have hempty : EndsAt 0 {} := by
    refine ⟨?_, rfl⟩
    intro c hc
    cases hc
  have hone : 0 + a.length = 32767 := by omega
  have htwo : 32767 + b.length = 65533 := by omega
  -- each round trip leaves the buffer ready for the next one
  have hb1 := EndsAt.confirmedBuffer (b := {}) hna (show 0 + a.length < 65535 by omega) 0
  have hb2 := EndsAt.confirmedBuffer (b := confirmedBuffer {} 0 0 a) hnb
    (show 32767 + b.length < 65535 by omega) 1
  have h1 := run_roundTrip (m := 32767) wideConfig [] [] hempty hna (by omega) (by decide)
    (by rw [ha]; decide) (by omega) (by decide) (by rw [ha]; decide) (by decide) (by decide)
  rw [hone] at hb1 h1
  have h2 := run_roundTrip (m := 32767) wideConfig [a] [a] hb1 hnb (by omega) (by decide)
    (by rw [hb]; decide) (by omega) (by decide)
    (by change a.length + b.length ≤ 65535; omega) (by decide) (by decide)
  rw [htwo] at hb2 h2
  have h3 := run_roundTrip (m := 32767) wideConfig [a, b] [a, b] hb2
    (show ([0] : DataBuffer) ≠ [] by decide) (by decide) (by decide) (by decide) (by decide) (by decide)
    (by change b.length + 1 ≤ 65535; omega) (by decide) (by decide)
  rw [upToTheWrap, run, hstart, Option.bind_some, run_append, h1, Option.bind_some, run_append]
  exact (congrArg (Option.bind · _) h2).trans h3

theorem wellSized_roundTrip {config : SafeStreamConfig} {data : DataBuffer} (hd : data ≠ [])
    (hlen : data.length ≤ config.windowSize) : ∀ e ∈ roundTrip data, WellSized config e := by
  intro e he
  simp only [roundTrip, List.mem_cons, List.not_mem_nil, or_false] at he
  rcases he with rfl | rfl | rfl | rfl | rfl
  · exact ⟨hd, hlen⟩
  all_goals trivial

theorem wellSized_wrap {a b : DataBuffer} (ha : a.length = 32767) (hb : b.length = 32766) :
    ∀ e ∈ upToTheWrap a b ++ acrossTheWrap, WellSized wideConfig e := by
  have hsize : wideConfig.windowSize = 32767 := rfl
  intro e he
  simp only [upToTheWrap, List.mem_append, List.mem_cons] at he
  rcases he with (rfl | he | he | he) | he
  · trivial
  · exact wellSized_roundTrip (List.ne_nil_of_length_pos (by omega)) (by omega) e he
  · exact wellSized_roundTrip (List.ne_nil_of_length_pos (by omega)) (by omega) e he
  · exact wellSized_roundTrip (by decide) (by decide) e he
  · simp only [acrossTheWrap, List.mem_cons, List.not_mem_nil, or_false] at he
    rcases he with rfl | rfl | rfl | rfl | rfl | rfl | rfl | rfl | rfl
    · exact ⟨by decide, by decide⟩
    · trivial
    · trivial
    · exact ⟨by decide, by decide⟩
    all_goals trivial

end Link
end AetherClient
