import AetherClient.SafeStreamApi
import AetherClient.SafeStreamLink
import Mathlib.Algebra.Order.BigOperators.Group.List

set_option autoImplicit false

namespace AetherClient
open Runs SafeStreamApi

namespace Message

def toApi : Message → ApiMessage
  | .confirm offset => .confirm (.ofNat 16 offset)
  | .requestRepeat offset => .requestRepeat (.ofNat 16 offset)
  | .send offset data => .send (.ofNat 16 offset) (data.map UInt8.toBitVec)
  | .repeat_ repeatCount offset data =>
    .repeat_ (.ofNat 16 repeatCount) (.ofNat 16 offset) (data.map UInt8.toBitVec)

end Message

/-- Each message of a packet is pushed to the builder by itself. -/
def Packet.bytes (lib : StdLibrary) (packet : Packet) : List UInt8 :=
  packetBuilder lib (packet.map fun m => [m.toApi])

structure WrittenPacket where
  bytes : List UInt8
  maxElementSize : ℕ
deriving DecidableEq, Repr

structure LinkedSafeStream where
  stream : SafeStream
  maxElementSize : ℕ
  accepted : ℕ := 0
  written : List WrittenPacket := []
deriving DecidableEq, Repr

inductive LinkedEvent where
  | write (data : DataBuffer)
  | gateUpdate (maxElementSize : ℕ)
  | updateSending (currentTime : TimePoint)
  | updateReceiving (currentTime : TimePoint)
  | updateAction (id : ℕ)
  | receive (packet : Packet)
  | stopWrite (id : ℕ)
  | reportWriteError (offset : ℕ)
  | reportWriteStopped (offset : ℕ)
deriving DecidableEq, Repr

namespace LinkedSafeStream

def linkOut (maxElementSize : ℕ) : LinkedSafeStream where
  stream := { sending := ({} : SafeStreamSending).setMaxDataSize maxElementSize }
  maxElementSize := maxElementSize

def withSending (w : LinkedSafeStream) (s : SafeStreamSending) : LinkedSafeStream :=
  { w with stream := { w.stream with sending := s } }

section Step
variable (lib : StdLibrary) (config : SafeStreamConfig)

def writeOut (w : LinkedSafeStream) (packets : List Packet) : LinkedSafeStream :=
  { w with written := w.written ++ packets.map fun p => ⟨p.bytes lib, w.maxElementSize⟩ }

def step (w : LinkedSafeStream) : LinkedEvent → Option LinkedSafeStream
  | .write data => some <|
    match w.stream.sending.sendData config w.accepted data with
    | none => w
    | some s => { w.withSending s with accepted := w.accepted + 1 }
  | .gateUpdate maxElementSize =>
    some { w.withSending (w.stream.sending.setMaxDataSize maxElementSize) with
      maxElementSize := maxElementSize }
  | .updateSending currentTime => (w.stream.sending.update config currentTime).map fun res =>
    (w.withSending res.1).writeOut lib (res.2.1.toList.map fun m => [m])
  | .updateReceiving currentTime =>
    let res := w.stream.receiving.update config currentTime
    some ({ w with stream := { w.stream with receiving := res.1 } }.writeOut lib
      res.2.response.toList)
  | .updateAction id =>
    some (w.withSending { w.stream.sending with
      sendDataBuffer := (w.stream.sending.sendDataBuffer.updateAction id).1 })
  | .receive packet => (w.stream.onPacket config packet).map fun s => { w with stream := s }
  | .stopWrite id => some (w.withSending (w.stream.sending.stopWrite config id))
  | .reportWriteError offset =>
    some (w.withSending (w.stream.sending.reportWriteError config (.ofVal offset)))
  | .reportWriteStopped offset =>
    some (w.withSending (w.stream.sending.reportWriteStopped config (.ofVal offset)))

end Step

def PacketsFit (w : LinkedSafeStream) : Prop :=
  ∀ p ∈ w.written, p.bytes.length ≤ p.maxElementSize

def sliceBound (s : SafeStreamSending) : ℕ := min s.sendDataBuffer.size s.maxDataSize

/-- More messages than this the next response cannot hold. -/
def responseBound (r : SafeStreamReceiving) : ℕ :=
  r.confirmationQueue.length + 1 + (r.repeatQueue.length + r.receivedDataChunks.length)

/-- When data is sent, the largest possible slice leaves room for a message code, the repeat
count, the offset and the length; when a response is made, all that is queued or can be missing
fits, at three bytes each. -/
def LeavesRoom (w : LinkedSafeStream) : LinkedEvent → Prop
  | .updateSending _ =>
    5 + (PacketSize.serialize (sliceBound w.stream.sending)).length +
      sliceBound w.stream.sending ≤ w.maxElementSize
  | .updateReceiving _ => 3 * responseBound w.stream.receiving ≤ w.maxElementSize
  | _ => True

instance (w : LinkedSafeStream) (e : LinkedEvent) : Decidable (w.LeavesRoom e) :=
  match e with
  | .updateSending _ => inferInstanceAs (Decidable (_ ≤ _))
  | .updateReceiving _ => inferInstanceAs (Decidable (_ ≤ _))
  | .write _ | .gateUpdate _ | .updateAction _ | .receive _ | .stopWrite _
  | .reportWriteError _ | .reportWriteStopped _ => inferInstanceAs (Decidable True)

end LinkedSafeStream

section Sizes
variable (lib : StdLibrary)

theorem length_pack_confirm (offset : BitVec 16) :
    ((ApiMessage.confirm offset).pack lib).length = 3 ∧
      ((ApiMessage.requestRepeat offset).pack lib).length = 3 := ⟨rfl, rfl⟩

theorem length_pack_send (offset : BitVec 16) (data : List (BitVec 8)) :
    ((ApiMessage.send offset data).pack lib).length =
      3 + (PacketSize.serialize data.length).length + data.length := by
  have hpack : (ApiMessage.send offset data).pack lib = 7 :: (LittleEndian.toBytes 2 offset.toNat ++
      encodeElements packedLength (fun b : BitVec 8 => LittleEndian.toBytes 1 b.toNat) data) := rfl
  rw [hpack, List.length_cons, List.length_append, LittleEndian.length_toBytes,
    length_encodeElements fun _ => LittleEndian.length_toBytes 1 _]
  omega

theorem length_pack_repeat (repeatCount offset : BitVec 16) (data : List (BitVec 8)) :
    ((ApiMessage.repeat_ repeatCount offset data).pack lib).length =
      5 + (PacketSize.serialize data.length).length + data.length := by
  have hpack : (ApiMessage.repeat_ repeatCount offset data).pack lib =
      8 :: (LittleEndian.toBytes 2 repeatCount.toNat ++ (LittleEndian.toBytes 2 offset.toNat ++
      encodeElements packedLength (fun b : BitVec 8 => LittleEndian.toBytes 1 b.toNat) data)) := rfl
  rw [hpack, List.length_cons, List.length_append, List.length_append, LittleEndian.length_toBytes,
    LittleEndian.length_toBytes, length_encodeElements fun _ => LittleEndian.length_toBytes 1 _]
  omega

theorem Message.length_pack_le (m : Message) :
    (m.toApi.pack lib).length ≤
      5 + (PacketSize.serialize m.data.length).length + m.data.length := by
  cases m with
  | confirm offset | requestRepeat offset =>
    have hthree := length_pack_confirm lib (.ofNat 16 offset)
    simp only [toApi]
    omega
  | send offset data =>
    simp only [toApi, length_pack_send, List.length_map, Message.data]
    omega
  | repeat_ repeatCount offset data =>
    simp only [toApi, length_pack_repeat, List.length_map, Message.data]
    omega

theorem Packet.length_bytes (packet : Packet) :
    (packet.bytes lib).length = (packet.map fun m => (m.toApi.pack lib).length).sum := by
  rw [Packet.bytes, packetBuilder_eq, List.length_flatMap]
  induction packet with
  | nil => rfl
  | cons m packet ih => simpa using ih

theorem Packet.length_bytes_singleton_le (m : Message) :
    (Packet.bytes lib [m]).length ≤
      5 + (PacketSize.serialize m.data.length).length + m.data.length := by
  rw [Packet.length_bytes, List.map_singleton, List.sum_singleton]
  exact m.length_pack_le lib

end Sizes

namespace SendDataBuffer

theorem sliceFrom_length_le {views views' : List SendingDataAction}
    {current : SafeStreamRingIndex} {remaining : ℕ} {data : DataBuffer}
    (h : sliceFrom views current remaining = some (views', data)) :
    data.length ≤ remaining ∧
      data.length ≤ (views.map fun a => a.sendingData.data.length).sum := by
  induction views generalizing views' current remaining data with
  | nil =>
    simp only [sliceFrom, Option.some.injEq, Prod.mk.injEq] at h
    rw [← h.2]
    exact ⟨Nat.zero_le _, Nat.zero_le _⟩
  | cons a rest ih =>
    simp only [sliceFrom] at h
    rw [List.map_cons, List.sum_cons]
    split_ifs at h with hin hdone
    · simp only [Option.some.injEq, Prod.mk.injEq] at h
      rw [← h.2, List.length_take, List.length_drop]
      omega
    · obtain ⟨tail, ht, he⟩ := Option.map_eq_some_iff.1 h
      simp only [Prod.mk.injEq] at he
      obtain ⟨hrem, hsum⟩ := ih ht
      rw [← he.2, List.length_append, List.length_take, List.length_drop]
      omega

theorem getSlice_length_le {windowSize maxSize : ℕ} {offset : SafeStreamRingIndex}
    {b b' : SendDataBuffer} {chunk : DataChunk}
    (h : b.getSlice windowSize offset maxSize = some (b', chunk)) :
    chunk.data.length ≤ maxSize ∧ chunk.data.length ≤ b.buffered := by
  obtain ⟨slice, hs, he⟩ := Option.map_eq_some_iff.1 h
  obtain ⟨hmax, hsum⟩ := sliceFrom_length_le hs
  rw [← (Prod.mk.inj he).2]
  refine ⟨hmax, Nat.le_trans hsum ?_⟩
  rw [buffered, writes, List.map_map]
  exact List.Sublist.sum_le_sum ((List.dropWhile_sublist _).map _) fun _ _ => Nat.zero_le _

end SendDataBuffer

namespace SafeStreamSending
open SendDataBuffer

structure Bounded (s : SafeStreamSending) : Prop where
  counted : s.sendDataBuffer.Counted
  small : s.maxDataSize < 65536

variable {config : SafeStreamConfig} {s : SafeStreamSending}

theorem Bounded.removeWhere (h : s.Bounded) (chunks : List SendingChunk)
    (p : SendingDataAction → Bool) (mark : SendingDataAction → SendingDataAction) :
    Bounded { s with
      sendingChunks := chunks, sendDataBuffer := s.sendDataBuffer.removeWhere p mark } :=
  ⟨h.counted.removeWhere p mark, h.small⟩

theorem Bounded.confirm (h : s.Bounded) (offset : SafeStreamRingIndex) :
    (s.confirm config offset).Bounded := by
  rcases confirm_cases config s offset with he | he
  · rw [he]
    exact h
  · rw [he]
    exact ⟨h.counted.removeWhere _ _, h.small⟩

theorem Bounded.stopWrite (h : s.Bounded) (id : ℕ) : (s.stopWrite config id).Bounded := by
  rcases stopWrite_cases config s id with he | ⟨o, he⟩
  · rw [he]
    exact h
  · rw [he]
    exact h.removeWhere _ _ _

theorem Bounded.sendData (h : s.Bounded) {id : ℕ} {data : DataBuffer} {s' : SafeStreamSending}
    (hs : s.sendData config id data = some s') : s'.Bounded := by
  rw [sendData_inversion hs]
  exact ⟨h.counted.addData _ _, h.small⟩

theorem Bounded.setMaxDataSize (h : s.Bounded) (maxDataSize : ℕ) :
    (s.setMaxDataSize maxDataSize).Bounded :=
  ⟨h.counted, Nat.mod_lt _ (by decide)⟩

theorem Bounded.update (h : s.Bounded) {t time : TimePoint} {s' : SafeStreamSending}
    {m : Option Message} (hs : s.update config t = some (s', m, time)) :
    s'.Bounded ∧ ∀ msg ∈ m, msg.data.length ≤ min s.sendDataBuffer.size s.maxDataSize := by
  have hcount : ∀ {o b chunk}, SendDataBuffer.getSlice config.windowSize s.sendDataBuffer o
      s.maxDataSize = some (b, chunk) → b.Counted := by
    intro o b chunk hslice
    refine h.counted.of_writes (getSlice_writes hslice) ?_
    obtain ⟨_, _, hb⟩ := Option.map_eq_some_iff.1 hslice
    rw [← (Prod.mk.inj hb).1]
  obtain ⟨o, _, he, _⟩ := handleTimeouts_eq config s t
  have hinv := update_inversion hs
  rw [he] at hinv
  obtain ⟨_, ⟨rfl, b, rfl, hb⟩ | ⟨b, chunk, _, _, hslice, _, _, hsent⟩⟩ := hinv
  · refine ⟨⟨?_, h.small⟩, fun _ hmsg => by cases hmsg⟩
    rcases hb with rfl | ⟨chunk, hslice⟩
    · exact h.counted
    · exact hcount hslice
  · obtain ⟨hmax, hlen⟩ := getSlice_length_le hslice
    rw [← h.counted] at hlen
    obtain ⟨_, _, hsize, _, hb⟩ := sendChunk_spec config
      { s with lastSentOffset := o, sendDataBuffer := b } chunk t
    rw [hsent] at hsize hb
    dsimp only at hb
    have hsmall := h.small
    rcases hb with ⟨hb, msg, hmsg, _, hdata⟩ | ⟨hnone, _, hb⟩
    · refine ⟨⟨by rw [hb]; exact hcount hslice, by rw [hsize]; exact hsmall⟩, ?_⟩
      intro msg' hmsg'
      rw [hmsg] at hmsg'
      cases hmsg'
      rw [hdata]
      exact Nat.le_min.mpr ⟨hlen, hmax⟩
    · refine ⟨⟨by rw [hb]; exact (hcount hslice).removeWhere _ _,
        by rw [hsize]; exact hsmall⟩, ?_⟩
      intro msg' hmsg'
      rw [hnone] at hmsg'
      cases hmsg'

end SafeStreamSending

namespace SafeStreamReceiving
variable (config : SafeStreamConfig)

theorem length_splitChain_le (next : SafeStreamRingIndex) (chunks : List ReceivingChunk) :
    (splitChain next chunks).2.1.length ≤ chunks.length := by
  induction chunks generalizing next with
  | nil => exact Nat.le_refl _
  | cons chunk chunks ih =>
    rw [splitChain]
    split
    · have := ih (chunk.offset + toUint16 chunk.data.length)
      rw [List.length_cons]
      exact Nat.le_succ_of_le this
    · exact Nat.le_refl _

theorem checkCompletedChains_queues (r : SafeStreamReceiving) (t : TimePoint) :
    let r' := (checkCompletedChains config r t).1
    r'.confirmationQueue.length ≤ r.confirmationQueue.length + 1 ∧
      r'.repeatQueue = r.repeatQueue ∧
      r'.receivedDataChunks.length ≤ r.receivedDataChunks.length := by
  have hchain := length_splitChain_le r.lastConfirmedOffset r.receivedDataChunks
  simp only [checkCompletedChains]
  split_ifs
  · exact ⟨Nat.le_succ _, rfl, Nat.le_refl _⟩
  · exact ⟨Nat.le_succ _, rfl, hchain⟩
  · exact ⟨by simp, rfl, hchain⟩

theorem addExpectedChunk_queues (r : SafeStreamReceiving) (offset : SafeStreamRingIndex) :
    (addExpectedChunk config r offset).confirmationQueue = r.confirmationQueue ∧
      (addExpectedChunk config r offset).repeatQueue.length ≤ r.repeatQueue.length + 1 := by
  unfold addExpectedChunk
  split
  · dsimp only
    split_ifs
    · exact ⟨rfl, Nat.le_succ _⟩
    · exact ⟨rfl, by simp [addToRepeatQueue]⟩
  · exact ⟨rfl, by simp [addToRepeatQueue]⟩

theorem requestMissed_queues (chunks : List ReceivingChunk) (r : SafeStreamReceiving)
    (next : SafeStreamRingIndex) :
    (requestMissed config r next chunks).confirmationQueue = r.confirmationQueue ∧
      (requestMissed config r next chunks).repeatQueue.length ≤
        r.repeatQueue.length + chunks.length := by
  induction chunks generalizing r next with
  | nil => exact ⟨rfl, Nat.le_refl _⟩
  | cons chunk chunks ih =>
    rw [requestMissed, List.length_cons]
    split_ifs
    · obtain ⟨hc, hr⟩ := ih r (chunk.offset + toUint16 chunk.data.length)
      exact ⟨hc, by omega⟩
    · obtain ⟨hadd, hlen⟩ := addExpectedChunk_queues config r next
      obtain ⟨hc, hr⟩ := ih (addExpectedChunk config r next)
        (chunk.offset + toUint16 chunk.data.length)
      exact ⟨hc.trans hadd, by omega⟩

theorem checkMissedOffset_queues (r : SafeStreamReceiving) (t : TimePoint) :
    (checkMissedOffset config r t).1.confirmationQueue = r.confirmationQueue ∧
      (checkMissedOffset config r t).1.repeatQueue.length ≤
        r.repeatQueue.length + r.receivedDataChunks.length := by
  unfold checkMissedOffset
  split_ifs
  · exact ⟨rfl, Nat.le_add_right _ _⟩
  · exact requestMissed_queues config r.receivedDataChunks r r.lastConfirmedOffset

end SafeStreamReceiving

theorem length_response_le (lib : StdLibrary) (config : SafeStreamConfig) (r : SafeStreamReceiving)
    (t : TimePoint) {packet : Packet} (h : packet ∈ (r.update config t).2.response) :
    (packet.bytes lib).length ≤ 3 * LinkedSafeStream.responseBound r := by
  obtain ⟨hconf, hrep, hchunks⟩ := r.checkCompletedChains_queues config t
  obtain ⟨hconf', hrep'⟩ := (r.checkCompletedChains config t).1.checkMissedOffset_queues config t
  have hthree : ∀ (l : List SafeStreamRingIndex) (f : ℕ → Message),
      (∀ o, ((f o).toApi.pack lib).length = 3) →
      (((l.map fun o => f o.value).map fun m => (m.toApi.pack lib).length)).sum = 3 * l.length := by
    intro l f hf
    induction l with
    | nil => rfl
    | cons o l ih =>
      rw [List.map_cons, List.map_cons, List.sum_cons, ih, hf, List.length_cons]
      omega
  simp only [SafeStreamReceiving.update] at h
  split_ifs at h
  · cases h
  · simp only [SafeStreamReceiving.makeResponse] at h
    split_ifs at h
    · cases h
    · cases h
      rw [Packet.length_bytes, List.map_append, List.sum_append,
        hthree _ .confirm fun o => (length_pack_confirm lib _).1,
        hthree _ .requestRepeat fun o => (length_pack_confirm lib _).2]
      unfold LinkedSafeStream.responseBound
      rw [hconf']
      rw [hrep] at hrep'
      omega

namespace LinkedSafeStream

structure Inv (w : LinkedSafeStream) : Prop where
  bounded : w.stream.sending.Bounded
  fit : w.PacketsFit

section Steps
variable {lib : StdLibrary} {config : SafeStreamConfig} {w w' : LinkedSafeStream}

theorem Inv.withSending (hw : Inv w) {s : SafeStreamSending} (hs : s.Bounded) :
    Inv (w.withSending s) := ⟨hs, hw.fit⟩

theorem Inv.writeOut (hw : Inv w) {packets : List Packet}
    (h : ∀ p ∈ packets, (p.bytes lib).length ≤ w.maxElementSize) : Inv (w.writeOut lib packets) where
  bounded := hw.bounded
  fit := by
    intro p hp
    obtain hp | hp := List.mem_append.mp hp
    · exact hw.fit p hp
    · obtain ⟨packet, hmem, rfl⟩ := List.mem_map.mp hp
      exact h packet hmem

theorem onMessage_bounded {s s' : SafeStream} {m : Message} (hs : s.sending.Bounded)
    (h : s.onMessage config m = some s') : s'.sending.Bounded := by
  cases m with
  | confirm offset =>
    cases h
    exact hs.confirm _
  | requestRepeat offset =>
    cases h
    exact ⟨hs.counted, hs.small⟩
  | send offset data | repeat_ repeatCount offset data =>
    obtain ⟨_, _, rfl⟩ := Option.map_eq_some_iff.mp h
    exact hs

theorem Inv.updateSending (hw : Inv w) {t : TimePoint} (hroom : w.LeavesRoom (.updateSending t))
    (h : w.step lib config (.updateSending t) = some w') : Inv w' := by
  obtain ⟨⟨s, m, time⟩, hs, rfl⟩ := Option.map_eq_some_iff.mp h
  obtain ⟨hbounded, hmsg⟩ := hw.bounded.update hs
  refine (hw.withSending hbounded).writeOut ?_
  intro packet hp
  obtain ⟨msg, hmem, rfl⟩ := List.mem_map.mp hp
  have hdata := hmsg msg (Option.mem_toList.mp hmem)
  have hsmall : sliceBound w.stream.sending < 1049835 := by
    have hmax := hw.bounded.small
    have hmin : sliceBound w.stream.sending ≤ w.stream.sending.maxDataSize := Nat.min_le_right _ _
    omega
  have hprefix := PacketSize.length_serialize_mono hdata hsmall
  have hlen := Packet.length_bytes_singleton_le lib msg
  calc (Packet.bytes lib [msg]).length
      ≤ 5 + (PacketSize.serialize msg.data.length).length + msg.data.length := hlen
    _ ≤ 5 + (PacketSize.serialize (sliceBound w.stream.sending)).length +
          sliceBound w.stream.sending := Nat.add_le_add (Nat.add_le_add_left hprefix 5) hdata
    _ ≤ w.maxElementSize := hroom

theorem Inv.step (hw : Inv w) {e : LinkedEvent} (hroom : w.LeavesRoom e)
    (h : w.step lib config e = some w') : Inv w' := by
  cases e with
  | write data =>
    simp only [LinkedSafeStream.step] at h
    cases hs : w.stream.sending.sendData config w.accepted data with
    | none =>
      simp only [hs] at h
      cases h
      exact hw
    | some s =>
      simp only [hs] at h
      cases h
      exact ⟨hw.bounded.sendData hs, hw.fit⟩
  | gateUpdate maxElementSize =>
    cases h
    exact ⟨hw.bounded.setMaxDataSize _, hw.fit⟩
  | updateSending t => exact hw.updateSending hroom h
  | updateReceiving t =>
    cases h
    refine Inv.writeOut ?_ ?_
    · exact ⟨hw.bounded, hw.fit⟩
    intro packet hp
    exact Nat.le_trans (length_response_le lib config _ t (Option.mem_toList.mp hp)) hroom
  | updateAction id =>
    cases h
    exact hw.withSending
      ⟨hw.bounded.counted.of_writes (SendDataBuffer.updateAction_writes _ id) rfl, hw.bounded.small⟩
  | receive packet =>
    obtain ⟨s, hs, rfl⟩ := Option.map_eq_some_iff.mp h
    have hbounded : s.sending.Bounded :=
      run_preserves (I := fun s : SafeStream => s.sending.Bounded) (P := fun _ _ => True)
        (fun _ _ _ hs _ h => onMessage_bounded hs h) hw.bounded
        (Along.of_forall fun _ _ _ => trivial) hs
    exact ⟨hbounded, hw.fit⟩
  | stopWrite id =>
    cases h
    exact hw.withSending (hw.bounded.stopWrite id)
  | reportWriteError offset | reportWriteStopped offset =>
    cases h
    exact hw.withSending (hw.bounded.removeWhere _ _ _)

theorem inv_linkOut (maxElementSize : ℕ) : Inv (linkOut maxElementSize) where
  bounded := ⟨rfl, Nat.mod_lt _ (by decide)⟩
  fit := List.forall_mem_nil _

end Steps

/-- Whatever the configuration and the peer, the packets fit as long as there is room. -/
theorem packets_fit (lib : StdLibrary) (config : SafeStreamConfig) (maxElementSize : ℕ)
    (events : List LinkedEvent) (w : LinkedSafeStream)
    (hroom : Along (step lib config) LeavesRoom (linkOut maxElementSize) events)
    (hrun : run (step lib config) (linkOut maxElementSize) events = some w) : w.PacketsFit :=
  (run_preserves (fun _ _ _ hw hroom h => hw.step hroom h) (inv_linkOut maxElementSize) hroom
    hrun).fit

def tenBytes : List LinkedEvent :=
  [.write (List.replicate 10 0), .updateSending 0, .updateReceiving 0]

theorem packets_fit_tenBytes :
    ∃ w, Along (step nanosecondLibrary testConfig) LeavesRoom (linkOut 16) tenBytes ∧
      run (step nanosecondLibrary testConfig) (linkOut 16) tenBytes = some w ∧ w.PacketsFit := by
  have hroom : Along (step nanosecondLibrary testConfig) LeavesRoom (linkOut 16) tenBytes := by
    decide +kernel
  have hsome : (run (step nanosecondLibrary testConfig) (linkOut 16) tenBytes).isSome = true := by
    decide +kernel
  obtain ⟨w, hrun⟩ := Option.isSome_iff_exists.mp hsome
  exact ⟨w, hroom, hrun, packets_fit nanosecondLibrary testConfig 16 tenBytes w hroom hrun⟩

/-- A limit of sixteen bytes, and sixteen bytes to send: the packet has twenty. -/
theorem packet_exceeds_limit : ¬∀ (events : List LinkedEvent) (w : LinkedSafeStream),
    (∀ n, LinkedEvent.gateUpdate n ∈ events → 16 ≤ n) →
    run (step nanosecondLibrary testConfig) (linkOut 16) events = some w → w.PacketsFit := by
  intro h
  let events : List LinkedEvent := [.write (List.replicate 16 0), .updateSending 0]
  have hsizes : (run (step nanosecondLibrary testConfig) (linkOut 16) events).map
      (fun w => w.written.map fun p => (p.bytes.length, p.maxElementSize)) = some [(20, 16)] := by
    decide +kernel
  obtain ⟨w, hrun, hw⟩ := Option.map_eq_some_iff.mp hsizes
  have hfit := h events w (by simp [events]) hrun
  obtain ⟨p, hp, hsize⟩ := List.mem_map.mp (hw ▸ List.mem_singleton.mpr rfl)
  have hle := hfit p hp
  obtain ⟨hlen, hmax⟩ := Prod.mk.inj hsize
  omega

/-- Six late repeats are confirmed in one response, of eighteen bytes. -/
example : (run (step nanosecondLibrary narrowConfig) (linkOut 16)
    [.receive (List.replicate 6 (.repeat_ 1 60000 [0])), .updateReceiving 100]).map
      (fun w => w.written.map fun p => (p.bytes.length, p.maxElementSize)) = some [(18, 16)] := by
  decide +kernel

end LinkedSafeStream
end AetherClient
