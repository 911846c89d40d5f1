import AetherClient.SafeStreamReceivingIntegrity
import AetherClient.SafeStreamSendingIntegrity

set_option autoImplicit false

/-!
# Two connected safe streams

A `SafeStream` owns a sending and a receiving action and routes the messages of
`SafeStreamApi` to them. Two of them are joined by channels that keep the order of the
packets and may lose any of them. Next to its stream a party keeps what its user sees:
the writes that were accepted, the buffers that were handed over, and the results that
the writes' actions reported.
-/
namespace AetherClient
open Pieces Runs

structure SafeStream where
  sending : SafeStreamSending := {}
  receiving : SafeStreamReceiving := {}
deriving DecidableEq, Repr

namespace SafeStream

def onMessage (config : SafeStreamConfig) (s : SafeStream) : Message → Option SafeStream
  | .confirm offset => some { s with sending := s.sending.confirm config (.ofVal offset) }
  | .requestRepeat offset =>
    some { s with sending := s.sending.requestRepeatSend (.ofVal offset) }
  | .send offset data => (s.receiving.receiveSend config (.ofVal offset) data).map fun r =>
    { s with receiving := r }
  | .repeat_ repeatCount offset data =>
    (s.receiving.receiveRepeat config (.ofVal offset) repeatCount data).map fun r =>
      { s with receiving := r }

def onPacket (config : SafeStreamConfig) : SafeStream → Packet → Option SafeStream :=
  run (onMessage config)

end SafeStream

inductive Side where
  | left
  | right
deriving DecidableEq, Repr

def Side.peer : Side → Side
  | .left => .right
  | .right => .left

structure Party where
  stream : SafeStream := {}
  channel : List Packet := []
  accepted : List DataBuffer := []
  received : List DataBuffer := []
  reports : List (ℕ × SendingState) := []
deriving DecidableEq, Repr

abbrev Link := Side → Party

inductive LinkEvent where
  | write (side : Side) (data : DataBuffer)
  | setMaxDataSize (side : Side) (maxDataSize : ℕ)
  | updateSending (side : Side) (currentTime : TimePoint)
  | updateReceiving (side : Side) (currentTime : TimePoint)
  | updateAction (side : Side) (id : ℕ)
  | deliver (side : Side)
  | lose (side : Side) (index : ℕ)
deriving DecidableEq, Repr

namespace Link
section Step
variable (config : SafeStreamConfig)

def init : Link := fun _ => {}

def modify (l : Link) (side : Side) (p : Party) : Link :=
  fun other => if other = side then p else l other

def step (l : Link) : LinkEvent → Option Link
  | .write side data => some <|
    match (l side).stream.sending.sendData config (l side).accepted.length data with
    | none => l
    | some s => l.modify side { l side with
        stream := { (l side).stream with sending := s }
        accepted := (l side).accepted ++ [data] }
  | .setMaxDataSize side maxDataSize => some <| l.modify side { l side with
      stream := { (l side).stream with
        sending := (l side).stream.sending.setMaxDataSize maxDataSize } }
  | .updateSending side currentTime =>
    ((l side).stream.sending.update config currentTime).map fun res =>
      l.modify side { l side with
        stream := { (l side).stream with sending := res.1 }
        channel := (l side).channel ++ res.2.1.toList.map fun m => [m] }
  | .updateReceiving side currentTime =>
    let res := (l side).stream.receiving.update config currentTime
    some <| l.modify side { l side with
      stream := { (l side).stream with receiving := res.1 }
      channel := (l side).channel ++ res.2.response.toList
      received := (l side).received ++ res.2.received.toList }
  | .updateAction side id =>
    let res := (l side).stream.sending.sendDataBuffer.updateAction id
    some <| l.modify side { l side with
      stream := { (l side).stream with
        sending := { (l side).stream.sending with sendDataBuffer := res.1 } }
      reports := (l side).reports ++ res.2 }
  | .deliver side =>
    match (l side).channel with
    | [] => some l
    | packet :: rest =>
      let popped := l.modify side { l side with channel := rest }
      ((l side.peer).stream.onPacket config packet).map fun s =>
        popped.modify side.peer { l side.peer with stream := s }
  | .lose side index => some <| l.modify side { l side with
      channel := (l side).channel.eraseIdx index }

end Step
end Link

def Message.IsPieceOf (stream : DataBuffer) : Message → Prop
  | .send offset data => data ≠ [] ∧ IsPiece stream offset data
  | .repeat_ _ offset data => data ≠ [] ∧ IsPiece stream offset data
  | .confirm _ => True
  | .requestRepeat _ => True

namespace Message
variable {stream more : DataBuffer} {m : Message}

theorem isPieceOf_of_data (hd : m.data ≠ []) (h : IsPiece stream m.start m.data) :
    m.IsPieceOf stream := by
  cases m with
  | send offset data => exact ⟨hd, h⟩
  | repeat_ n offset data => exact ⟨hd, h⟩
  | confirm o => trivial
  | requestRepeat o => trivial

theorem IsPieceOf.extend (h : m.IsPieceOf stream) : m.IsPieceOf (stream ++ more) := by
  cases m with
  | send offset data => exact ⟨h.1, h.2.extend h.1⟩
  | repeat_ n offset data => exact ⟨h.1, h.2.extend h.1⟩
  | confirm o => trivial
  | requestRepeat o => trivial

end Message

/-- Data flows from `p` to `q`: the sender's buffer, every packet on its way and the
receiver agree with the accepted writes. -/
structure Flow (p q : Party) : Prop where
  sender : SafeStreamSending.Inv p.accepted p.stream.sending
  nonempty : ∀ data ∈ p.accepted, data ≠ []
  inFlight : ∀ packet ∈ p.channel, ∀ m ∈ packet, m.IsPieceOf p.accepted.flatten
  receiver : SafeStreamReceiving.Inv p.accepted.flatten q.stream.receiving q.received.flatten

namespace Flow
variable {config : SafeStreamConfig} {p q : Party}

theorem length_eq (h : Flow p q) : totalSpan p.accepted = p.accepted.flatten.length :=
  totalSpan_eq_length h.nonempty

theorem stream_lt (h : Flow p q) : p.accepted.flatten.length < 65535 := by
  rw [← h.length_eq]
  exact h.sender.below

theorem congr {p' q' : Party} (h : Flow p q) (ha : p'.accepted = p.accepted)
    (hs : p'.stream.sending = p.stream.sending) (hc : p'.channel = p.channel)
    (hr : q'.stream.receiving = q.stream.receiving) (hd : q'.received = q.received) :
    Flow p' q' := by
  refine ⟨?_, ?_, ?_, ?_⟩
  · rw [ha, hs]
    exact h.sender
  · rw [ha]
    exact h.nonempty
  · rw [ha, hc]
    exact h.inFlight
  · rw [ha, hr, hd]
    exact h.receiver

theorem write {s : SafeStreamSending} {data : DataBuffer} (h : Flow p q)
    (hs : p.stream.sending.sendData config p.accepted.length data = some s) (hd : data ≠ [])
    (hlen : p.accepted.flatten.length + data.length < 65535) :
    Flow { p with
      stream := { p.stream with sending := s }, accepted := p.accepted ++ [data] } q := by
  have hspan := span_of_ne_nil hd
  have htotal := h.length_eq
  have hflat : (p.accepted ++ [data]).flatten = p.accepted.flatten ++ data := by simp
  refine ⟨SafeStreamSending.sendData_inv h.sender hs (by omega), ?_, ?_, ?_⟩
  · intro d hd'
    rcases List.mem_append.1 hd' with hd' | hd'
    · exact h.nonempty d hd'
    · rwa [List.mem_singleton.1 hd']
  · intro packet hp m hm
    dsimp only
    rw [hflat]
    exact (h.inFlight packet hp m hm).extend
  · dsimp only
    rw [hflat]
    exact h.receiver.extend data

theorem send {s : SafeStreamSending} {packets : List Packet} (h : Flow p q)
    (hs : SafeStreamSending.Inv p.accepted s)
    (hp : ∀ packet ∈ packets, ∀ m ∈ packet, m.IsPieceOf p.accepted.flatten) :
    Flow { p with
      stream := { p.stream with sending := s }, channel := p.channel ++ packets } q := by
  refine ⟨hs, h.nonempty, ?_, h.receiver⟩
  intro packet hpk
  rcases List.mem_append.1 hpk with hpk | hpk
  · exact h.inFlight packet hpk
  · exact hp packet hpk

theorem update (t : TimePoint) (hw : config.windowSize < 32768) (h : Flow p q)
    (hc : p.stream.sending.sendDataBuffer.Consecutive) :
    ∃ s m time, p.stream.sending.update config t = some (s, m, time) ∧
      SafeStreamSending.Inv p.accepted s ∧
      (∀ msg, m = some msg → msg.IsPieceOf p.accepted.flatten ∧ ∀ o, msg ≠ .confirm o) ∧
      ∀ a ∈ s.sendDataBuffer.finished,
        a ∈ p.stream.sending.sendDataBuffer.finished ∨ a.state = .failed := by
  obtain ⟨s, m, time, hu, hi, hm, hf⟩ := SafeStreamSending.update_spec hw h.sender hc t
  refine ⟨s, m, time, hu, hi, ?_, hf⟩
  intro msg hmsg
  obtain ⟨hd, o, maxSize, hstart, hslice⟩ := hm msg hmsg
  refine ⟨Message.isPieceOf_of_data hd ?_, ?_⟩
  · rw [hstart]
    exact hslice.isPiece hc fun a ha =>
      h.sender.view_isPiece h.nonempty (SafeStreamSending.mem_writes ha)
  · rintro o rfl
    exact hd rfl

end Flow

namespace Link

def Both (R : Party → Party → Prop) (l : Link) : Prop := ∀ side, R (l side) (l side.peer)

theorem peer_peer (side : Side) : side.peer.peer = side := by
  cases side <;> rfl

theorem peer_ne (side : Side) : side.peer ≠ side := by
  cases side <;> exact nofun

theorem modify_self (l : Link) (side : Side) (p : Party) : l.modify side p side = p :=
  if_pos rfl

theorem modify_peer (l : Link) (side : Side) (p : Party) :
    l.modify side p side.peer = l side.peer :=
  if_neg (peer_ne side)

theorem Both.modify {R : Party → Party → Prop} {l : Link} {side : Side} {p : Party}
    (hout : R p (l side.peer)) (hin : R (l side.peer) p) : Both R (l.modify side p) := by
  intro other
  by_cases h : other = side
  · subst h
    rwa [modify_self, modify_peer]
  · obtain rfl : other = side.peer := by
      cases other <;> cases side <;> first | rfl | exact absurd rfl h
    rwa [peer_peer, modify_self, modify_peer]

theorem Both.of_modify {R : Party → Party → Prop} {l : Link} {side : Side} {p : Party}
    (h : Both R (l.modify side p)) : R p (l side.peer) ∧ R (l side.peer) p := by
  have hout := h side
  have hin := h side.peer
  rw [modify_self, modify_peer] at hout
  rw [peer_peer, modify_self, modify_peer] at hin
  exact ⟨hout, hin⟩

theorem Both.out {R : Party → Party → Prop} {l : Link} (h : Both R l) (side : Side) :
    R (l side) (l side.peer) := h side

theorem Both.into {R : Party → Party → Prop} {l : Link} (h : Both R l) (side : Side) :
    R (l side.peer) (l side) := by
  have := h side.peer
  rwa [peer_peer] at this

section Integrity
variable {config : SafeStreamConfig}

theorem onMessage_inv {stream received : DataBuffer} {accepted : List DataBuffer}
    (hw : config.windowSize < 32768) (hlen : stream.length < 65535) (s : SafeStream)
    (m : Message)
    (h : SafeStreamReceiving.Inv stream s.receiving received ∧
      SafeStreamSending.Inv accepted s.sending) (hm : m.IsPieceOf stream) :
    ∃ s', s.onMessage config m = some s' ∧
      SafeStreamReceiving.Inv stream s'.receiving received ∧
      SafeStreamSending.Inv accepted s'.sending := by
  obtain ⟨hr, hs⟩ := h
  cases m with
  | confirm o =>
    obtain ⟨hn, hwr⟩ := SafeStreamSending.confirm_writes config s.sending (.ofVal o)
    exact ⟨_, rfl, hr, hs.sublist hn hwr⟩
  | requestRepeat o => exact ⟨_, rfl, hr, hs.sublist rfl (List.Sublist.refl _)⟩
  | send offset data =>
    obtain ⟨_, hc⟩ := SafeStreamReceiving.truePiece_ofVal hlen hm
    obtain ⟨r, he, _, hi⟩ := SafeStreamReceiving.receiveSend_inv config hw hlen hc hr
    simp only [SafeStream.onMessage, he, Option.map_some]
    exact ⟨_, rfl, hi, hs⟩
  | repeat_ n offset data =>
    obtain ⟨_, hc⟩ := SafeStreamReceiving.truePiece_ofVal hlen hm
    obtain ⟨r, he, _, hi⟩ := SafeStreamReceiving.receiveRepeat_inv config n hw hlen hc hr
    simp only [SafeStream.onMessage, he, Option.map_some]
    exact ⟨_, rfl, hi, hs⟩

theorem onPacket_inv {stream received : DataBuffer} {accepted : List DataBuffer}
    (hw : config.windowSize < 32768) (hlen : stream.length < 65535) {s : SafeStream}
    {packet : Packet} (hr : SafeStreamReceiving.Inv stream s.receiving received)
    (hs : SafeStreamSending.Inv accepted s.sending) (hp : ∀ m ∈ packet, m.IsPieceOf stream) :
    ∃ s', s.onPacket config packet = some s' ∧
      SafeStreamReceiving.Inv stream s'.receiving received ∧
      SafeStreamSending.Inv accepted s'.sending :=
  run_invariant (onMessage_inv hw hlen) ⟨hr, hs⟩ (Along.of_forall fun m hm _ => hp m hm)

theorem response_isPieceOf (config : SafeStreamConfig) (r : SafeStreamReceiving) (t : TimePoint)
    (stream : DataBuffer) {packet : Packet} (h : (r.update config t).2.response = some packet) :
    ∀ m ∈ packet, m.IsPieceOf stream := by
  simp only [SafeStreamReceiving.update] at h
  split_ifs at h
  unfold SafeStreamReceiving.makeResponse at h
  split_ifs at h
  cases h
  intro m hm
  rcases List.mem_append.1 hm with hm | hm
  · obtain ⟨o, _, rfl⟩ := List.mem_map.1 hm
    trivial
  · obtain ⟨o, _, rfl⟩ := List.mem_map.1 hm
    trivial

def WellSized (config : SafeStreamConfig) : LinkEvent → Prop
  | .write _ data => data ≠ [] ∧ data.length ≤ config.windowSize
  | _ => True

instance (config : SafeStreamConfig) : DecidablePred (WellSized config)
  | .write _ data => inferInstanceAs (Decidable (data ≠ [] ∧ data.length ≤ config.windowSize))
  | .setMaxDataSize _ _ | .updateSending _ _ | .updateReceiving _ _ | .updateAction _ _
  | .deliver _ | .lose _ _ => inferInstanceAs (Decidable True)

/-- Non-empty writes, a stream below the wrap, and no sender update that meets a gap
between two buffered writes. -/
def MeetsNoGap (l : Link) : LinkEvent → Prop
  | .write side data => data ≠ [] ∧ (l side).accepted.flatten.length + data.length < 65535
  | .updateSending side _ => (l side).stream.sending.sendDataBuffer.Consecutive
  | _ => True

instance (l : Link) : DecidablePred (MeetsNoGap l)
  | .write side data => inferInstanceAs (Decidable
      (data ≠ [] ∧ (l side).accepted.flatten.length + data.length < 65535))
  | .updateSending side _ =>
    inferInstanceAs (Decidable (l side).stream.sending.sendDataBuffer.Consecutive)
  | .setMaxDataSize _ _ | .updateReceiving _ _ | .updateAction _ _ | .deliver _
  | .lose _ _ => inferInstanceAs (Decidable True)

theorem init_both_flow : Both Flow init := by
  intro side
  refine ⟨SafeStreamSending.Inv.init, ?_, ?_, SafeStreamReceiving.Inv.init _⟩
  · intro data hd
    cases hd
  · intro packet hp
    cases hp

theorem step_both_flow (hw : config.windowSize < 32768) (l : Link) (e : LinkEvent)
    (h : Both Flow l) (he : MeetsNoGap l e) :
    ∃ l', step config l e = some l' ∧ Both Flow l' := by
  cases e with
  | write side data =>
    refine ⟨_, rfl, ?_⟩
    split
    · exact h
    · next s hs =>
      exact Both.modify ((h.out side).write hs he.1 he.2)
        ((h.into side).congr rfl rfl rfl rfl rfl)
  | setMaxDataSize side n =>
    refine ⟨_, rfl, Both.modify ?_ ((h.into side).congr rfl rfl rfl rfl rfl)⟩
    have hf := h.out side
    exact ⟨hf.sender.sublist rfl (List.Sublist.refl _), hf.nonempty, hf.inFlight, hf.receiver⟩
  | updateSending side t =>
    obtain ⟨s, m, time, hu, hi, hm, _⟩ := (h.out side).update t hw he
    simp only [step, hu, Option.map_some]
    refine ⟨_, rfl, Both.modify ((h.out side).send hi ?_)
      ((h.into side).congr rfl rfl rfl rfl rfl)⟩
    intro packet hp msg hmsg
    obtain ⟨m', hm', rfl⟩ := List.mem_map.1 hp
    rw [List.mem_singleton.1 hmsg]
    exact (hm m' (Option.mem_toList.1 hm')).1
  | updateReceiving side t =>
    refine ⟨_, rfl, Both.modify ?_ ?_⟩
    · have hf := h.out side
      refine ⟨hf.sender, hf.nonempty, ?_, hf.receiver⟩
      intro packet hp
      rcases List.mem_append.1 hp with hp | hp
      · exact hf.inFlight packet hp
      · exact response_isPieceOf config _ t _ (Option.mem_toList.1 hp)
    · have hf := h.into side
      obtain ⟨hi, _⟩ := SafeStreamReceiving.update_inv config hf.stream_lt hf.receiver t
      refine ⟨hf.sender, hf.nonempty, hf.inFlight, ?_⟩
      dsimp only
      rw [List.flatten_append]
      cases hr : ((l side).stream.receiving.update config t).2.received with
      | none => simpa [hr] using hi
      | some data => simpa [hr] using hi
  | updateAction side id =>
    refine ⟨_, rfl, Both.modify ?_ ((h.into side).congr rfl rfl rfl rfl rfl)⟩
    have hf := h.out side
    refine ⟨hf.sender.sublist rfl ?_, hf.nonempty, hf.inFlight, hf.receiver⟩
    dsimp only
    rw [SendDataBuffer.updateAction_writes]
  | deliver side =>
    simp only [step]
    split
    · exact ⟨l, rfl, h⟩
    · next packet rest hch =>
      have hf := h.out side
      obtain ⟨s, hs, hr, hsend⟩ := onPacket_inv hw hf.stream_lt hf.receiver
        (h.into side).sender (hf.inFlight packet (by simp [hch]))
      rw [hs, Option.map_some]
      refine ⟨_, rfl, Both.modify ?_ ?_⟩
      · rw [peer_peer, modify_self]
        have hi := h.into side
        exact ⟨hsend, hi.nonempty, hi.inFlight, hi.receiver⟩
      · rw [peer_peer, modify_self]
        refine ⟨hf.sender, hf.nonempty, ?_, hr⟩
        intro p hp
        exact hf.inFlight p (by rw [hch]; exact List.mem_cons_of_mem _ hp)
  | lose side i =>
    refine ⟨_, rfl, Both.modify ?_ ((h.into side).congr rfl rfl rfl rfl rfl)⟩
    have hf := h.out side
    refine ⟨hf.sender, hf.nonempty, ?_, hf.receiver⟩
    intro packet hp
    exact hf.inFlight packet (List.mem_of_mem_eraseIdx hp)

end Integrity
end Link
end AetherClient
