import AetherClient.Pieces
import AetherClient.Runs
import AetherClient.SafeStreamReceiving

set_option autoImplicit false

namespace AetherClient
open Pieces Runs

def ReceivingChunk.stop (chunk : ReceivingChunk) : ℕ := chunk.offset.value + chunk.data.length

theorem ReceivingChunk.next_value (chunk : ReceivingChunk) (h : chunk.stop < 65535) :
    (chunk.offset + toUint16 chunk.data.length).value = chunk.stop := by
  unfold stop at *
  rw [toUint16_of_lt (by omega)]
  exact RingIndex.add_value _ _ (by omega) (by omega)

namespace SafeStreamReceiving

theorem addDataChunk_cases (w : ℕ) (r : SafeStreamReceiving) (chunk : ReceivingChunk) :
    ((∀ ch ∈ r.receivedDataChunks, notBefore w chunk.offset ch = false) ∧
      addDataChunk w r chunk =
        some { r with receivedDataChunks := r.receivedDataChunks ++ [chunk] }) ∨
    ∃ skipped it rest, r.receivedDataChunks = skipped ++ it :: rest ∧
      (∀ ch ∈ skipped, notBefore w chunk.offset ch = false) ∧
      notBefore w chunk.offset it = true ∧
      ((chunk.offset = it.offset ∧ addDataChunk w r chunk = some r) ∨
        (chunk.offset ≠ it.offset ∧ addDataChunk w r chunk =
          (trimTo w chunk it).map fun inserted =>
            { r with
              receivedDataChunks := skipped ++ inserted :: it :: rest
              expectedChunks := r.expectedChunks.eraseP fun ex => ex.offset == chunk.offset })) := by
  rcases split_at_first (notBefore w chunk.offset) r.receivedDataChunks with
    ⟨hd, _, hall⟩ | ⟨skipped, it, rest, hl, ht, hd, hskip, hit⟩
  · left
    refine ⟨hall, ?_⟩
    simp only [addDataChunk, hd]
  · right
    refine ⟨skipped, it, rest, hl, hskip, hit, ?_⟩
    by_cases he : chunk.offset = it.offset
    · left
      refine ⟨he, ?_⟩
      simp only [addDataChunk, hd, if_pos he]
    · right
      refine ⟨he, ?_⟩
      simp only [addDataChunk, hd, ht, if_neg he]

/-- A chunk that ends below the wrap and starts at most a window before `it` is cut
inside its own data, so the cut is defined and leaves a non-empty prefix. -/
theorem trimTo_spec (w : ℕ) (chunk it : ReceivingChunk) (hw : w < 32768)
    (hd : chunk.data ≠ []) (hend : chunk.stop < 65535)
    (hit : notBefore w chunk.offset it = true) (hne : chunk.offset ≠ it.offset) :
    ∃ n, 0 < n ∧ trimTo w chunk it = some ⟨chunk.offset, chunk.data.take n⟩ := by
  have hpos := List.length_pos_iff.2 hd
  have hv : chunk.offset.value ≠ it.offset.value := fun h => hne (RingIndex.ext h)
  have hnear := (RingIndex.distance_le_iff chunk.offset it.offset w (by omega)).1
    (of_decide_eq_true hit)
  have hnext := chunk.next_value hend
  unfold ReceivingChunk.stop at hend hnext
  unfold trimTo
  dsimp only
  split_ifs with hover hin
  · refine ⟨chunk.offset.distance it.offset, ?_, rfl⟩
    rcases Nat.lt_or_ge it.offset.value chunk.offset.value with h | h
    · rw [RingIndex.distance_of_gt h]
      have hfar := (RingIndex.distance_le_iff it.offset _ w (by omega)).1 hover.2
      omega
    · rw [RingIndex.distance_of_le h]
      omega
  · -- the ring test cannot see an overlap when the cut lies past the end of the data
    have hfar := (RingIndex.distance_le_iff it.offset _ w (by omega)).1 hover.2
    rcases Nat.lt_or_ge it.offset.value chunk.offset.value with h | h
    · omega
    · rw [RingIndex.distance_of_le h] at hin
      omega
  · exact ⟨chunk.data.length, hpos, by rw [List.take_length]⟩

def TruePiece (stream : DataBuffer) (chunk : ReceivingChunk) : Prop :=
  chunk.data ≠ [] ∧ IsPiece stream chunk.offset.value chunk.data

theorem TruePiece.end_le {stream : DataBuffer} {chunk : ReceivingChunk}
    (h : TruePiece stream chunk) : chunk.stop ≤ stream.length :=
  h.2.end_le h.1

theorem TruePiece.extend {stream more : DataBuffer} {chunk : ReceivingChunk}
    (h : TruePiece stream chunk) : TruePiece (stream ++ more) chunk :=
  ⟨h.1, h.2.extend h.1⟩

theorem truePiece_ofVal {stream : DataBuffer} {offset : ℕ} {data : DataBuffer}
    (hlen : stream.length < 65535) (h : data ≠ [] ∧ IsPiece stream offset data) :
    (RingIndex.ofVal offset : SafeStreamRingIndex).value = offset ∧
      TruePiece stream ⟨.ofVal offset, data⟩ := by
  have hend := h.2.end_le h.1
  have hv : (RingIndex.ofVal offset : SafeStreamRingIndex).value = offset :=
    RingIndex.ofVal_value offset (by omega)
  refine ⟨hv, h.1, ?_⟩
  rw [hv]
  exact h.2

/-- What the receiver keeps: true pieces, and the delivered bytes are the stream up to
the last confirmed offset. -/
structure Inv (stream : DataBuffer) (r : SafeStreamReceiving) (received : DataBuffer) : Prop where
  pieces : ∀ ch ∈ r.receivedDataChunks, TruePiece stream ch
  confirmed_le : r.lastConfirmedOffset.value ≤ stream.length
  received_eq : received = stream.take r.lastConfirmedOffset.value

theorem Inv.init (stream : DataBuffer) : Inv stream {} [] := by
  refine ⟨?_, ?_, ?_⟩ <;> simp

theorem Inv.received_length {stream received : DataBuffer} {r : SafeStreamReceiving}
    (h : Inv stream r received) : received.length = r.lastConfirmedOffset.value := by
  rw [h.received_eq, List.length_take, Nat.min_eq_left h.confirmed_le]

theorem Inv.extend {stream received : DataBuffer} {r : SafeStreamReceiving}
    (h : Inv stream r received) (more : DataBuffer) : Inv (stream ++ more) r received := by
  refine ⟨fun ch hch => (h.pieces ch hch).extend, ?_, ?_⟩
  · have := h.confirmed_le
    simp only [List.length_append]
    omega
  · rw [List.take_append_of_le_length h.confirmed_le]
    exact h.received_eq

structure SameProgress (r r' : SafeStreamReceiving) : Prop where
  lastConfirmedOffset : r'.lastConfirmedOffset = r.lastConfirmedOffset
  lastSendConfirmTime : r'.lastSendConfirmTime = r.lastSendConfirmTime
  confirmationQueue : r'.confirmationQueue = r.confirmationQueue

theorem SameProgress.refl (r : SafeStreamReceiving) : SameProgress r r := ⟨rfl, rfl, rfl⟩

section Insert
variable {stream : DataBuffer} {w : ℕ} {r : SafeStreamReceiving} {chunk : ReceivingChunk}

theorem addDataChunk_spec (hw : w < 32768) (hlen : stream.length < 65535)
    (hc : TruePiece stream chunk) :
    ∃ r', addDataChunk w r chunk = some r' ∧ SameProgress r r' ∧
      ∀ ch ∈ r'.receivedDataChunks, ch ∈ r.receivedDataChunks ∨
        ∃ n, 0 < n ∧ ch = ⟨chunk.offset, chunk.data.take n⟩ := by
  have hend := hc.end_le
  rcases addDataChunk_cases w r chunk with
    ⟨_, he⟩ | ⟨skipped, it, rest, hsplit, _, hit, ⟨_, he⟩ | ⟨hne, he⟩⟩
  · refine ⟨_, he, ⟨rfl, rfl, rfl⟩, ?_⟩
    intro ch hch
    rcases List.mem_append.1 hch with h | h
    · exact Or.inl h
    · right
      refine ⟨chunk.data.length, List.length_pos_iff.2 hc.1, ?_⟩
      rw [List.mem_singleton.1 h, List.take_length]
  · exact ⟨r, he, .refl r, fun ch hch => Or.inl hch⟩
  · obtain ⟨n, hn, ht⟩ := trimTo_spec w chunk it hw hc.1 (by omega) hit hne
    rw [ht] at he
    refine ⟨_, he, ⟨rfl, rfl, rfl⟩, ?_⟩
    intro ch hch
    rw [hsplit]
    simp only [List.mem_append, List.mem_cons] at hch ⊢
    rcases hch with h | h | h
    · exact Or.inl (Or.inl h)
    · exact Or.inr ⟨n, hn, h⟩
    · exact Or.inl (Or.inr h)

theorem truePiece_take (hc : TruePiece stream chunk) {n : ℕ} (hn : 0 < n) :
    TruePiece stream ⟨chunk.offset, chunk.data.take n⟩ := by
  refine ⟨?_, hc.2.take⟩
  intro h
  rcases List.take_eq_nil_iff.1 h with h | h
  · omega
  · exact hc.1 h

theorem addDataChunk_inv {received : DataBuffer} (hw : w < 32768) (hlen : stream.length < 65535)
    (hc : TruePiece stream chunk) (h : Inv stream r received) :
    ∃ r', addDataChunk w r chunk = some r' ∧ SameProgress r r' ∧ Inv stream r' received := by
  obtain ⟨r', he, hs, hm⟩ := addDataChunk_spec (r := r) hw hlen hc
  refine ⟨r', he, hs, ?_, ?_, ?_⟩
  · intro ch hch
    rcases hm ch hch with hold | ⟨n, hn, rfl⟩
    · exact h.pieces ch hold
    · exact truePiece_take hc hn
  · rw [hs.lastConfirmedOffset]
    exact h.confirmed_le
  · rw [hs.lastConfirmedOffset]
    exact h.received_eq

end Insert

theorem splitChain_spec {stream : DataBuffer} (hlen : stream.length < 65535)
    (chunks : List ReceivingChunk) (next : SafeStreamRingIndex)
    (hnext : next.value ≤ stream.length) (hp : ∀ ch ∈ chunks, TruePiece stream ch) :
    let chain := (splitChain next chunks).1
    let rest := (splitChain next chunks).2.1
    let last := (splitChain next chunks).2.2
    chunks = chain ++ rest ∧ IsPiece stream next.value (joinChunks chain) ∧
      last.value = next.value + (joinChunks chain).length ∧ last.value ≤ stream.length ∧
      ∀ ch, rest.head? = some ch → ch.offset ≠ last := by
  induction chunks generalizing next with
  | nil =>
    refine ⟨rfl, List.nil_prefix, rfl, hnext, ?_⟩
    intro ch hch
    simp [splitChain] at hch
  | cons chunk chunks ih =>
    by_cases he : next = chunk.offset
    · have hc : TruePiece stream chunk := hp chunk List.mem_cons_self
      have hend := hc.end_le
      have hv := chunk.next_value (by omega)
      have hrest := ih (chunk.offset + toUint16 chunk.data.length) (by omega)
        fun ch hch => hp ch (List.mem_cons_of_mem _ hch)
      obtain ⟨hsplit, hpiece, hlast, hle, hhead⟩ := hrest
      simp only [splitChain, if_pos he]
      refine ⟨?_, ?_, ?_, hle, hhead⟩
      · exact congrArg (chunk :: ·) hsplit
      · rw [he]
        rw [hv] at hpiece
        exact hc.2.append hpiece
      · simp only [joinChunks, List.map_cons, List.flatten_cons, List.length_append] at hlast ⊢
        rw [he]
        unfold ReceivingChunk.stop at hv
        omega
    · simp only [splitChain, if_neg he]
      refine ⟨rfl, List.nil_prefix, rfl, hnext, ?_⟩
      rintro ch ⟨⟩
      exact fun h => he h.symm

section Update
variable (config : SafeStreamConfig) {stream received : DataBuffer} {r : SafeStreamReceiving}

theorem emitNonEmpty_getD (data : DataBuffer) : (emitNonEmpty data).getD [] = data := by
  cases data <;> rfl

theorem checkCompletedChains_elapsed (t : TimePoint)
    (ht : r.lastSendConfirmTime + config.sendConfirmTimeout ≤ t) :
    let split := splitChain r.lastConfirmedOffset r.receivedDataChunks
    let res := checkCompletedChains config r t
    res.2.1.getD [] = joinChunks split.1 ∧ res.1.receivedDataChunks = split.2.1 ∧
      res.1.lastConfirmedOffset = split.2.2 ∧
      ((split.2.2 = r.lastConfirmedOffset ∧ res.1.confirmationQueue = r.confirmationQueue) ∨
        (split.2.2 ≠ r.lastConfirmedOffset ∧
          res.1.confirmationQueue = r.confirmationQueue ++ [split.2.2 - 1])) := by
  have hn : ¬ t < r.lastSendConfirmTime + config.sendConfirmTimeout := Int.not_lt.2 ht
  by_cases he : (splitChain r.lastConfirmedOffset r.receivedDataChunks).2.2 = r.lastConfirmedOffset
  · simp only [checkCompletedChains, if_neg hn, if_pos he]
    exact ⟨emitNonEmpty_getD _, trivial, he.symm, Or.inl ⟨he, trivial⟩⟩
  · simp only [checkCompletedChains, if_neg hn, if_neg he]
    exact ⟨emitNonEmpty_getD _, trivial, trivial, Or.inr ⟨he, trivial⟩⟩

theorem checkCompletedChains_waiting (t : TimePoint)
    (ht : t < r.lastSendConfirmTime + config.sendConfirmTimeout) :
    checkCompletedChains config r t =
      (r, none, r.lastSendConfirmTime + config.sendConfirmTimeout) := by
  simp only [checkCompletedChains, if_pos ht]

theorem checkCompletedChains_inv (hlen : stream.length < 65535) (h : Inv stream r received)
    (t : TimePoint) :
    let res := checkCompletedChains config r t
    Inv stream res.1 (received ++ res.2.1.getD []) ∧
      r.lastConfirmedOffset.value ≤ res.1.lastConfirmedOffset.value ∧
      ∀ o ∈ res.1.confirmationQueue, o ∈ r.confirmationQueue ∨
        o.value < res.1.lastConfirmedOffset.value := by
  intro res
  by_cases ht : t < r.lastSendConfirmTime + config.sendConfirmTimeout
  · have he : res = (r, none, _) := checkCompletedChains_waiting config t ht
    rw [he]
    refine ⟨?_, le_refl _, fun o ho => Or.inl ho⟩
    simpa using h
  · obtain ⟨hdata, hchunks, hlast, hqueue⟩ :=
      checkCompletedChains_elapsed config (r := r) t (Int.not_lt.1 ht)
    obtain ⟨hsplit, hpiece, hval, hle, _⟩ :=
      splitChain_spec hlen r.receivedDataChunks r.lastConfirmedOffset h.confirmed_le h.pieces
    change res.2.1.getD [] = _ at hdata
    change res.1.receivedDataChunks = _ at hchunks
    change res.1.lastConfirmedOffset = _ at hlast
    refine ⟨⟨?_, ?_, ?_⟩, ?_, ?_⟩
    · intro ch hch
      apply h.pieces
      rw [hsplit]
      rw [hchunks] at hch
      exact List.mem_append_right _ hch
    · rw [hlast]
      exact hle
    · rw [hdata, hlast, hval, h.received_eq]
      exact hpiece.take_append h.confirmed_le
    · rw [hlast, hval]
      omega
    · intro o ho
      rcases hqueue with ⟨_, hq⟩ | ⟨hne, hq⟩
      · left
        change o ∈ res.1.confirmationQueue at ho
        rwa [show res.1.confirmationQueue = _ from hq] at ho
      · rw [show res.1.confirmationQueue = _ from hq] at ho
        rcases List.mem_append.1 ho with ho | ho
        · exact Or.inl ho
        · right
          rw [List.mem_singleton.1 ho, hlast]
          have hpos : (splitChain r.lastConfirmedOffset r.receivedDataChunks).2.2.value ≠
              r.lastConfirmedOffset.value := fun hv => hne (RingIndex.ext hv)
          rw [RingIndex.sub_value _ _ (by omega) (by omega)]
          omega

theorem addExpectedChunk_frame (r : SafeStreamReceiving) (offset : SafeStreamRingIndex) :
    SameProgress r (addExpectedChunk config r offset) ∧
      (addExpectedChunk config r offset).receivedDataChunks = r.receivedDataChunks := by
  unfold addExpectedChunk
  split
  · dsimp only
    split_ifs <;> exact ⟨⟨rfl, rfl, rfl⟩, rfl⟩
  · exact ⟨⟨rfl, rfl, rfl⟩, rfl⟩

theorem SameProgress.trans {r u v : SafeStreamReceiving} (h : SameProgress r u)
    (h' : SameProgress u v) : SameProgress r v :=
  ⟨h'.1.trans h.1, h'.2.trans h.2, h'.3.trans h.3⟩

theorem requestMissed_frame (chunks : List ReceivingChunk) (r : SafeStreamReceiving)
    (next : SafeStreamRingIndex) :
    SameProgress r (requestMissed config r next chunks) ∧
      (requestMissed config r next chunks).receivedDataChunks = r.receivedDataChunks := by
  induction chunks generalizing r next with
  | nil => exact ⟨.refl r, rfl⟩
  | cons chunk chunks ih =>
    simp only [requestMissed]
    split_ifs with he
    · exact ih r _
    · obtain ⟨hp, hc⟩ := addExpectedChunk_frame config r next
      obtain ⟨hp', hc'⟩ := ih (addExpectedChunk config r next)
        (chunk.offset + toUint16 chunk.data.length)
      exact ⟨hp.trans hp', hc'.trans hc⟩

theorem checkMissedOffset_frame (r : SafeStreamReceiving) (t : TimePoint) :
    SameProgress r (checkMissedOffset config r t).1 ∧
      (checkMissedOffset config r t).1.receivedDataChunks = r.receivedDataChunks := by
  unfold checkMissedOffset
  split_ifs
  · exact ⟨.refl r, rfl⟩
  · obtain ⟨hp, hc⟩ :=
      requestMissed_frame config r.receivedDataChunks r r.lastConfirmedOffset
    exact ⟨⟨hp.1, hp.2, hp.3⟩, hc⟩

theorem update_spec (r : SafeStreamReceiving) (t : TimePoint) :
    let chains := checkCompletedChains config r t
    let res := update config r t
    res.2.received = chains.2.1 ∧
      res.1.receivedDataChunks = chains.1.receivedDataChunks ∧
      res.1.lastConfirmedOffset = chains.1.lastConfirmedOffset ∧
      (∀ o ∈ res.1.confirmationQueue, o ∈ chains.1.confirmationQueue) ∧
      ∀ packet, res.2.response = some packet → ∀ o, .confirm o ∈ packet →
        ∃ index ∈ chains.1.confirmationQueue, index.value = o := by
  intro chains
  obtain ⟨hp, hc⟩ := checkMissedOffset_frame config chains.1 t
  simp only [update]
  split_ifs with he
  · refine ⟨rfl, hc, hp.1, ?_, ?_⟩
    · intro o ho
      rwa [← hp.3]
    · rintro packet ⟨⟩
  · unfold makeResponse
    split_ifs with hq
    · refine ⟨rfl, hc, hp.1, ?_, ?_⟩
      · intro o ho
        rwa [← hp.3]
      · rintro packet ⟨⟩
    · refine ⟨rfl, hc, hp.1, ?_, ?_⟩
      · intro o ho
        cases ho
      · rintro packet ⟨⟩ o ho
        simp only [List.mem_append, List.mem_map, Message.confirm.injEq, reduceCtorEq,
          and_false, exists_false, or_false] at ho
        obtain ⟨index, hi, hv⟩ := ho
        exact ⟨index, by rwa [← hp.3], hv⟩

theorem update_inv (hlen : stream.length < 65535) (h : Inv stream r received) (t : TimePoint) :
    let res := update config r t
    Inv stream res.1 (received ++ res.2.received.getD []) ∧
      r.lastConfirmedOffset.value ≤ res.1.lastConfirmedOffset.value := by
  intro res
  obtain ⟨hrecv, hchunks, hlast, _⟩ := update_spec config r t
  obtain ⟨hinv, hmono, _⟩ := checkCompletedChains_inv config hlen h t
  change res.2.received = _ at hrecv
  change res.1.receivedDataChunks = _ at hchunks
  change res.1.lastConfirmedOffset = _ at hlast
  refine ⟨⟨?_, ?_, ?_⟩, ?_⟩
  · rw [hchunks]
    exact hinv.pieces
  · rw [hlast]
    exact hinv.confirmed_le
  · rw [hlast, hrecv]
    exact hinv.received_eq
  · rw [hlast]
    exact hmono

end Update

section Receive
variable (config : SafeStreamConfig) {stream received : DataBuffer} {r : SafeStreamReceiving}
  {offset : SafeStreamRingIndex} {data : DataBuffer}

theorem receiveSend_inv (hw : config.windowSize < 32768) (hlen : stream.length < 65535)
    (hc : TruePiece stream ⟨offset, data⟩) (h : Inv stream r received) :
    ∃ r', receiveSend config r offset data = some r' ∧ SameProgress r r' ∧
      Inv stream r' received := by
  unfold receiveSend
  split_ifs
  · exact ⟨r, rfl, .refl r, h⟩
  · exact addDataChunk_inv hw hlen hc h

theorem receiveRepeat_inv (count : ℕ) (hw : config.windowSize < 32768)
    (hlen : stream.length < 65535)
    (hc : TruePiece stream ⟨offset, data⟩) (h : Inv stream r received) :
    ∃ r', receiveRepeat config r offset count data = some r' ∧
      r'.lastConfirmedOffset = r.lastConfirmedOffset ∧ Inv stream r' received := by
  unfold receiveRepeat
  split_ifs
  · exact ⟨_, rfl, rfl, h.pieces, h.confirmed_le, h.received_eq⟩
  · obtain ⟨r', he, hs, hi⟩ := addDataChunk_inv hw hlen hc h
    exact ⟨r', he, hs.1, hi⟩

end Receive

def ConfirmsBelow (r : SafeStreamReceiving) : Prop :=
  ∀ o ∈ r.confirmationQueue, o.value < r.lastConfirmedOffset.value

section Confirms
variable {config : SafeStreamConfig} {stream received : DataBuffer} {r r' : SafeStreamReceiving}
  {offset : ℕ} {data : DataBuffer}

theorem ConfirmsBelow.of_sameProgress (h : ConfirmsBelow r) (hs : SameProgress r r') :
    ConfirmsBelow r' := by
  intro o ho
  rw [hs.confirmationQueue] at ho
  rw [hs.lastConfirmedOffset]
  exact h o ho

theorem dropped_confirm_value (hlen : stream.length < 65535)
    (h : data ≠ [] ∧ IsPiece stream offset data) :
    ((.ofVal offset : SafeStreamRingIndex) + sizeMinusOne data.length).value =
      offset + data.length - 1 := by
  have hend := h.2.end_le h.1
  have hpos := List.length_pos_iff.2 h.1
  have hv := (truePiece_ofVal hlen h).1
  rw [sizeMinusOne_of_pos hpos (by omega), RingIndex.add_value _ _ (by omega) (by omega)]
  omega

theorem receiveSend_confirmsBelow (hw : config.windowSize < 32768) (hlen : stream.length < 65535)
    (hp : data ≠ [] ∧ IsPiece stream offset data) (hi : Inv stream r received)
    (h : ConfirmsBelow r) (he : r.receiveSend config (.ofVal offset) data = some r') :
    ConfirmsBelow r' := by
  obtain ⟨u, hu, hs, _⟩ := receiveSend_inv config hw hlen (truePiece_ofVal hlen hp).2 hi
  obtain rfl : u = r' := Option.some.inj (hu.symm.trans he)
  exact h.of_sameProgress hs

theorem receiveRepeat_confirmsBelow (count : ℕ) (hw : config.windowSize < 32768)
    (hlen : stream.length < 65535) (hp : data ≠ [] ∧ IsPiece stream offset data)
    (hi : Inv stream r received) (h : ConfirmsBelow r)
    (hold : config.windowSize ≤ r.lastConfirmedOffset.distance (.ofVal offset) →
      offset + data.length ≤ r.lastConfirmedOffset.value)
    (he : r.receiveRepeat config (.ofVal offset) count data = some r') : ConfirmsBelow r' := by
  unfold receiveRepeat at he
  split_ifs at he with hd
  · cases he
    intro o ho
    rcases List.mem_append.1 ho with ho | ho
    · exact h o ho
    · rw [List.mem_singleton.1 ho, dropped_confirm_value hlen hp]
      have hle := hold hd
      have hpos := List.length_pos_iff.2 hp.1
      change offset + data.length - 1 < r.lastConfirmedOffset.value
      omega
  · obtain ⟨u, hu, hs, _⟩ := addDataChunk_inv hw hlen (truePiece_ofVal hlen hp).2 hi
    obtain rfl : u = r' := Option.some.inj (hu.symm.trans he)
    exact h.of_sameProgress hs

theorem update_confirmsBelow (config : SafeStreamConfig) (hlen : stream.length < 65535)
    (hi : Inv stream r received) (h : ConfirmsBelow r) (t : TimePoint) :
    ConfirmsBelow (update config r t).1 ∧
      ∀ packet, (update config r t).2.response = some packet → ∀ o, .confirm o ∈ packet →
        o < (update config r t).1.lastConfirmedOffset.value := by
  obtain ⟨_, _, hlast, hqueue, hpacket⟩ := update_spec config r t
  obtain ⟨_, hmono, hfresh⟩ := checkCompletedChains_inv config hlen hi t
  -- whatever is queued when the response is built lies below the new offset
  have hbelow : ∀ o ∈ (checkCompletedChains config r t).1.confirmationQueue,
      o.value < (update config r t).1.lastConfirmedOffset.value := by
    intro o ho
    rw [hlast]
    rcases hfresh o ho with hold | hnew
    · exact (h o hold).trans_le hmono
    · exact hnew
  refine ⟨fun o ho => hbelow o (hqueue o ho), ?_⟩
  intro packet hp o ho
  obtain ⟨index, hidx, rfl⟩ := hpacket packet hp o ho
  exact hbelow index hidx

end Confirms

end SafeStreamReceiving
end AetherClient
