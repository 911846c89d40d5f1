import Mathlib.Data.List.Chain
import AetherClient.Pieces
import AetherClient.SafeStreamSending
import AetherClient.SendDataBufferAccounting

set_option autoImplicit false

namespace AetherClient
open Pieces

def span (data : DataBuffer) : ℕ := max data.length 1

def totalSpan (writes : List DataBuffer) : ℕ := (writes.map span).sum

section Span
variable {writes : List DataBuffer} {data : DataBuffer} {i : ℕ}

theorem span_pos (data : DataBuffer) : 0 < span data := by
  unfold span
  omega

theorem length_le_span (data : DataBuffer) : data.length ≤ span data := Nat.le_max_left _ _

theorem span_of_ne_nil (h : data ≠ []) : span data = data.length :=
  Nat.max_eq_left (List.length_pos_iff.2 h)

theorem totalSpan_append (xs ys : List DataBuffer) :
    totalSpan (xs ++ ys) = totalSpan xs + totalSpan ys := by
  simp [totalSpan]

theorem totalSpan_singleton (data : DataBuffer) : totalSpan [data] = span data := by
  simp [totalSpan]

theorem totalSpan_take_succ (h : writes[i]? = some data) :
    totalSpan (writes.take (i + 1)) = totalSpan (writes.take i) + span data := by
  rw [List.take_add_one, h, totalSpan_append]
  exact congrArg _ (totalSpan_singleton data)

theorem totalSpan_take_mono {j : ℕ} (h : i ≤ j) :
    totalSpan (writes.take i) ≤ totalSpan (writes.take j) := by
  obtain ⟨t, ht⟩ : writes.take i <+: writes.take j := List.take_prefix_take_left h
  rw [← ht, totalSpan_append]
  omega

theorem totalSpan_take_le : totalSpan (writes.take i) ≤ totalSpan writes := by
  have h := totalSpan_append (writes.take i) (writes.drop i)
  rw [List.take_append_drop] at h
  omega

theorem totalSpan_eq_length (h : ∀ data ∈ writes, data ≠ []) :
    totalSpan writes = writes.flatten.length := by
  induction writes with
  | nil => rfl
  | cons data writes ih =>
    have hd := span_of_ne_nil (h data List.mem_cons_self)
    have hw := ih fun d hd => h d (List.mem_cons_of_mem _ hd)
    simp only [totalSpan, List.map_cons, List.sum_cons, List.flatten_cons,
      List.length_append] at hw ⊢
    omega

end Span

def SendingData.stop (d : SendingData) : ℕ := d.offset.value + span d.data

theorem SendingData.getOffsetRange_end (d : SendingData) (w : ℕ) (h : d.stop ≤ 65535) :
    (d.getOffsetRange w).end_.value + 1 = d.stop := by
  have hpos := span_pos d.data
  change (d.offset + sizeMinusOne d.data.length).value + 1 = _
  unfold stop at *
  by_cases he : d.data.length = 0
  · -- the empty write's size minus one is 65535, a full turn of the ring
    have hs : span d.data = 1 := by
      unfold span
      omega
    have hz : (d.offset + sizeMinusOne d.data.length).value = d.offset.value := by
      rw [he]
      change (d.offset.clockwise 65535).value = _
      unfold RingIndex.clockwise
      rw [dif_neg (by omega)]
      rfl
    omega
  · have hs : span d.data = d.data.length := Nat.max_eq_left (by omega)
    rw [sizeMinusOne_of_pos (by omega) (by omega), RingIndex.add_value _ _ (by omega) (by omega)]
    omega

namespace SendingData

def Holds (d : SendingData) (i : ℕ) : Prop :=
  d.offset.value ≤ i ∧ i < d.offset.value + d.data.length

instance (d : SendingData) (i : ℕ) : Decidable (d.Holds i) :=
  inferInstanceAs (Decidable (_ ∧ _))

section Ring
variable {w : ℕ} {d : SendingData}

theorem before_iff_positions (hw : w ≤ 65535) (hd : d.stop ≤ 65535)
    (offset : SafeStreamRingIndex) :
    (d.getOffsetRange w).before offset = false ↔
      (offset.value < d.stop ∧ d.stop ≤ offset.value + w + 1) ∨
        d.stop + (65535 - w) ≤ offset.value + 1 := by
  have hend := d.getOffsetRange_end w hd
  have hsize : (d.getOffsetRange w).windowSize = w := rfl
  rw [OffsetRange.before_eq_false_iff_ring _ offset hw, hsize]
  omega

theorem inRange_iff_positions (hw : w ≤ 65535) (hd : d.stop ≤ 65535)
    (offset : SafeStreamRingIndex) :
    (d.getOffsetRange w).inRange offset = true ↔
      ((d.offset.value ≤ offset.value ∧ offset.value ≤ d.offset.value + w) ∨
        offset.value + (65535 - w) ≤ d.offset.value) ∧
      ((offset.value < d.stop ∧ d.stop ≤ offset.value + w + 1) ∨
        d.stop + (65535 - w) ≤ offset.value + 1) := by
  have hend := d.getOffsetRange_end w hd
  have hsize : (d.getOffsetRange w).windowSize = w := rfl
  have hbegin : (d.getOffsetRange w).begin = d.offset := rfl
  rw [OffsetRange.inRange_iff_ring _ offset hw, hsize, hbegin]
  omega

end Ring

end SendingData

namespace SendDataBuffer

def HasByteIn (offset size : ℕ) (a : SendingDataAction) : Prop :=
  ∃ i, i < offset + size ∧ offset ≤ i ∧ a.sendingData.Holds i

instance (offset size : ℕ) (a : SendingDataAction) : Decidable (HasByteIn offset size a) :=
  inferInstanceAs (Decidable (∃ i, i < offset + size ∧ _))

/-- Each buffered write starts where the bytes of the one before it end. -/
def Consecutive (b : SendDataBuffer) : Prop :=
  b.sendActionViews.IsChain fun a c =>
    a.sendingData.offset.value + a.sendingData.data.length = c.sendingData.offset.value

instance (b : SendDataBuffer) : Decidable b.Consecutive :=
  inferInstanceAs (Decidable (List.IsChain _ _))

def bytes (views : List SendingDataAction) : DataBuffer :=
  (views.map fun a => a.sendingData.data).flatten

theorem sliceFrom_cons (a : SendingDataAction) (rest : List SendingDataAction)
    (current : SafeStreamRingIndex) (k remaining : ℕ) (hk : k ≤ a.sendingData.data.length)
    (hcur : current.value = a.sendingData.offset.value + k) :
    sliceFrom (a :: rest) current remaining =
      if remaining ≤ a.sendingData.data.length - k then
        some (a.sending :: rest, (a.sendingData.data.drop k).take remaining)
      else (sliceFrom rest (current.clockwise (toUint16 (a.sendingData.data.length - k)))
          (remaining - (a.sendingData.data.length - k))).map fun tail =>
        (a.sending :: tail.1, a.sendingData.data.drop k ++ tail.2) := by
  have hskip : a.sendingData.offset.distance current = k := by
    rw [RingIndex.distance_of_le (by omega)]
    omega
  rw [sliceFrom, hskip, if_pos hk]
  by_cases h : remaining ≤ a.sendingData.data.length - k
  · rw [Nat.min_eq_right h, if_pos (Nat.sub_self remaining), if_pos h]
  · rw [Nat.min_eq_left (by omega), if_neg (by omega), if_neg h,
      List.take_of_length_le (by rw [List.length_drop])]

def bytesEnd (a : SendingDataAction) : ℕ :=
  a.sendingData.offset.value + a.sendingData.data.length

theorem bytes_cons (a : SendingDataAction) (rest : List SendingDataAction) :
    bytes (a :: rest) = a.sendingData.data ++ bytes rest := rfl

theorem bytes_append (pre rest : List SendingDataAction) :
    bytes (pre ++ rest) = bytes pre ++ bytes rest := by
  simp [bytes]

theorem pairwise_of_chain {views : List SendingDataAction}
    (hc : views.IsChain fun a c => bytesEnd a = c.sendingData.offset.value) :
    views.Pairwise fun a c => bytesEnd a ≤ c.sendingData.offset.value := by
  have htrans : IsTrans SendingDataAction fun a c => bytesEnd a ≤ c.sendingData.offset.value := by
    constructor
    intro a b c hab hbc
    unfold bytesEnd at hab hbc ⊢
    omega
  exact List.isChain_iff_pairwise.1 (hc.imp fun _ _ h => Nat.le_of_eq h)

theorem sliceFrom_marks (a : SendingDataAction) (rest : List SendingDataAction)
    (current : SafeStreamRingIndex) (k remaining : ℕ)
    (hc : (a :: rest).IsChain fun a c => bytesEnd a = c.sendingData.offset.value)
    (hb : ∀ c ∈ a :: rest, bytesEnd c ≤ 65535 ∧ c.sendingData.data.length < 65535)
    (hk : k ≤ a.sendingData.data.length) (hcur : current.value = a.sendingData.offset.value + k)
    (hr : 0 < remaining) :
    sliceFrom (a :: rest) current remaining =
      some ((a :: rest).map fun c =>
          if c.sendingData.offset.value < current.value + remaining then c.sending else c,
        ((bytes (a :: rest)).drop k).take remaining) := by
  induction rest generalizing a current k remaining with
  | nil =>
    have hbytes : bytes [a] = a.sendingData.data := by simp [bytes]
    have hmark : a.sendingData.offset.value < current.value + remaining := by omega
    rw [sliceFrom_cons a [] current k remaining hk hcur, hbytes, List.map_singleton, if_pos hmark]
    split_ifs with hdone
    · rfl
    · rw [List.take_of_length_le (by rw [List.length_drop]; omega)]
      simp only [sliceFrom, Option.map_some, List.append_nil]
  | cons b rest ih =>
    obtain ⟨hab, hrest⟩ := List.isChain_cons_cons.1 hc
    have hlen := hb a List.mem_cons_self
    have hafter : ∀ c ∈ b :: rest, bytesEnd a ≤ c.sendingData.offset.value :=
      (List.pairwise_cons.1 (pairwise_of_chain hc)).1
    have hmark : a.sendingData.offset.value < current.value + remaining := by omega
    unfold bytesEnd at hab hlen hafter
    rw [sliceFrom_cons a (b :: rest) current k remaining hk hcur, bytes_cons,
      List.drop_append_of_le_length hk, List.take_append, List.length_drop, List.map_cons,
      if_pos hmark]
    split_ifs with hdone
    · -- the rest begins at or after the end of the slice
      have hrest : (b :: rest).map (fun c =>
          if c.sendingData.offset.value < current.value + remaining then c.sending else c) =
          b :: rest := by
        refine (List.map_congr_left fun c hc => if_neg ?_).trans (List.map_id _)
        have hge := hafter c hc
        omega
      rw [hrest, Nat.sub_eq_zero_of_le hdone, List.take_zero, List.append_nil]
    · -- the whole rest of `a` is taken, so the loop goes on at the start of `b`
      have hnext : (current.clockwise (toUint16 (a.sendingData.data.length - k))).value =
          b.sendingData.offset.value := by
        rw [toUint16_of_lt (by omega), RingIndex.clockwise_value _ _ (by omega) (by omega)]
        omega
      have hstop : b.sendingData.offset.value + (remaining - (a.sendingData.data.length - k)) =
          current.value + remaining := by omega
      have htake : (a.sendingData.data.drop k).take remaining = a.sendingData.data.drop k :=
        List.take_of_length_le (by rw [List.length_drop]; omega)
      rw [ih b (current.clockwise (toUint16 (a.sendingData.data.length - k))) 0
        (remaining - (a.sendingData.data.length - k)) hrest
        (fun c hc => hb c (List.mem_cons_of_mem _ hc)) (Nat.zero_le _) hnext (by omega),
        hnext, hstop, Option.map_some, List.drop_zero, htake]

/-- What a slice of at most `maxSize` bytes at `offset` is, when a view has the offset in
its range: the bytes of the views from there on. -/
def SliceAt (w : ℕ) (b : SendDataBuffer) (offset : SafeStreamRingIndex) (maxSize : ℕ)
    (data : DataBuffer) : Prop :=
  ∃ pre a rest, b.sendActionViews = pre ++ a :: rest ∧
    (a.sendingData.getOffsetRange w).inRange offset = true ∧
    a.sendingData.offset.value ≤ offset.value ∧ offset.value < a.sendingData.stop ∧
    data = ((bytes (a :: rest)).drop (offset.value - a.sendingData.offset.value)).take maxSize

section Slice
variable {w maxSize : ℕ} {b : SendDataBuffer} {offset : SafeStreamRingIndex}

theorem inRange_view_iff {a : SendingDataAction} (hw : w < 32768)
    (hstop : a.sendingData.stop < 65535) :
    (a.sendingData.getOffsetRange w).inRange offset = true ↔
      a.sendingData.offset.value ≤ offset.value ∧ offset.value < a.sendingData.stop ∧
        offset.value ≤ a.sendingData.offset.value + w ∧
        a.sendingData.stop ≤ offset.value + w + 1 := by
  have hspan := span_pos a.sendingData.data
  have hle : a.sendingData.offset.value + span a.sendingData.data = a.sendingData.stop := rfl
  rw [SendingData.inRange_iff_positions (by omega) hstop.le]
  omega

theorem getSlice_of_outside (h : ∀ a ∈ b.sendActionViews,
      (a.sendingData.getOffsetRange w).inRange offset = false) :
    getSlice w b offset maxSize = some (b, ⟨[], offset⟩) := by
  rcases split_at_first (fun a => (a.sendingData.getOffsetRange w).inRange offset)
      b.sendActionViews with ⟨hd, ht, _⟩ | ⟨pre, a, post, hl, _, _, _, hin⟩
  · simp only [getSlice, hd, ht, sliceFrom, Option.map_some, List.append_nil]
  · have hout := h a (by rw [hl]; exact List.mem_append_right _ List.mem_cons_self)
    rw [hin] at hout
    cases hout

theorem getSlice_of_split {pre post : List SendingDataAction} {a : SendingDataAction}
    (hv : b.sendActionViews = pre ++ a :: post)
    (hpre : ∀ c ∈ pre, (c.sendingData.getOffsetRange w).inRange offset = false)
    (ha : (a.sendingData.getOffsetRange w).inRange offset = true) :
    getSlice w b offset maxSize = (sliceFrom (a :: post) offset maxSize).map fun slice =>
      ({ b with sendActionViews := pre ++ slice.1 }, ⟨slice.2, offset⟩) := by
  have hout : ∀ c ∈ pre, (!(c.sendingData.getOffsetRange w).inRange offset) = true := by
    simpa using hpre
  have hstop : (!(a.sendingData.getOffsetRange w).inRange offset) = false := by
    simpa using ha
  simp only [getSlice, hv, List.dropWhile_append_of_pos hout, List.takeWhile_append_of_pos hout,
    List.dropWhile_cons, List.takeWhile_cons, hstop, Bool.false_eq_true, if_false,
    List.append_nil]

theorem getSlice_spec (offset : SafeStreamRingIndex) (hc : b.Consecutive)
    (hb : ∀ a ∈ b.sendActionViews, a.sendingData.stop < 65535) (hw : w < 32768)
    (hm : 0 < maxSize) :
    ∃ b' data, getSlice w b offset maxSize = some (b', ⟨data, offset⟩) ∧
      b'.writes = b.writes ∧ b'.finished = b.finished ∧
      ((data = [] ∧ ∀ a ∈ b.sendActionViews,
          (a.sendingData.getOffsetRange w).inRange offset = false) ∨
        SliceAt w b offset maxSize data) := by
  rcases split_at_first (fun a => (a.sendingData.getOffsetRange w).inRange offset)
      b.sendActionViews with ⟨_, _, hall⟩ | ⟨pre, a, rest, hl, _, _, hpre, hin⟩
  · exact ⟨b, [], getSlice_of_outside hall, rfl, rfl, Or.inl ⟨rfl, hall⟩⟩
  · have ha : a ∈ b.sendActionViews := by simp [hl]
    obtain ⟨hlo, hhi, _⟩ := (inRange_view_iff hw (hb a ha)).1 hin
    have hk : offset.value - a.sendingData.offset.value ≤ a.sendingData.data.length := by
      unfold SendingData.stop span at hhi
      omega
    unfold Consecutive at hc
    rw [hl] at hc
    have hs := sliceFrom_marks a rest offset
      (offset.value - a.sendingData.offset.value) maxSize hc.right_of_append
      (fun c hc => by
        have := hb c (by rw [hl]; exact List.mem_append_right _ hc)
        have := length_le_span c.sendingData.data
        unfold SendingData.stop at *
        unfold bytesEnd
        omega)
      hk (by omega) hm
    have hslice : getSlice w b offset maxSize = _ := getSlice_of_split hl hpre hin
    rw [hs, Option.map_some] at hslice
    refine ⟨_, _, hslice, ?_, rfl, Or.inr ⟨pre, a, rest, hl, hin, hlo, hhi, rfl⟩⟩
    simp only [writes, hl, List.map_append, sliceFrom_writes hs]

theorem bytes_end_le {bound : ℕ} (a : SendingDataAction) (rest : List SendingDataAction)
    (hc : (a :: rest).IsChain fun a c =>
      a.sendingData.offset.value + a.sendingData.data.length = c.sendingData.offset.value)
    (hb : ∀ c ∈ a :: rest, c.sendingData.stop ≤ bound) :
    a.sendingData.offset.value + (bytes (a :: rest)).length ≤ bound := by
  induction rest generalizing a with
  | nil =>
    have hs := hb a List.mem_cons_self
    have hl := length_le_span a.sendingData.data
    have hbytes : bytes [a] = a.sendingData.data := by simp [bytes]
    unfold SendingData.stop at hs
    rw [hbytes]
    omega
  | cons c rest ih =>
    obtain ⟨hac, hrest⟩ := List.isChain_cons_cons.1 hc
    have hi := ih c hrest fun d hd => hb d (List.mem_cons_of_mem _ hd)
    have hbytes : bytes (a :: c :: rest) = a.sendingData.data ++ bytes (c :: rest) := rfl
    rw [hbytes, List.length_append]
    omega

theorem bytes_isPiece {stream : DataBuffer} (a : SendingDataAction)
    (rest : List SendingDataAction)
    (hc : (a :: rest).IsChain fun a c =>
      a.sendingData.offset.value + a.sendingData.data.length = c.sendingData.offset.value)
    (hp : ∀ c ∈ a :: rest, IsPiece stream c.sendingData.offset.value c.sendingData.data) :
    IsPiece stream a.sendingData.offset.value (bytes (a :: rest)) := by
  induction rest generalizing a with
  | nil =>
    have hbytes : bytes [a] = a.sendingData.data := by simp [bytes]
    rw [hbytes]
    exact hp a List.mem_cons_self
  | cons c rest ih =>
    obtain ⟨hac, hrest⟩ := List.isChain_cons_cons.1 hc
    have hi := ih c hrest fun d hd => hp d (List.mem_cons_of_mem _ hd)
    rw [← hac] at hi
    exact (hp a List.mem_cons_self).append hi

theorem SliceAt.end_le {bound : ℕ} {data : DataBuffer} (h : SliceAt w b offset maxSize data)
    (hc : b.Consecutive) (hb : ∀ a ∈ b.sendActionViews, a.sendingData.stop ≤ bound) :
    offset.value + data.length ≤ bound := by
  obtain ⟨pre, a, rest, hl, _, hlo, hhi, rfl⟩ := h
  unfold Consecutive at hc
  rw [hl] at hc hb
  have hend := bytes_end_le a rest hc.right_of_append
    fun c hc => hb c (List.mem_append_right _ hc)
  have hstop := hb a (by simp)
  rw [List.length_take, List.length_drop]
  omega

theorem SliceAt.isPiece {stream data : DataBuffer} (h : SliceAt w b offset maxSize data)
    (hc : b.Consecutive)
    (hp : ∀ a ∈ b.sendActionViews,
      IsPiece stream a.sendingData.offset.value a.sendingData.data) :
    IsPiece stream offset.value data := by
  obtain ⟨pre, a, rest, hl, _, hlo, _, rfl⟩ := h
  unfold Consecutive at hc
  rw [hl] at hc hp
  have hpiece := bytes_isPiece a rest hc.right_of_append
    fun c hc => hp c (List.mem_append_right _ hc)
  have hcut := (hpiece.drop (n := offset.value - a.sendingData.offset.value)).take (n := maxSize)
  rwa [Nat.add_sub_cancel' hlo] at hcut

end Slice

end SendDataBuffer

namespace SafeStreamSending
open SendDataBuffer

/-- The buffered writes are accepted ones, in order, each at its position, and the next
write goes to the position after all accepted ones. -/
structure Inv (accepted : List DataBuffer) (s : SafeStreamSending) : Prop where
  below : totalSpan accepted < 65535
  next_eq : s.nextToAdd.value = totalSpan accepted
  placed : ∀ d ∈ s.sendDataBuffer.writes, accepted[d.1]? = some d.2.data ∧
    d.2.offset.value = totalSpan (accepted.take d.1)
  ordered : s.sendDataBuffer.writes.Pairwise fun d e => d.1 < e.1

section Invariant
variable {accepted : List DataBuffer} {s s' : SafeStreamSending}

theorem Inv.init : Inv [] {} := by
  refine ⟨by decide, rfl, ?_, List.Pairwise.nil⟩
  intro d hd
  cases hd

theorem Inv.sublist (h : Inv accepted s) (hn : s'.nextToAdd = s.nextToAdd)
    (hw : s'.sendDataBuffer.writes.Sublist s.sendDataBuffer.writes) : Inv accepted s' := by
  refine ⟨h.below, ?_, ?_, h.ordered.sublist hw⟩
  · rw [hn]
    exact h.next_eq
  · intro d hd
    exact h.placed d (hw.subset hd)

theorem mem_writes {a : SendingDataAction} (ha : a ∈ s.sendDataBuffer.sendActionViews) :
    (a.id, a.sendingData) ∈ s.sendDataBuffer.writes :=
  List.mem_map_of_mem ha

theorem Inv.stop_eq (h : Inv accepted s) {d : ℕ × SendingData}
    (hd : d ∈ s.sendDataBuffer.writes) : d.2.stop = totalSpan (accepted.take (d.1 + 1)) := by
  obtain ⟨hacc, hoff⟩ := h.placed d hd
  rw [totalSpan_take_succ hacc, ← hoff]
  rfl

theorem Inv.stop_le (h : Inv accepted s) {d : ℕ × SendingData}
    (hd : d ∈ s.sendDataBuffer.writes) : d.2.stop ≤ s.nextToAdd.value := by
  rw [h.stop_eq hd, h.next_eq]
  exact totalSpan_take_le

theorem Inv.view_stop_lt (h : Inv accepted s) {a : SendingDataAction}
    (ha : a ∈ s.sendDataBuffer.sendActionViews) : a.sendingData.stop < 65535 := by
  have hs := h.stop_le (mem_writes ha)
  have hb := h.below
  have hn := h.next_eq
  dsimp only at hs
  omega

theorem Inv.stop_le_offset (h : Inv accepted s) {d e : ℕ × SendingData}
    (hd : d ∈ s.sendDataBuffer.writes) (he : e ∈ s.sendDataBuffer.writes) (hlt : d.1 < e.1) :
    d.2.stop ≤ e.2.offset.value := by
  rw [h.stop_eq hd, (h.placed e he).2]
  exact totalSpan_take_mono hlt

theorem sendData_inversion {config : SafeStreamConfig} {id : ℕ} {data : DataBuffer}
    (hs : s.sendData config id data = some s') :
    s' = { s with
      nextToAdd := (SendingData.getOffsetRange ⟨s.nextToAdd, data⟩ config.windowSize).end_ + 1
      sendDataBuffer := s.sendDataBuffer.addData id ⟨s.nextToAdd, data⟩ } := by
  unfold sendData at hs
  split_ifs at hs
  exact (Option.some.inj hs).symm

theorem sendData_inv {config : SafeStreamConfig} {data : DataBuffer} (h : Inv accepted s)
    (hs : s.sendData config accepted.length data = some s')
    (hlen : totalSpan accepted + span data < 65535) : Inv (accepted ++ [data]) s' := by
  have hn := h.next_eq
  have htotal : totalSpan (accepted ++ [data]) = totalSpan accepted + span data := by
    rw [totalSpan_append, totalSpan_singleton]
  have hs' := sendData_inversion hs
  subst hs'
  have hend := SendingData.getOffsetRange_end ⟨s.nextToAdd, data⟩ config.windowSize (by
    unfold SendingData.stop
    dsimp only
    omega)
  unfold SendingData.stop at hend
  dsimp only at hend
  refine ⟨by omega, ?_, ?_, ?_⟩
  · rw [RingIndex.add_value _ _ (by decide) (by omega)]
    omega
  · intro d hd
    simp only [writes, addData, List.map_append, List.map_cons, List.map_nil, List.mem_append,
      List.mem_singleton] at hd
    rcases hd with hd | rfl
    · obtain ⟨hacc, hoff⟩ := h.placed d hd
      have hlt : d.1 < accepted.length := (List.getElem?_eq_some_iff.1 hacc).1
      exact ⟨by rw [List.getElem?_append_left hlt, hacc],
        by rw [List.take_append_of_le_length hlt.le, hoff]⟩
    · exact ⟨by simp, by simpa using hn⟩
  · simp only [writes, addData, List.map_append, List.map_cons, List.map_nil]
    refine List.pairwise_append.2 ⟨h.ordered, List.pairwise_singleton _ _, ?_⟩
    intro d hd e he
    obtain ⟨hacc, _⟩ := h.placed d hd
    rw [List.mem_singleton.1 he]
    exact (List.getElem?_eq_some_iff.1 hacc).1

theorem Inv.view_isPiece (h : Inv accepted s) (hne : ∀ data ∈ accepted, data ≠ [])
    {d : ℕ × SendingData} (hd : d ∈ s.sendDataBuffer.writes) :
    IsPiece accepted.flatten d.2.offset.value d.2.data := by
  obtain ⟨hacc, hoff⟩ := h.placed d hd
  obtain ⟨hlt, hget⟩ := List.getElem?_eq_some_iff.1 hacc
  have hsplit : accepted = accepted.take d.1 ++ d.2.data :: accepted.drop (d.1 + 1) := by
    rw [← hget, List.getElem_cons_drop, List.take_append_drop]
  have hpos : d.2.offset.value = (accepted.take d.1).flatten.length := by
    rw [hoff, totalSpan_eq_length]
    intro data hdata
    exact hne data (List.mem_of_mem_take hdata)
  have hflat : accepted.flatten = (accepted.take d.1).flatten ++ d.2.data ++
      (accepted.drop (d.1 + 1)).flatten := by
    conv_lhs => rw [hsplit]
    simp
  rw [hpos, hflat]
  exact isPiece_self _

end Invariant

theorem confirm_cases (config : SafeStreamConfig) (s : SafeStreamSending)
    (offset : SafeStreamRingIndex) :
    s.confirm config offset = s ∨ s.confirm config offset =
      { s.confirmDataChunks config offset with lastConfirmed := offset + 1 } := by
  unfold confirm
  split_ifs
  · exact Or.inr rfl
  · exact Or.inl rfl

theorem stopWrite_cases (config : SafeStreamConfig) (s : SafeStreamSending) (id : ℕ) :
    s.stopWrite config id = s ∨ ∃ offset, s.stopWrite config id = s.stopSending config offset := by
  unfold stopWrite
  split
  · exact Or.inl rfl
  · split_ifs
    · exact Or.inr ⟨_, rfl⟩
    · exact Or.inl rfl

theorem confirm_writes (config : SafeStreamConfig) (s : SafeStreamSending)
    (offset : SafeStreamRingIndex) :
    (s.confirm config offset).nextToAdd = s.nextToAdd ∧
      (s.confirm config offset).sendDataBuffer.writes.Sublist s.sendDataBuffer.writes := by
  rcases confirm_cases config s offset with he | he
  · rw [he]
    exact ⟨rfl, List.Sublist.refl _⟩
  · rw [he]
    exact ⟨rfl, removeWhere_writes _ _ _⟩

section Update
variable {config : SafeStreamConfig} {s : SafeStreamSending}

theorem handleTimeouts_eq (config : SafeStreamConfig) (s : SafeStreamSending) (t : TimePoint) :
    ∃ o time, s.handleTimeouts config t = ({ s with lastSentOffset := o }, time) ∧
      (o = s.lastSentOffset ∨ ∃ sch rest, s.sendingChunks = sch :: rest ∧
        sch.sendTime + config.waitConfirmTimeout < t ∧ o = sch.beginOffset) := by
  unfold handleTimeouts
  split
  · exact ⟨s.lastSentOffset, _, rfl, Or.inl rfl⟩
  · next sch rest he =>
    split_ifs with ht
    · exact ⟨sch.beginOffset, _, rfl, Or.inr ⟨sch, rest, he, ht, rfl⟩⟩
    · exact ⟨s.lastSentOffset, _, rfl, Or.inl rfl⟩

theorem sendChunk_spec (config : SafeStreamConfig) (s : SafeStreamSending) (chunk : DataChunk)
    (t : TimePoint) :
    let res := s.sendChunk config chunk t
    res.1.nextToAdd = s.nextToAdd ∧ res.1.lastConfirmed = s.lastConfirmed ∧
      res.1.maxDataSize = s.maxDataSize ∧
      res.1.lastSentOffset = s.lastSentOffset.clockwise (toUint16 chunk.data.length) ∧
      ((res.1.sendDataBuffer = s.sendDataBuffer ∧
          ∃ m, res.2 = some m ∧ m.start = chunk.offset.value ∧ m.data = chunk.data) ∨
        (res.2 = none ∧ ∃ o, res.1.sendDataBuffer =
          s.sendDataBuffer.reject config.windowSize o)) := by
  simp only [sendChunk]
  split_ifs
  · exact ⟨rfl, rfl, rfl, rfl, Or.inl ⟨rfl, _, rfl, rfl, rfl⟩⟩
  · exact ⟨rfl, rfl, rfl, rfl, Or.inr ⟨rfl, _, rfl⟩⟩
  · exact ⟨rfl, rfl, rfl, rfl, Or.inl ⟨rfl, _, rfl, rfl, rfl⟩⟩

theorem update_inversion {s' : SafeStreamSending} {t time : TimePoint} {m : Option Message}
    (h : s.update config t = some (s', m, time)) :
    let timed := s.handleTimeouts config t
    time = timed.2 ∧
      ((m = none ∧ ∃ b, s' = { timed.1 with sendDataBuffer := b } ∧
          (b = s.sendDataBuffer ∨ ∃ chunk, getSlice config.windowSize s.sendDataBuffer
            timed.1.lastSentOffset s.maxDataSize = some (b, chunk))) ∨
        ∃ b chunk, s.maxDataSize ≠ 0 ∧
          s.lastConfirmed.distance (timed.1.lastSentOffset + s.maxDataSize) ≤ config.windowSize ∧
          getSlice config.windowSize s.sendDataBuffer timed.1.lastSentOffset s.maxDataSize =
            some (b, chunk) ∧
          chunk.data ≠ [] ∧ chunk.offset = timed.1.lastSentOffset ∧
          { timed.1 with sendDataBuffer := b }.sendChunk config chunk t = (s', m)) := by
  obtain ⟨o, time', he, _⟩ := handleTimeouts_eq config s t
  simp only [update, he] at h ⊢
  split_ifs at h with hm
  · obtain ⟨res, hres, heq⟩ := Option.map_eq_some_iff.1 h
    obtain ⟨rfl, rfl, rfl⟩ : res.1 = s' ∧ res.2 = m ∧ time' = time := by simpa using heq
    refine ⟨rfl, ?_⟩
    unfold sendSlice at hres
    split_ifs at hres with hwin
    · cases hres
      exact Or.inl ⟨rfl, _, rfl, Or.inl rfl⟩
    · obtain ⟨⟨b, chunk⟩, hs, rfl⟩ := Option.map_eq_some_iff.1 hres
      dsimp only
      by_cases hd : chunk.data = []
      · rw [if_pos (by simp [hd])]
        exact Or.inl ⟨rfl, b, rfl, Or.inr ⟨chunk, hs⟩⟩
      · rw [if_neg (by simpa using hd)]
        obtain ⟨slice, _, hc⟩ := Option.map_eq_some_iff.1 hs
        exact Or.inr ⟨b, chunk, hm, Nat.not_lt.1 hwin, hs, hd, by rw [← (Prod.mk.inj hc).2], rfl⟩
  · cases h
    exact ⟨rfl, Or.inl ⟨rfl, _, rfl, Or.inl rfl⟩⟩

theorem update_frame {s' : SafeStreamSending} {t time : TimePoint} {m : Option Message}
    (h : s.update config t = some (s', m, time)) :
    s'.nextToAdd = s.nextToAdd ∧ s'.sendDataBuffer.writes.Sublist s.sendDataBuffer.writes := by
  obtain ⟨o, _, he, _⟩ := handleTimeouts_eq config s t
  obtain ⟨_, ⟨_, b, rfl, hb⟩ | ⟨b, chunk, _, _, hs, _, _, hsent⟩⟩ := update_inversion h
  · rw [he]
    refine ⟨rfl, ?_⟩
    rcases hb with rfl | ⟨chunk, hs⟩
    · exact List.Sublist.refl _
    · rw [getSlice_writes hs]
  · obtain ⟨hn, _, _, _, hbuf⟩ := sendChunk_spec config
      { (s.handleTimeouts config t).1 with sendDataBuffer := b } chunk t
    rw [hsent, he] at hn hbuf
    refine ⟨hn, ?_⟩
    rcases hbuf with ⟨hbuf, _⟩ | ⟨_, _, hbuf⟩
    · rw [hbuf, getSlice_writes hs]
    · rw [hbuf, ← getSlice_writes hs]
      exact removeWhere_writes _ _ _

theorem update_cases {accepted : List DataBuffer} (hw : config.windowSize < 32768)
    (h : Inv accepted s) (hc : s.sendDataBuffer.Consecutive) (t : TimePoint) :
    let timed := s.handleTimeouts config t
    ((s.maxDataSize = 0 ∨ config.windowSize <
        s.lastConfirmed.distance (timed.1.lastSentOffset + s.maxDataSize)) ∧
      s.update config t = some (timed.1, none, timed.2)) ∨
    (s.maxDataSize ≠ 0 ∧
      s.lastConfirmed.distance (timed.1.lastSentOffset + s.maxDataSize) ≤ config.windowSize ∧
      ∃ b data, b.writes = s.sendDataBuffer.writes ∧ b.finished = s.sendDataBuffer.finished ∧
        ((data = [] ∧ (∀ a ∈ s.sendDataBuffer.sendActionViews,
            (a.sendingData.getOffsetRange config.windowSize).inRange
              timed.1.lastSentOffset = false) ∨
          SliceAt config.windowSize s.sendDataBuffer timed.1.lastSentOffset s.maxDataSize data)) ∧
        s.update config t = some (
          if data.isEmpty then ({ timed.1 with sendDataBuffer := b }, none, timed.2)
          else
            let res := { timed.1 with sendDataBuffer := b }.sendChunk config
              ⟨data, timed.1.lastSentOffset⟩ t
            (res.1, res.2, timed.2))) := by
  obtain ⟨o, time, he, _⟩ := handleTimeouts_eq config s t
  simp only [update, he]
  by_cases hm : s.maxDataSize = 0
  · left
    exact ⟨Or.inl hm, by rw [if_neg (by simpa using hm)]⟩
  rw [if_pos hm]
  by_cases hwin : config.windowSize < s.lastConfirmed.distance (o + s.maxDataSize)
  · left
    refine ⟨Or.inr hwin, ?_⟩
    simp only [sendSlice, if_pos hwin, Option.map_some]
  · right
    obtain ⟨b, data, hs, hwr, hf, hd⟩ := getSlice_spec o hc
      (fun a ha => h.view_stop_lt ha) hw (Nat.pos_of_ne_zero hm)
    refine ⟨hm, Nat.not_lt.1 hwin, b, data, hwr, hf, hd, ?_⟩
    simp only [sendSlice, if_neg hwin, hs, Option.map_some]
    split_ifs
    · rfl
    · rfl

theorem update_spec {accepted : List DataBuffer} (hw : config.windowSize < 32768)
    (h : Inv accepted s) (hc : s.sendDataBuffer.Consecutive) (t : TimePoint) :
    ∃ s' m time, s.update config t = some (s', m, time) ∧ Inv accepted s' ∧
      (∀ msg, m = some msg → msg.data ≠ [] ∧ ∃ o maxSize, msg.start = o.value ∧
        SliceAt config.windowSize s.sendDataBuffer o maxSize msg.data) ∧
      ∀ a ∈ s'.sendDataBuffer.finished, a ∈ s.sendDataBuffer.finished ∨ a.state = .failed := by
  rcases update_cases hw h hc t with ⟨_, hu⟩ | ⟨_, _, b, data, _, hf, hdata, hu⟩
  · obtain ⟨o, time, he, _⟩ := handleTimeouts_eq config s t
    rw [he] at hu
    refine ⟨_, _, _, hu, h.sublist rfl (List.Sublist.refl _), ?_, fun a ha => Or.inl ha⟩
    rintro msg ⟨⟩
  · obtain ⟨o, time, he, _⟩ := handleTimeouts_eq config s t
    rw [he] at hu hdata
    by_cases hd : data = []
    · rw [if_pos (by simp [hd])] at hu
      obtain ⟨hn, hwr⟩ := update_frame hu
      refine ⟨_, _, _, hu, h.sublist hn hwr, ?_, ?_⟩
      · rintro msg ⟨⟩
      · intro a ha
        change a ∈ b.finished at ha
        rw [hf] at ha
        exact Or.inl ha
    · rw [if_neg (by simpa using hd)] at hu
      obtain ⟨hn, hwr⟩ := update_frame hu
      obtain ⟨_, _, _, _, hmsg⟩ := sendChunk_spec config
        { s with lastSentOffset := o, sendDataBuffer := b } ⟨data, o⟩ t
      refine ⟨_, _, _, hu, h.sublist hn hwr, ?_, ?_⟩
      · intro msg hm
        rcases hmsg with ⟨_, m, he, hstart, hmd⟩ | ⟨he, _⟩
        · rw [he] at hm
          cases hm
          rcases hdata with ⟨hnil, _⟩ | hslice
          · exact absurd hnil hd
          · exact ⟨by rwa [hmd], o, s.maxDataSize, hstart, by rwa [hmd]⟩
        · rw [he] at hm
          cases hm
      · intro a ha
        rcases hmsg with ⟨hb, _⟩ | ⟨_, o', hb⟩
        · rw [hb, hf] at ha
          exact Or.inl ha
        · rw [hb] at ha
          rcases List.mem_append.1 ha with ha | ha
          · rw [hf] at ha
            exact Or.inl ha
          · obtain ⟨c, _, rfl⟩ := List.mem_map.1 ha
            exact Or.inr (set_state c .failed)

end Update
end SafeStreamSending
end AetherClient
