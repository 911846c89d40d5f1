import AetherClient.DataPacketCollector
import AetherClient.Runs
import Mathlib.Tactic.IntervalCases

set_option autoImplicit false

namespace AetherClient.StreamDataPacketCollector

section Steps
variable {alloc : ℕ → Bool} {c c' : StreamDataPacketCollector}

theorem Consistent.addByte (hc : Consistent c) {b : UInt8} {stop : Bool}
    (h : addByte alloc c b = some (c', stop)) : Consistent c' := by
  unfold StreamDataPacketCollector.addByte at h
  split at h
  · next hbetween =>
    split at h
    · next hnone =>
      cases h
      exact ⟨hnone, fun hbody => absurd hbetween (by simp [show c.betweenPackets = false from hbody]),
        hc.room⟩
    · cases h
      exact ⟨extract_nil, fun _ => rfl, hc.room⟩
    · cases h
      exact consistent_concat _ (capacity_ofSize_le alloc _)
  · next hbody =>
    split at h
    · cases h
    · next p hlast =>
      split at h
      · cases h
      · cases h
        rw [hc.inBody (by simpa using hbody)]
        exact consistent_concat _ (hc.room p hlast)

theorem addByte_stop {b : UInt8} (h : addByte alloc c b = some (c', true)) :
    c'.betweenPackets = true ∧ c'.tempDataBuffer = [] := by
  unfold addByte at h
  split at h
  · next hbetween =>
    split at h
    · cases h
    · cases h
      exact ⟨hbetween, rfl⟩
    · cases h
  · split at h
    · cases h
    · split at h <;> cases h

theorem length_packets_addByte {b : UInt8} {stop : Bool} (h : addByte alloc c b = some (c', stop)) :
    c.packets.length ≤ c'.packets.length := by
  unfold addByte at h
  split at h
  · split at h <;> cases h <;> simp
  · split at h
    · cases h
    · split at h
      · cases h
      · cases h
        simp only [List.length_append, List.length_dropLast, List.length_singleton]
        omega

theorem feed_induct {motive : StreamDataPacketCollector → Prop}
    (step : ∀ {c b c' stop}, motive c → addByte alloc c b = some (c', stop) → motive c')
    {data : List UInt8} {stop : Bool} (hc : motive c) (h : feed alloc c data = some (c', stop)) :
    motive c' := by
  induction data generalizing c with
  | nil =>
    cases h
    exact hc
  | cons b data ih =>
    rw [feed] at h
    split at h
    · cases h
    · next hbyte =>
      cases h
      exact step hc hbyte
    · next hbyte => exact ih (step hc hbyte) h

theorem Consistent.feed (hc : Consistent c) {data : List UInt8} {stop : Bool}
    (h : feed alloc c data = some (c', stop)) : Consistent c' :=
  feed_induct (fun hc hbyte => hc.addByte hbyte) hc h

theorem length_packets_feed {data : List UInt8} {stop : Bool}
    (h : feed alloc c data = some (c', stop)) : c.packets.length ≤ c'.packets.length :=
  feed_induct (motive := fun d => c.packets.length ≤ d.packets.length)
    (fun hle hbyte => Nat.le_trans hle (length_packets_addByte hbyte)) (Nat.le_refl _) h

theorem feed_stop {data : List UInt8} (h : feed alloc c data = some (c', true)) :
    c'.betweenPackets = true ∧ c'.tempDataBuffer = [] := by
  induction data generalizing c with
  | nil => cases h
  | cons b data ih =>
    rw [feed] at h
    split at h
    · cases h
    · next hbyte =>
      cases h
      exact addByte_stop hbyte
    · exact ih h

end Steps

section Dropped
variable (alloc : ℕ → Bool)

def dropped : StreamDataPacketCollector → List UInt8 → List UInt8
  | _, [] => []
  | c, b :: data =>
    match addByte alloc c b with
    | none => []
    | some (_, true) => data
    | some (c, false) => dropped c data

theorem dropped_append (c : StreamDataPacketCollector) (x y : List UInt8) :
    dropped alloc c (x ++ y) =
      match feed alloc c x with
      | none => []
      | some (_, true) => dropped alloc c x ++ y
      | some (c, false) => dropped alloc c y := by
  induction x generalizing c with
  | nil => rfl
  | cons b x ih =>
    rw [List.cons_append, dropped, feed, dropped]
    cases addByte alloc c b with
    | none => rfl
    | some next =>
      obtain ⟨c, stop⟩ := next
      cases stop with
      | true => rfl
      | false => exact ih c

variable {alloc}

theorem exists_of_dropped_ne_nil {c : StreamDataPacketCollector} {data : List UInt8}
    (h : dropped alloc c data ≠ []) :
    ∃ u c', data = u ++ dropped alloc c data ∧ feed alloc c u = some (c', true) := by
  induction data generalizing c with
  | nil => exact absurd rfl h
  | cons b data ih =>
    rw [dropped] at h ⊢
    cases hbyte : addByte alloc c b with
    | none => simp [hbyte] at h
    | some next =>
      obtain ⟨c', stop⟩ := next
      cases stop with
      | true => exact ⟨[b], c', rfl, by simp [feed, hbyte]⟩
      | false =>
        rw [hbyte] at h
        obtain ⟨u, d, hu, hfeed⟩ := ih h
        refine ⟨b :: u, d, ?_, by simp [feed, hbyte, hfeed]⟩
        rw [List.cons_append]
        simp only
        rw [← hu]

theorem dropped_of_feed {c c' : StreamDataPacketCollector} {data : List UInt8}
    (h : feed alloc c data = some (c', false)) : dropped alloc c data = [] := by
  by_contra hne
  obtain ⟨u, d, hu, hfeed⟩ := exists_of_dropped_ne_nil hne
  rw [hu, feed_append, hfeed] at h
  simp at h

end Dropped

section Frames
variable (alloc : ℕ → Bool)

/-- What follows the first empty frame of the bytes, read frame by frame. -/
def afterEmptyFrame : ℕ → List UInt8 → List UInt8
  | 0, _ => []
  | frames + 1, bytes =>
    match PacketSize.extract ⟨bytes, 0, .no⟩ with
    | (none, _) => []
    | (some 0, is) => is.unread
    | (some size, is) => if alloc size then afterEmptyFrame frames (is.unread.drop size) else []

variable {alloc}

theorem feed_zeros {c : StreamDataPacketCollector} (hbetween : c.betweenPackets = true)
    (htemp : c.tempDataBuffer = []) {data : List UInt8} (h : ∀ b ∈ data, b = 0) :
    (feed alloc c data).map Prod.fst = some c := by
  cases data with
  | nil => rfl
  | cons b data =>
    have hb : b = 0 := h b (by simp)
    have hbyte : addByte alloc c 0 = some (c, true) := by
      obtain ⟨packets, temp⟩ := c
      subst htemp
      rw [addByte, if_pos hbetween]
      rfl
    simp [feed, hb, hbyte]

theorem packet_length_byte : ∀ i : Fin 251,
    PacketSize.extract ⟨[UInt8.ofNat i.val], 0, .no⟩ = (some i.val, ⟨[], 1, .yes⟩) := by decide +kernel

theorem packet_length_two_bytes : ∀ i : Fin 5,
    (PacketSize.extract ⟨[UInt8.ofNat (251 + i.val)], 0, .no⟩).1 = none ∧
    PacketSize.extract ⟨[UInt8.ofNat (251 + i.val), 0], 0, .no⟩ =
      (some (251 + 256 * i.val), ⟨[], 2, .yes⟩) := by decide +kernel

theorem feed_nonzero {c : StreamDataPacketCollector} (hbetween : c.betweenPackets = true)
    (htemp : c.tempDataBuffer = []) {b : UInt8} (hb : b ≠ 0) {data : List UInt8}
    (h : ∀ b ∈ data, b = 0) : (feed alloc c (b :: data)).map Prod.fst ≠ some c := by
  have hstarts : ∀ {x y : List UInt8} {size : ℕ}, b :: data = x ++ y → x ≠ [] → size ≠ 0 →
      PacketSize.Codes size x → (feed alloc c (b :: data)).map Prod.fst ≠ some c := by
    intro x y size hxy hx hsize hcodes hsame
    have hfeed : feed alloc c x = some (startPacket alloc c size, false) := by
      rw [feed_size hbetween hx (by rwa [htemp, List.nil_append])]
      simp [hsize]
    rw [hxy, feed_append, hfeed] at hsame
    obtain ⟨⟨d, stop⟩, hrest, rfl⟩ := Option.map_eq_some_iff.mp hsame
    have hlen := length_packets_feed hrest
    simp [startPacket, hsize] at hlen
  have hof : UInt8.ofNat b.toNat = b := UInt8.ofNat_toNat
  by_cases hlow : b.toNat < 251
  · have hcodes := PacketSize.codes_of_extract (packet_length_byte ⟨b.toNat, hlow⟩)
    rw [hof] at hcodes
    refine hstarts (x := [b]) (y := data) rfl (by simp) ?_ hcodes
    intro hzero
    exact hb (UInt8.toNat_inj.mp hzero)
  · have hlt := b.toNat_lt
    obtain ⟨i, hi⟩ : ∃ i : Fin 5, b.toNat = 251 + i.val := ⟨⟨b.toNat - 251, by omega⟩, by simp; omega⟩
    obtain ⟨hone, htwo⟩ := packet_length_two_bytes i
    rw [← hi, hof] at hone htwo
    cases data with
    | nil =>
      have hfeed : feed alloc c [b] =
          some ({ c with tempDataBuffer := c.tempDataBuffer ++ [b] }, false) :=
        feed_partialSize hbetween (by rwa [htemp, List.nil_append])
      rw [hfeed]
      intro hsame
      have := congrArg (Option.map StreamDataPacketCollector.tempDataBuffer) hsame
      simp at this
    | cons z data =>
      have hz : z = 0 := h z (by simp)
      subst hz
      exact hstarts (x := [b, 0]) (y := data) rfl (by simp) (by omega)
        (PacketSize.codes_of_extract htwo)

theorem afterEmptyFrame_nil (frames : ℕ) : afterEmptyFrame alloc frames [] = [] := by
  cases frames <;> rfl

theorem dropped_size {c : StreamDataPacketCollector} (hbetween : c.betweenPackets = true)
    {size : ℕ} {x : List UInt8} (h : PacketSize.Codes size (c.tempDataBuffer ++ x)) :
    dropped alloc c x = [] := by
  by_contra hne
  obtain ⟨u, d, hu, hstop⟩ := exists_of_dropped_ne_nil hne
  rw [hu, ← List.append_assoc] at h
  rw [feed_partialSize hbetween (h.extract_eq_none hne 0 .no)] at hstop
  simp at hstop

theorem dropped_body {c : StreamDataPacketCollector} {size frames : ℕ} (hsize : size ≠ 0)
    {y : List UInt8}
    (ih : ∀ {c : StreamDataPacketCollector}, c.betweenPackets = true → c.tempDataBuffer = [] →
      dropped alloc c (y.drop size) = afterEmptyFrame alloc frames (y.drop size)) :
    dropped alloc (startPacket alloc c size) y =
      if alloc size then afterEmptyFrame alloc frames (y.drop size) else [] := by
  rw [startPacket, if_neg hsize]
  have hroom := capacity_ofSize_le alloc size
  cases halloc : alloc size with
  | false =>
    cases y with
    | nil => rfl
    | cons b y =>
      have hbyte : addByte alloc ⟨c.packets ++ [Packet.ofSize alloc size], []⟩ b = none := by
        rw [addByte, betweenPackets_concat]
        simp [isPacketComplete, Packet.ofSize, Packet.availableCapacity, halloc, hsize.symm]
      simp [dropped, hbyte]
  | true =>
    have havailable : (Packet.ofSize alloc size).availableCapacity = size := by
      simp [Packet.availableCapacity, Packet.ofSize, halloc]
    have hbody : feed alloc ⟨c.packets ++ [Packet.ofSize alloc size], []⟩ (y.take size) =
        some (⟨c.packets ++ [(Packet.ofSize alloc size).append (y.take size)], []⟩, false) :=
      feed_body hroom (by rw [havailable, List.length_take]; omega)
    have hsplit : dropped alloc ⟨c.packets ++ [Packet.ofSize alloc size], []⟩ y =
        dropped alloc ⟨c.packets ++ [(Packet.ofSize alloc size).append (y.take size)], []⟩
          (y.drop size) := by
      conv_lhs => rw [← List.take_append_drop size y]
      rw [dropped_append, hbody]
    rw [hsplit, if_pos rfl]
    by_cases hlen : size ≤ y.length
    · refine ih ?_ rfl
      rw [betweenPackets_concat]
      simp [isPacketComplete, Packet.append, Packet.ofSize, hlen]
    · rw [List.drop_eq_nil_of_le (by omega), afterEmptyFrame_nil]
      rfl

theorem dropped_eq_afterEmptyFrame {c : StreamDataPacketCollector}
    (hbetween : c.betweenPackets = true) (htemp : c.tempDataBuffer = []) {frames : ℕ}
    {bytes : List UInt8} (h : bytes.length ≤ frames) :
    dropped alloc c bytes = afterEmptyFrame alloc frames bytes := by
  induction frames generalizing c bytes with
  | zero =>
    have hbytes : bytes = [] := List.eq_nil_of_length_eq_zero (by omega)
    simp [hbytes, dropped, afterEmptyFrame]
  | succ frames ih =>
    obtain ⟨hnone, -⟩ | ⟨size, code, y, hunread, hne, -, hcodes⟩ :=
      PacketSize.extract_cases ⟨bytes, 0, .no⟩
    · have hfeed : feed alloc c bytes =
          some ({ c with tempDataBuffer := c.tempDataBuffer ++ bytes }, false) :=
        feed_partialSize hbetween (by rwa [htemp, List.nil_append])
      rw [dropped_of_feed hfeed, afterEmptyFrame]
      split
      · rfl
      · next heq => rw [heq] at hnone; simp at hnone
      · next heq => rw [heq] at hnone; simp at hnone
    · have hbytes : bytes = code ++ y := hunread
      have hlen : 0 < code.length := List.length_pos_iff.mpr hne
      have hfeed : feed alloc c code = some (startPacket alloc c size, decide (size = 0)) :=
        feed_size hbetween hne (by rwa [htemp, List.nil_append])
      rw [hbytes, dropped_append, hfeed, afterEmptyFrame, hcodes]
      cases size with
      | zero =>
        rw [dropped_size hbetween (by rwa [htemp, List.nil_append])]
        rfl
      | succ size =>
        refine dropped_body (by omega) fun hbetween htemp => ih hbetween htemp ?_
        rw [hbytes, List.length_append] at h
        rw [List.length_drop]
        omega

theorem addPieces_cons (c : StreamDataPacketCollector) (piece : List UInt8)
    (pieces : List (List UInt8)) :
    addPieces alloc c (piece :: pieces) =
      (addData alloc c piece).bind fun c => addPieces alloc c pieces := rfl

theorem addPieces_zeros {c : StreamDataPacketCollector} (hc : Consistent c)
    (hbetween : c.betweenPackets = true) (htemp : c.tempDataBuffer = [])
    {pieces : List (List UInt8)} (h : ∀ b ∈ pieces.flatten, b = 0) :
    addPieces alloc c pieces = some c := by
  induction pieces with
  | nil => rfl
  | cons piece pieces ih =>
    rw [List.flatten_cons] at h
    have hpiece : ∀ b ∈ piece, b = 0 := fun b hb => h b (List.mem_append_left _ hb)
    have hrest : ∀ b ∈ pieces.flatten, b = 0 := fun b hb => h b (List.mem_append_right _ hb)
    rw [addPieces_cons, addData_eq_feed hc, feed_zeros hbetween htemp hpiece]
    exact ih hrest

theorem addPieces_eq_feed {c : StreamDataPacketCollector} (hc : Consistent c)
    {pieces : List (List UInt8)} (h : ∀ b ∈ dropped alloc c pieces.flatten, b = 0) :
    addPieces alloc c pieces = (feed alloc c pieces.flatten).map Prod.fst := by
  induction pieces generalizing c with
  | nil => rfl
  | cons piece pieces ih =>
    rw [List.flatten_cons, dropped_append] at h
    rw [addPieces_cons, addData_eq_feed hc, List.flatten_cons, feed_append]
    cases hfeed : feed alloc c piece with
    | none => rfl
    | some next =>
      obtain ⟨c', stop⟩ := next
      rw [hfeed] at h
      cases stop with
      | true =>
        obtain ⟨hbetween, htemp⟩ := feed_stop hfeed
        exact addPieces_zeros (hc.feed hfeed) hbetween htemp fun b hb =>
          h b (List.mem_append_right _ hb)
      | false => exact ih (hc.feed hfeed) h

/-- If a byte other than zero is dropped, cutting the stream before the last such byte
leads to another state. -/
theorem exists_pieces_ne {c : StreamDataPacketCollector} (hc : Consistent c) {bytes : List UInt8}
    (h : ¬ ∀ b ∈ dropped alloc c bytes, b = 0) :
    ∃ pieces : List (List UInt8), pieces.flatten = bytes ∧
      addPieces alloc c pieces ≠ addPieces alloc c [bytes] := by
  have hne : dropped alloc c bytes ≠ [] := fun hnil => h (by simp [hnil])
  obtain ⟨u, c', hu, hstop⟩ := exists_of_dropped_ne_nil hne
  obtain ⟨hbetween, htemp⟩ := feed_stop hstop
  obtain ⟨w, b, zeros, hw, hb, hzeros⟩ : ∃ w b zeros, dropped alloc c bytes = w ++ b :: zeros ∧
      b ≠ 0 ∧ ∀ z ∈ zeros, z = 0 := by
    generalize dropped alloc c bytes = rest at h
    induction rest with
    | nil => simp at h
    | cons b rest ih =>
      by_cases hrest : ∀ z ∈ rest, z = 0
      · refine ⟨[], b, rest, rfl, ?_, hrest⟩
        rintro rfl
        exact h (by simpa using hrest)
      · obtain ⟨w, b', zeros, rfl, hb, hzeros⟩ := ih hrest
        exact ⟨b :: w, b', zeros, rfl, hb, hzeros⟩
  have hcut : ∀ x, (feed alloc c (u ++ x)).map Prod.fst = some c' := by
    intro x
    rw [feed_append, hstop]
    rfl
  rw [hw] at hu
  refine ⟨[u ++ w, b :: zeros], by simp [hu], ?_⟩
  have hpieces : addPieces alloc c [u ++ w, b :: zeros] =
      (feed alloc c' (b :: zeros)).map Prod.fst := by
    rw [addPieces_cons, addData_eq_feed hc, hcut, Option.bind_some, addPieces_cons,
      addData_eq_feed (hc.feed hstop)]
    exact Option.bind_fun_some _
  have hwhole : addPieces alloc c [bytes] = some c' := by
    rw [addPieces_cons, addData_eq_feed hc, hu, hcut]
    rfl
  rw [hpieces, hwhole]
  exact feed_nonzero hbetween htemp hb hzeros

end Frames

def completedPackets (c : StreamDataPacketCollector) : List (List UInt8) :=
  (c.packets.filter isPacketComplete).map Packet.memBuffer

/-- What a fresh collector has after the pieces: the packets it has completed, and its
state. -/
def collect (alloc : ℕ → Bool) (pieces : List (List UInt8)) :
    Option (List (List UInt8) × StreamDataPacketCollector) :=
  (addPieces alloc {} pieces).map fun c => (completedPackets c, c)

theorem collect_eq_iff {alloc : ℕ → Bool} {pieces pieces' : List (List UInt8)} :
    collect alloc pieces = collect alloc pieces' ↔
      addPieces alloc {} pieces = addPieces alloc {} pieces' := by
  constructor
  · intro h
    have := congrArg (Option.map Prod.snd) h
    simpa [collect, Function.comp_def] using this
  · intro h
    rw [collect, h, collect]

theorem collect_split_iff (alloc : ℕ → Bool) (bytes : List UInt8) :
    (∀ pieces pieces' : List (List UInt8), pieces.flatten = bytes → pieces'.flatten = bytes →
      collect alloc pieces = collect alloc pieces') ↔
    ∀ b ∈ afterEmptyFrame alloc bytes.length bytes, b = 0 := by
  have hdropped : dropped alloc {} bytes = afterEmptyFrame alloc bytes.length bytes :=
    dropped_eq_afterEmptyFrame rfl rfl (Nat.le_refl _)
  rw [← hdropped]
  constructor
  · intro h
    by_contra hbytes
    obtain ⟨pieces, hflat, hne⟩ := exists_pieces_ne consistent_init hbytes
    exact hne (collect_eq_iff.mp (h pieces [bytes] hflat (by simp)))
  · intro h pieces pieces' hflat hflat'
    rw [collect_eq_iff, addPieces_eq_feed consistent_init (by rwa [hflat]),
      addPieces_eq_feed consistent_init (by rwa [hflat']), hflat, hflat']

/-- The length zero, then a packet of one byte. -/
theorem collect_depends_on_split :
    ¬ ∀ (alloc : ℕ → Bool) (bytes : List UInt8) (pieces pieces' : List (List UInt8)),
      pieces.flatten = bytes → pieces'.flatten = bytes →
        collect alloc pieces = collect alloc pieces' := by
  intro h
  have := h (fun _ => true) [0, 1, 65] [[0, 1, 65]] [[0], [1, 65]] rfl rfl
  exact absurd this (by decide)

end AetherClient.StreamDataPacketCollector
