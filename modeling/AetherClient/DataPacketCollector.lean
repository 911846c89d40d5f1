import AetherClient.PackedInt

set_option autoImplicit false

/-!
# Collecting packets from a byte stream

`StreamDataPacketCollector` cuts the bytes that arrive on a socket into packets: a packed
length, then that many bytes. A length that has arrived in part waits in
`tempDataBuffer`, a body that has arrived in part is the last packet of the queue.

`alloc n` says whether memory for a packet of `n` bytes can be had. When it cannot, the
packet's buffer has no room at all and `AddData` turns round for ever on the first byte it
cannot place; a call that does not return is `none`.
-/
namespace AetherClient

structure StreamDataPacketCollector.Packet where
  memBuffer : List UInt8
  capacity : ℕ
  expectedPacketSize : ℕ
deriving DecidableEq, Repr

structure StreamDataPacketCollector where
  packets : List StreamDataPacketCollector.Packet := []
  tempDataBuffer : List UInt8 := []
deriving DecidableEq, Repr

namespace StreamDataPacketCollector

namespace Packet

def ofSize (alloc : ℕ → Bool) (size : ℕ) : Packet := ⟨[], if alloc size then size else 0, size⟩

def availableCapacity (p : Packet) : ℕ := p.capacity - p.memBuffer.length

def append (p : Packet) (data : List UInt8) : Packet := { p with memBuffer := p.memBuffer ++ data }

end Packet

def isPacketComplete (p : Packet) : Bool := p.memBuffer.length = p.expectedPacketSize

def betweenPackets (c : StreamDataPacketCollector) : Bool := c.packets.getLast?.all isPacketComplete

/-- The size of the new packet and how much of the data its length took, and the temporary
buffer after that. -/
def getPacketSize (temp data : List UInt8) : (ℕ × ℕ) × List UInt8 :=
  let temp' := temp ++ data.take 8
  match PacketSize.extract ⟨temp', 0, .no⟩ with
  | (none, _) => ((0, data.length), temp')
  | (some size, reader) => ((size, reader.offset - temp.length), [])

def writeToPacket (p : Packet) (data : List UInt8) : Packet × ℕ :=
  let writeSize :=
    if p.availableCapacity > data.length then data.length else p.availableCapacity
  (p.append (data.take writeSize), writeSize)

def writeBack (c : StreamDataPacketCollector) (data : List UInt8) :
    StreamDataPacketCollector × List UInt8 :=
  match c.packets.getLast? with
  | none => (c, data)
  | some p =>
    let (p, n) := writeToPacket p data
    ({ c with packets := c.packets.dropLast ++ [p] }, data.drop n)

section AddData
variable (alloc : ℕ → Bool)

def addLoop : ℕ → StreamDataPacketCollector → List UInt8 → Option StreamDataPacketCollector
  | 0, c, data => if data.isEmpty then some c else none
  | turns + 1, c, data =>
    if data.isEmpty then some c
    else if c.betweenPackets then
      match getPacketSize c.tempDataBuffer data with
      | ((0, _), temp) => some { c with tempDataBuffer := temp }
      | ((size, ofst), temp) =>
        let (c, data) :=
          writeBack ⟨c.packets ++ [Packet.ofSize alloc size], temp⟩ (data.drop ofst)
        addLoop turns c data
    else
      let (c, data) := c.writeBack data
      addLoop turns c data

/-- Every turn that does something takes at least one byte. -/
def addData (c : StreamDataPacketCollector) (data : List UInt8) :
    Option StreamDataPacketCollector :=
  addLoop alloc data.length c data

def addPieces (c : StreamDataPacketCollector) (pieces : List (List UInt8)) :
    Option StreamDataPacketCollector :=
  pieces.foldlM (addData alloc) c

end AddData

def popPacket (c : StreamDataPacketCollector) : List UInt8 × StreamDataPacketCollector :=
  match c.packets with
  | [] => ([], c)
  | p :: packets => if isPacketComplete p then (p.memBuffer, { c with packets := packets }) else ([], c)

/-- What every call keeps: the temporary buffer is not yet a length, it is in use between
packets only, and the packet being filled has no more room than it needs. -/
structure Consistent (c : StreamDataPacketCollector) : Prop where
  partialSize : (PacketSize.extract ⟨c.tempDataBuffer, 0, .no⟩).1 = none
  inBody : c.betweenPackets = false → c.tempDataBuffer = []
  room : ∀ p ∈ c.packets.getLast?, p.capacity ≤ p.expectedPacketSize

section Bytes
variable (alloc : ℕ → Bool)

/-- The effect of a single byte; the flag says that the byte ends a frame without a body. -/
def addByte (c : StreamDataPacketCollector) (b : UInt8) :
    Option (StreamDataPacketCollector × Bool) :=
  if c.betweenPackets then
    match (PacketSize.extract ⟨c.tempDataBuffer ++ [b], 0, .no⟩).1 with
    | none => some ({ c with tempDataBuffer := c.tempDataBuffer ++ [b] }, false)
    | some 0 => some ({ c with tempDataBuffer := [] }, true)
    | some size => some (⟨c.packets ++ [Packet.ofSize alloc size], []⟩, false)
  else
    match c.packets.getLast? with
    | none => none
    | some p =>
      if p.availableCapacity = 0 then none
      else some ({ c with packets := c.packets.dropLast ++ [p.append [b]] }, false)

/-- Byte by byte, up to the first frame without a body: what follows that is dropped. -/
def feed : StreamDataPacketCollector → List UInt8 → Option (StreamDataPacketCollector × Bool)
  | c, [] => some (c, false)
  | c, b :: data =>
    match addByte alloc c b with
    | none => none
    | some (c, true) => some (c, true)
    | some (c, false) => feed c data

theorem feed_append (c : StreamDataPacketCollector) (x y : List UInt8) :
    feed alloc c (x ++ y) =
      match feed alloc c x with
      | none => none
      | some (c, true) => some (c, true)
      | some (c, false) => feed alloc c y := by
  induction x generalizing c with
  | nil => rfl
  | cons b x ih =>
    rw [List.cons_append, feed, feed]
    cases addByte alloc c b with
    | none => rfl
    | some next =>
      obtain ⟨c, stop⟩ := next
      cases stop with
      | true => rfl
      | false => exact ih c

variable {alloc}

theorem betweenPackets_concat (ps : List Packet) (p : Packet) (temp : List UInt8) :
    betweenPackets ⟨ps ++ [p], temp⟩ = isPacketComplete p := by
  simp [betweenPackets]

theorem not_isPacketComplete_of_available {p : Packet} (hroom : p.capacity ≤ p.expectedPacketSize)
    (h : p.availableCapacity ≠ 0) : isPacketComplete p = false := by
  simp only [isPacketComplete, decide_eq_false_iff_not]
  unfold Packet.availableCapacity at h
  omega

theorem feed_body {ps : List Packet} {temp : List UInt8} {p : Packet} {data : List UInt8}
    (hroom : p.capacity ≤ p.expectedPacketSize) (h : data.length ≤ p.availableCapacity) :
    feed alloc ⟨ps ++ [p], temp⟩ data = some (⟨ps ++ [p.append data], temp⟩, false) := by
  induction data generalizing p with
  | nil => simp [feed, Packet.append]
  | cons b data ih =>
    rw [List.length_cons] at h
    have havailable : p.availableCapacity ≠ 0 := by omega
    have hbyte : addByte alloc ⟨ps ++ [p], temp⟩ b =
        some (⟨ps ++ [p.append [b]], temp⟩, false) := by
      rw [addByte, betweenPackets_concat, not_isPacketComplete_of_available hroom havailable]
      simp [havailable]
    have hnext : data.length ≤ (p.append [b]).availableCapacity := by
      simp only [Packet.availableCapacity, Packet.append, List.length_append,
        List.length_singleton] at h ⊢
      omega
    rw [feed, hbyte]
    simp only
    rw [ih (p := p.append [b]) hroom hnext]
    simp [Packet.append]

theorem feed_writeBack {c : StreamDataPacketCollector} {p : Packet}
    (hlast : c.packets.getLast? = some p) (hroom : p.capacity ≤ p.expectedPacketSize)
    (data : List UInt8) :
    feed alloc c data = feed alloc (c.writeBack data).1 (c.writeBack data).2 := by
  obtain ⟨packets, temp⟩ := c
  obtain ⟨ps, rfl⟩ := List.getLast?_eq_some_iff.mp hlast
  simp only [writeBack, List.getLast?_concat, writeToPacket, List.dropLast_concat]
  generalize hn : (if p.availableCapacity > data.length then data.length
    else p.availableCapacity) = n
  have hle : (data.take n).length ≤ p.availableCapacity := by
    rw [List.length_take]
    split at hn <;> omega
  calc feed alloc ⟨ps ++ [p], temp⟩ data
      = feed alloc ⟨ps ++ [p], temp⟩ (data.take n ++ data.drop n) := by
        rw [List.take_append_drop]
    _ = feed alloc ⟨ps ++ [p.append (data.take n)], temp⟩ (data.drop n) := by
        rw [feed_append, feed_body hroom hle]

theorem feed_partialSize {c : StreamDataPacketCollector} (hbetween : c.betweenPackets = true)
    {data : List UInt8}
    (h : (PacketSize.extract ⟨c.tempDataBuffer ++ data, 0, .no⟩).1 = none) :
    feed alloc c data = some ({ c with tempDataBuffer := c.tempDataBuffer ++ data }, false) := by
  induction data generalizing c with
  | nil => simp [feed]
  | cons b data ih =>
    rw [List.append_cons] at h
    have hbyte : addByte alloc c b =
        some ({ c with tempDataBuffer := c.tempDataBuffer ++ [b] }, false) := by
      rw [addByte, if_pos hbetween, PacketSize.extract_eq_none_of_append h]
    rw [feed, hbyte]
    simp only
    rw [ih (c := ⟨c.packets, c.tempDataBuffer ++ [b]⟩) hbetween h]
    simp

def startPacket (alloc : ℕ → Bool) (c : StreamDataPacketCollector) (size : ℕ) :
    StreamDataPacketCollector :=
  if size = 0 then { c with tempDataBuffer := [] }
  else ⟨c.packets ++ [Packet.ofSize alloc size], []⟩

theorem feed_size {c : StreamDataPacketCollector} (hbetween : c.betweenPackets = true)
    {size : ℕ} {x : List UInt8} (hx : x ≠ [])
    (h : PacketSize.Codes size (c.tempDataBuffer ++ x)) :
    feed alloc c x = some (startPacket alloc c size, decide (size = 0)) := by
  obtain ⟨x, b, rfl⟩ := List.eq_nil_or_concat x |>.resolve_left hx
  rw [List.concat_eq_append, ← List.append_assoc] at h
  have hpartial : feed alloc c x =
      some ({ c with tempDataBuffer := c.tempDataBuffer ++ x }, false) :=
    feed_partialSize hbetween (h.extract_eq_none (by simp) 0 .no)
  have hbyte := h.extract_eq_some (y := []) 0 .no
  rw [List.append_nil] at hbyte
  rw [List.concat_eq_append, feed_append, hpartial]
  have hstill : betweenPackets ⟨c.packets, c.tempDataBuffer ++ x⟩ = true := hbetween
  simp only [feed, addByte]
  rw [if_pos hstill, hbyte]
  cases size with
  | zero => simp [startPacket]
  | succ size => simp [startPacket]

theorem extract_nil : (PacketSize.extract ⟨[], 0, .no⟩).1 = none := by decide

theorem consistent_init : Consistent {} :=
  ⟨extract_nil, fun h => absurd h (by decide), by simp⟩

theorem consistent_concat (ps : List Packet) {p : Packet} (h : p.capacity ≤ p.expectedPacketSize) :
    Consistent ⟨ps ++ [p], []⟩ :=
  ⟨extract_nil, fun _ => rfl, by simpa using h⟩

theorem capacity_ofSize_le (alloc : ℕ → Bool) (size : ℕ) :
    (Packet.ofSize alloc size).capacity ≤ (Packet.ofSize alloc size).expectedPacketSize := by
  unfold Packet.ofSize
  split <;> simp

theorem Consistent.writeBack {c : StreamDataPacketCollector} (hc : Consistent c) {p : Packet}
    (hlast : c.packets.getLast? = some p) (htemp : c.tempDataBuffer = []) (data : List UInt8) :
    Consistent (c.writeBack data).1 := by
  simp only [StreamDataPacketCollector.writeBack, hlast, htemp]
  exact consistent_concat _ (hc.room p hlast)

theorem Consistent.getPacketSize_cases {c : StreamDataPacketCollector} (hc : Consistent c)
    (data : List UInt8) :
    (getPacketSize c.tempDataBuffer data = ((0, data.length), c.tempDataBuffer ++ data) ∧
      (PacketSize.extract ⟨c.tempDataBuffer ++ data, 0, .no⟩).1 = none) ∨
    ∃ size x y, data = x ++ y ∧ x ≠ [] ∧ PacketSize.Codes size (c.tempDataBuffer ++ x) ∧
      getPacketSize c.tempDataBuffer data = ((size, x.length), []) := by
  obtain ⟨hnone, hlt⟩ | ⟨size, code, y, hunread, -, -, hcodes⟩ :=
    PacketSize.extract_cases ⟨c.tempDataBuffer ++ data.take 8, 0, .no⟩
  · left
    have htake : data.take 8 = data := by
      rw [List.length_append, List.length_take] at hlt
      exact List.take_of_length_le (by omega)
    rw [htake] at hnone
    refine ⟨?_, hnone⟩
    simp only [getPacketSize, htake]
    split
    · rfl
    · next heq => rw [heq] at hnone; simp at hnone
  · right
    have hunread : c.tempDataBuffer ++ data.take 8 = code ++ y := hunread
    obtain ⟨x, hcode, htake⟩ | ⟨z, htemp, -⟩ := List.append_eq_append_iff.mp hunread
    · have hx : x ≠ [] := by
        rintro rfl
        have := hcodes.extract_eq_some (y := []) 0 .no
        rw [hcode, List.append_nil, List.append_nil, hc.partialSize] at this
        simp at this
      refine ⟨size, x, y ++ data.drop 8, ?_, hx, hcode ▸ hcodes, ?_⟩
      · rw [← List.append_assoc, ← htake, List.take_append_drop]
      · simp only [getPacketSize, hunread]
        rw [hcodes y 0 .no]
        simp [hcode]
    · -- the old bytes alone would have been a length
      have := hcodes.extract_eq_some (y := z) 0 .no
      rw [← htemp, hc.partialSize] at this
      simp at this

theorem writeBack_of_full {c : StreamDataPacketCollector} {p : Packet}
    (hlast : c.packets.getLast? = some p) (hfull : p.availableCapacity = 0) (data : List UInt8) :
    c.writeBack data = (c, data) := by
  obtain ⟨packets, temp⟩ := c
  obtain ⟨ps, rfl⟩ := List.getLast?_eq_some_iff.mp hlast
  simp [writeBack, writeToPacket, hfull, Packet.append]

theorem addLoop_of_stuck {c : StreamDataPacketCollector} {p : Packet}
    (hlast : c.packets.getLast? = some p) (hbody : c.betweenPackets = false)
    (hfull : p.availableCapacity = 0) {data : List UInt8} (hdata : data ≠ []) (turns : ℕ) :
    addLoop alloc turns c data = none := by
  have hsame := writeBack_of_full hlast hfull data
  induction turns with
  | zero => simp [addLoop, hdata]
  | succ turns ih => simp [addLoop, hdata, hbody, hsame, ih]

theorem addLoop_eq_feed {c : StreamDataPacketCollector} (hc : Consistent c) {turns : ℕ}
    {data : List UInt8} (h : data.length ≤ turns) :
    addLoop alloc turns c data = (feed alloc c data).map Prod.fst := by
  induction turns generalizing c data with
  | zero =>
    have hdata : data = [] := List.eq_nil_of_length_eq_zero (by omega)
    simp [addLoop, feed, hdata]
  | succ turns ih =>
    cases data with
    | nil => simp [addLoop, feed]
    | cons b rest =>
      generalize hdata : b :: rest = data at h
      have hne : data ≠ [] := by simp [← hdata]
      have hempty : data.isEmpty = false := by simp [hne]
      cases hbetween : c.betweenPackets with
      | true =>
        obtain ⟨hsize, hpartial⟩ | ⟨size, x, y, hxy, hx, hcodes, hsize⟩ :=
          hc.getPacketSize_cases data
        · rw [feed_partialSize hbetween hpartial]
          simp [addLoop, hempty, hbetween, hsize]
        · have hxlen : 0 < x.length := List.length_pos_iff.mpr hx
          have hylen : y.length ≤ turns := by
            rw [hxy, List.length_append] at h
            omega
          have hdrop : data.drop x.length = y := by simp [hxy]
          rw [hxy, feed_append, feed_size hbetween hx hcodes, ← hxy]
          cases size with
          | zero => simp [addLoop, hempty, hbetween, hsize, startPacket]
          | succ size =>
            have hstart : startPacket alloc c (size + 1) =
                ⟨c.packets ++ [Packet.ofSize alloc (size + 1)], []⟩ := if_neg (by omega)
            have hlast : (startPacket alloc c (size + 1)).packets.getLast? =
                some (Packet.ofSize alloc (size + 1)) := by simp [hstart]
            have hroom := capacity_ofSize_le alloc (size + 1)
            have hnext : Consistent (startPacket alloc c (size + 1)) :=
              hstart ▸ consistent_concat _ hroom
            have htemp : (startPacket alloc c (size + 1)).tempDataBuffer = [] := by rw [hstart]
            have hshort : ((startPacket alloc c (size + 1)).writeBack y).2.length ≤ turns := by
              simp only [writeBack, hlast, List.length_drop]
              omega
            simp only [addLoop, hempty, hbetween, hsize, hdrop, ← hstart, Bool.false_eq_true,
              if_false, if_true]
            rw [ih (hnext.writeBack hlast htemp y) hshort, ← feed_writeBack hlast hroom]
            simp
      | false =>
        cases hlast : c.packets.getLast? with
        | none => simp [betweenPackets, hlast] at hbetween
        | some p =>
          by_cases hfull : p.availableCapacity = 0
          · rw [addLoop_of_stuck hlast hbetween hfull hne, ← hdata, feed, addByte]
            simp [hbetween, hlast, hfull]
          · have hshort : (c.writeBack data).2.length ≤ turns := by
              have : 0 < data.length := List.length_pos_iff.mpr hne
              simp only [writeBack, hlast, writeToPacket, List.length_drop]
              split <;> omega
            simp only [addLoop, hempty, hbetween, Bool.false_eq_true, if_false]
            rw [ih (hc.writeBack hlast (hc.inBody hbetween) data) hshort,
              ← feed_writeBack hlast (hc.room p hlast)]

theorem addData_eq_feed {c : StreamDataPacketCollector} (hc : Consistent c) (data : List UInt8) :
    addData alloc c data = (feed alloc c data).map Prod.fst :=
  addLoop_eq_feed hc (Nat.le_refl _)

/-- More turns would not change the outcome: a call that has not returned by then never
does. -/
theorem addLoop_eq_addData {c : StreamDataPacketCollector} (hc : Consistent c) {turns : ℕ}
    {data : List UInt8} (h : data.length ≤ turns) :
    addLoop alloc turns c data = addData alloc c data := by
  rw [addLoop_eq_feed hc h, addData_eq_feed hc]

end Bytes

end StreamDataPacketCollector

end AetherClient
