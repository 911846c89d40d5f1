import AetherClient.SafeStreamTypes
import AetherClient.StreamApi

set_option autoImplicit false

namespace AetherClient

/-- `IEncryptProvider`, of which it is assumed that the overhead is what encryption adds. -/
structure EncryptProvider where
  encrypt : DataBuffer → DataBuffer
  encryptOverhead : ℕ
  length_encrypt : ∀ data, (encrypt data).length = data.length + encryptOverhead

inductive ChainGate where
  | sizedPacket
  | streamApi (streamId : BitVec 8)
  | crypto (provider : EncryptProvider)
  | addHeader (header : DataBuffer)

namespace ChainGate

def kSizedPacketOverhead : ℕ := 4

/-- Message code, stream id and `sizeof(PackedSize::ValueType)`. -/
def kStreamMessageOverhead : ℕ := 1 + 1 + 8

def overhead : ChainGate → ℕ
  | sizedPacket => kSizedPacketOverhead
  | streamApi _ => kStreamMessageOverhead
  | crypto provider => provider.encryptOverhead
  | addHeader header => header.length

def writeBuffer (lib : StdLibrary) : ChainGate → DataBuffer → DataBuffer
  | sizedPacket, buffer => PacketSize.serialize buffer.length ++ buffer
  | streamApi streamId, buffer => StreamMessage.pack lib ⟨streamId, buffer.map UInt8.toBitVec⟩
  | crypto provider, buffer => provider.encrypt buffer
  | addHeader header, buffer => header ++ buffer

def added : ChainGate → ℕ → ℕ
  | sizedPacket, size => (PacketSize.serialize size).length
  | streamApi _, size => 2 + (PacketSize.serialize size).length
  | crypto provider, _ => provider.encryptOverhead
  | addHeader header, _ => header.length

end ChainGate

namespace GateChain
open ChainGate

/-- `stream_info().max_element_size` at the top of a chain, over a base gate with this maximum. -/
def maxElementSize (base : ℕ) : List ChainGate → ℕ
  | [] => base
  | gate :: rest =>
    let out := maxElementSize base rest
    if out > gate.overhead then out - gate.overhead else 0

def write (lib : StdLibrary) : List ChainGate → DataBuffer → List DataBuffer
  | [], buffer => [buffer]
  | gate :: rest, buffer => write lib rest (gate.writeBuffer lib buffer)

def Arrives (lib : StdLibrary) (base : ℕ) (gates : List ChainGate) (buffer : DataBuffer) : Prop :=
  ∃ packet, write lib gates buffer = [packet] ∧ packet.length ≤ base

def sizedPackets : List ChainGate → ℕ
  | [] => 0
  | sizedPacket :: rest => 1 + sizedPackets rest
  | _ :: rest => sizedPackets rest

def totalAdded : List ChainGate → ℕ → ℕ
  | [], _ => 0
  | gate :: rest, size => gate.added size + totalAdded rest (size + gate.added size)

def totalOverhead (gates : List ChainGate) : ℕ := (gates.map overhead).sum

/-- The size from which on a length takes more than the four bytes that `SizedPacketGate`
declares. -/
def wideSize : ℕ := 1049835

/-- What the gate adds to a buffer of `wideSize` or more falls short of the eight bytes of a
length by so much. -/
def saved : ChainGate → ℕ → ℕ
  | sizedPacket, size => PacketSize.lengthSaved size
  | streamApi _, size => PacketSize.lengthSaved size
  | crypto _, _ => 0
  | addHeader _, _ => 0

def totalSaved : List ChainGate → ℕ → ℕ
  | [], _ => 0
  | gate :: rest, size => saved gate size + totalSaved rest (size + gate.added size)

/-- Where a gate is first handed a buffer of `wideSize` or more, the maximum there leaves four
more bytes for each sized packet gate from there on. -/
def LeavesRoom (base : ℕ) : List ChainGate → ℕ → Prop
  | [], _ => True
  | gate :: rest, size =>
    if size < wideSize then LeavesRoom base rest (size + gate.added size)
    else
      -- nothing is saved below 2 ^ 63 bytes
      size + 4 * sizedPackets (gate :: rest) ≤
        maxElementSize base (gate :: rest) + totalSaved (gate :: rest) size

variable {lib : StdLibrary} {base : ℕ} {gates : List ChainGate}

theorem length_writeBuffer (lib : StdLibrary) (gate : ChainGate) (buffer : DataBuffer) :
    (gate.writeBuffer lib buffer).length = buffer.length + gate.added buffer.length := by
  cases gate with
  | sizedPacket =>
    rw [writeBuffer, added, List.length_append]
    exact Nat.add_comm _ _
  | streamApi streamId =>
    have hpack : StreamMessage.pack lib ⟨streamId, buffer.map UInt8.toBitVec⟩ =
        StreamMessage.code :: (LittleEndian.toBytes 1 streamId.toNat ++
        encodeElements packedLength (fun b : BitVec 8 => LittleEndian.toBytes 1 b.toNat)
          (buffer.map UInt8.toBitVec)) := rfl
    rw [writeBuffer, added, hpack, List.length_cons, List.length_append,
      LittleEndian.length_toBytes,
      SafeStreamApi.length_encodeElements fun _ => LittleEndian.length_toBytes 1 _,
      List.length_map]
    omega
  | crypto provider => exact provider.length_encrypt buffer
  | addHeader header =>
    rw [writeBuffer, added, List.length_append]
    exact Nat.add_comm _ _

theorem added_le_overhead (gate : ChainGate) {size : ℕ} (h : size < wideSize) :
    gate.added size ≤ gate.overhead := by
  cases gate with
  | sizedPacket =>
    rw [added, overhead, PacketSize.length_serialize h, kSizedPacketOverhead]
    split_ifs <;> omega
  | streamApi streamId =>
    have height := PacketSize.length_serialize_le_eight size
    rw [added, overhead, kStreamMessageOverhead]
    omega
  | crypto provider => exact Nat.le_refl _
  | addHeader header => exact Nat.le_refl _

theorem added_of_wide (gate : ChainGate) {size : ℕ} (h : wideSize ≤ size) :
    gate.added size + saved gate size = gate.overhead + 4 * sizedPackets [gate] := by
  have height := PacketSize.length_serialize_add_lengthSaved h
  cases gate with
  | sizedPacket =>
    rw [added, saved, overhead, kSizedPacketOverhead, sizedPackets, sizedPackets]
    omega
  | streamApi streamId =>
    rw [added, saved, overhead, kStreamMessageOverhead]
    change _ = 1 + 1 + 8 + 4 * 0
    omega
  | crypto provider => rfl
  | addHeader header => rfl

theorem sizedPackets_cons (gate : ChainGate) (rest : List ChainGate) :
    sizedPackets (gate :: rest) = sizedPackets [gate] + sizedPackets rest := by
  cases gate <;> simp [sizedPackets]

theorem totalOverhead_cons (gate : ChainGate) (rest : List ChainGate) :
    totalOverhead (gate :: rest) = gate.overhead + totalOverhead rest := by
  rw [totalOverhead, List.map_cons, List.sum_cons, totalOverhead]

theorem totalAdded_of_wide (gates : List ChainGate) {size : ℕ} (h : wideSize ≤ size) :
    totalAdded gates size + totalSaved gates size =
      totalOverhead gates + 4 * sizedPackets gates := by
  induction gates generalizing size with
  | nil => rfl
  | cons gate rest ih =>
    have hgate := added_of_wide gate h
    have hrest := ih (Nat.le_add_right_of_le h : wideSize ≤ size + gate.added size)
    rw [totalAdded, totalSaved, totalOverhead_cons, sizedPackets_cons]
    omega

theorem write_eq (lib : StdLibrary) (gates : List ChainGate) (buffer : DataBuffer) :
    ∃ packet, write lib gates buffer = [packet] ∧
      packet.length = buffer.length + totalAdded gates buffer.length := by
  induction gates generalizing buffer with
  | nil => exact ⟨buffer, rfl, rfl⟩
  | cons gate rest ih =>
    obtain ⟨packet, hwrite, hlen⟩ := ih (gate.writeBuffer lib buffer)
    refine ⟨packet, hwrite, ?_⟩
    rw [hlen, length_writeBuffer, totalAdded]
    omega

theorem arrives_iff (gates : List ChainGate) (buffer : DataBuffer) :
    Arrives lib base gates buffer ↔ buffer.length + totalAdded gates buffer.length ≤ base := by
  obtain ⟨packet, hwrite, hlen⟩ := write_eq lib gates buffer
  constructor
  · rintro ⟨packet', hwrite', hle⟩
    cases hwrite.symm.trans hwrite'
    exact hlen ▸ hle
  · intro hle
    exact ⟨packet, hwrite, hlen ▸ hle⟩

theorem maxElementSize_cons {gate : ChainGate} {rest : List ChainGate} {size : ℕ} (hpos : 0 < size)
    (h : size ≤ maxElementSize base (gate :: rest)) :
    maxElementSize base rest = maxElementSize base (gate :: rest) + gate.overhead := by
  rw [maxElementSize] at h ⊢
  split_ifs at h ⊢ <;> omega

theorem maxElementSize_add_totalOverhead {size : ℕ} (hpos : 0 < size)
    (h : size ≤ maxElementSize base gates) :
    maxElementSize base gates + totalOverhead gates = base := by
  induction gates generalizing size with
  | nil => rfl
  | cons gate rest ih =>
    have hcons := maxElementSize_cons hpos h
    have hrest := ih (Nat.add_pos_left hpos gate.overhead) (by omega)
    rw [totalOverhead_cons]
    omega

/-- A buffer that is not larger than the maximum at the top arrives at the base gate exactly if
there is room for the lengths that take more than four bytes. -/
theorem arrives_iff_leavesRoom (lib : StdLibrary) (base : ℕ) (gates : List ChainGate)
    (buffer : DataBuffer) (hne : buffer ≠ []) (hle : buffer.length ≤ maxElementSize base gates) :
    Arrives lib base gates buffer ↔ LeavesRoom base gates buffer.length := by
  induction gates generalizing buffer with
  | nil => exact ⟨fun _ => trivial, fun _ => ⟨buffer, rfl, hle⟩⟩
  | cons gate rest ih =>
    have hpos : 0 < buffer.length := List.length_pos_iff.mpr hne
    have hmax := maxElementSize_cons hpos hle
    have hlen := length_writeBuffer lib gate buffer
    rw [LeavesRoom]
    split_ifs with hwide
    · -- the gate adds no more than it declares
      have hadded := added_le_overhead gate hwide
      have hne' : gate.writeBuffer lib buffer ≠ [] := List.length_pos_iff.mp (by omega)
      rw [← hlen]
      exact ih (gate.writeBuffer lib buffer) hne' (by omega)
    · have hsum := maxElementSize_add_totalOverhead hpos hle
      have htotal := totalAdded_of_wide (gate :: rest) (Nat.le_of_not_lt hwide)
      rw [arrives_iff]
      omega

/-- A header, a stream message and its length over a base gate that takes 100 bytes. -/
theorem arrives_iff_leavesRoom_small :
    [0, 1, 2] ≠ ([] : DataBuffer) ∧
      3 ≤ maxElementSize 100 [.addHeader [9], .streamApi 7, .sizedPacket] ∧
      (Arrives nanosecondLibrary 100 [.addHeader [9], .streamApi 7, .sizedPacket] [0, 1, 2] ↔
        LeavesRoom 100 [.addHeader [9], .streamApi 7, .sizedPacket] 3) :=
  have hne : [0, 1, 2] ≠ ([] : DataBuffer) := by decide
  have hle : 3 ≤ maxElementSize 100 [.addHeader [9], .streamApi 7, .sizedPacket] := by decide
  ⟨hne, hle, arrives_iff_leavesRoom nanosecondLibrary 100 [.addHeader [9], .streamApi 7, .sizedPacket]
    [0, 1, 2] hne hle⟩

/-- The length of a buffer of `wideSize` takes eight bytes, of which four are declared. -/
theorem sized_packet_exceeds_base : ¬∀ (base : ℕ) (gates : List ChainGate) (buffer : DataBuffer),
    buffer ≠ [] → buffer.length ≤ maxElementSize base gates →
      Arrives nanosecondLibrary base gates buffer := by
  intro h
  have hlen : (List.replicate wideSize (0 : UInt8)).length = wideSize := List.length_replicate
  have hmax : maxElementSize (wideSize + 4) [.sizedPacket] = wideSize := rfl
  have harrives := h (wideSize + 4) [.sizedPacket] (List.replicate wideSize 0)
    (List.length_pos_iff.mp (by rw [hlen]; decide)) (by rw [hlen, hmax])
  rw [arrives_iff, hlen, totalAdded, totalAdded, added] at harrives
  have height := PacketSize.length_serialize_add_lengthSaved (Nat.le_refl wideSize)
  have hsaved : PacketSize.lengthSaved wideSize = 0 := PacketSize.lengthSaved_eq_zero (by decide)
  omega

end GateChain
end AetherClient
