import Mathlib.Data.Int.Notation
import AetherClient.RingIndex

set_option autoImplicit false

/-!
# Types of the safe stream

Offsets are ring indices over the 16-bit type, whose maximum is 65535. Times and
durations are tick counts of the clock. `SafeStreamApi` messages carry the bare
16-bit value of an offset; the reader builds a ring index from it again with the
constructor, which maps 65535 to 0.
-/
namespace AetherClient

abbrev TimePoint := ℤ
abbrev Duration := ℤ
abbrev DataBuffer := List UInt8

abbrev SafeStreamRingIndex := RingIndex 65535

instance SafeStreamRingIndex.neZero : NeZero (65535 : ℕ) := ⟨by decide⟩

def toUint16 (n : ℕ) : ℕ := n % 65536

theorem toUint16_of_lt {n : ℕ} (h : n < 65536) : toUint16 n = n := Nat.mod_eq_of_lt h

/-- `static_cast<std::uint16_t>(size - 1)` for a `std::size_t` size; an empty buffer
gives 65535. -/
def sizeMinusOne (size : ℕ) : ℕ := (size + 65535) % 65536

theorem sizeMinusOne_of_pos {n : ℕ} (h : 0 < n) (hn : n ≤ 65536) : sizeMinusOne n = n - 1 := by
  unfold sizeMinusOne
  omega

structure OffsetRange where
  begin : SafeStreamRingIndex
  end_ : SafeStreamRingIndex
  windowSize : ℕ
deriving DecidableEq, Repr

namespace OffsetRange

def inRange (r : OffsetRange) (offset : SafeStreamRingIndex) : Bool :=
  decide (r.begin.distance offset ≤ r.windowSize) &&
    decide (offset.distance r.end_ ≤ r.windowSize)

def before (r : OffsetRange) (offset : SafeStreamRingIndex) : Bool :=
  decide (offset.distance r.end_ > r.windowSize)

end OffsetRange

structure SafeStreamConfig where
  bufferCapacity : ℕ
  windowSize : ℕ
  maxDataSize : ℕ
  waitConfirmTimeout : Duration
  sendConfirmTimeout : Duration
  sendRepeatTimeout : Duration
  maxRepeatCount : ℕ
deriving DecidableEq, Repr

/-- The configuration the stream's own tests run with, in milliseconds. -/
def testConfig : SafeStreamConfig := ⟨20 * 1024, 10 * 1024, 100, 50, 0, 10, 2⟩

def narrowConfig : SafeStreamConfig := { testConfig with windowSize := 4 }

inductive Message where
  | confirm (offset : ℕ)
  | requestRepeat (offset : ℕ)
  | send (offset : ℕ) (data : DataBuffer)
  | repeat_ (repeatCount offset : ℕ) (data : DataBuffer)
deriving DecidableEq, Repr

namespace Message

def start : Message → ℕ
  | .send offset _ => offset
  | .repeat_ _ offset _ => offset
  | _ => 0

def data : Message → DataBuffer
  | .send _ data => data
  | .repeat_ _ _ data => data
  | _ => []

def stop (m : Message) : ℕ := m.start + m.data.length

end Message

abbrev Packet := List Message

namespace OffsetRange

theorem inRange_iff_ring (r : OffsetRange) (offset : SafeStreamRingIndex)
    (hw : r.windowSize ≤ 65535) :
    r.inRange offset = true ↔
      ((r.begin.value ≤ offset.value ∧ offset.value ≤ r.begin.value + r.windowSize) ∨
        offset.value + (65535 - r.windowSize) ≤ r.begin.value) ∧
      ((offset.value ≤ r.end_.value ∧ r.end_.value ≤ offset.value + r.windowSize) ∨
        r.end_.value + (65535 - r.windowSize) ≤ offset.value) := by
  simp only [inRange, Bool.and_eq_true, decide_eq_true_eq,
    RingIndex.distance_le_iff_of_le _ _ _ hw]

theorem before_eq_false_iff_ring (r : OffsetRange) (offset : SafeStreamRingIndex)
    (hw : r.windowSize ≤ 65535) :
    r.before offset = false ↔
      (offset.value ≤ r.end_.value ∧ r.end_.value ≤ offset.value + r.windowSize) ∨
        r.end_.value + (65535 - r.windowSize) ≤ offset.value := by
  simp only [before, decide_eq_false_iff_not, gt_iff_lt, Nat.not_lt,
    RingIndex.distance_le_iff_of_le _ _ _ hw]

theorem inRange_iff (r : OffsetRange) (offset : SafeStreamRingIndex)
    (hw : r.windowSize < 32768) (hr : r.begin.value ≤ r.end_.value) :
    r.inRange offset = true ↔
      r.begin.value ≤ offset.value ∧ offset.value ≤ r.end_.value ∧
        offset.value ≤ r.begin.value + r.windowSize ∧
        r.end_.value ≤ offset.value + r.windowSize := by
  have hb := RingIndex.distance_le_iff r.begin offset r.windowSize (by omega)
  have he := RingIndex.distance_le_iff offset r.end_ r.windowSize (by omega)
  simp only [inRange, Bool.and_eq_true, decide_eq_true_eq, hb, he]
  omega

/-- `before` also holds for a range that ends more than a window after `offset`. -/
theorem before_iff (r : OffsetRange) (offset : SafeStreamRingIndex)
    (hw : r.windowSize < 32768) :
    r.before offset = true ↔
      offset.value + r.windowSize < r.end_.value ∨
        (r.end_.value < offset.value ∧
          offset.value < r.end_.value + (65535 - r.windowSize)) := by
  have he := RingIndex.distance_le_iff offset r.end_ r.windowSize (by omega)
  simp only [before, decide_eq_true_eq, gt_iff_lt, ← Nat.not_le, he]
  omega

end OffsetRange
end AetherClient
