import Mathlib.Algebra.GroupWithZero.Nat
import Mathlib.Data.List.Basic
import Mathlib.Tactic.Common

set_option autoImplicit false

/-!
# Ring indices

`RingIndex max` is the index type of `ring_buffer.h`. The header promises a value
in `[0, Max)`; `clockwise` lets the value reach `Max` itself and wraps with period
`Max + 1`, while the constructor, `counterClockwise` and `distance` wrap with period
`Max`. What every operation does keep is `value ≤ max`, so that bound is a field.
-/
namespace AetherClient

@[ext] structure RingIndex (max : ℕ) where
  value : ℕ
  value_le : value ≤ max
deriving DecidableEq, Repr

namespace RingIndex

theorem mod_max_le (max val : ℕ) [NeZero max] : val % max ≤ max :=
  Nat.le_of_lt (Nat.mod_lt val (Nat.pos_of_ne_zero (NeZero.ne max)))

section Operations
variable {max : ℕ} [NeZero max]

def ofVal (val : ℕ) : RingIndex max := ⟨val % max, mod_max_le max val⟩

instance : Inhabited (RingIndex max) := ⟨ofVal 0⟩

def clockwise (x : RingIndex max) (val : ℕ) : RingIndex max :=
  if h : max - val % max < x.value then
    ⟨val % max - (max - x.value) - 1, by have := mod_max_le max val; omega⟩
  else
    ⟨x.value + val % max, by have := mod_max_le max val; omega⟩

def counterClockwise (x : RingIndex max) (val : ℕ) : RingIndex max :=
  if x.value < val % max then
    ⟨max - (val % max - x.value), Nat.sub_le _ _⟩
  else
    ⟨x.value - val % max, Nat.le_trans (Nat.sub_le _ _) x.value_le⟩

/-- `operator+` leaves the index alone for a zero step. -/
instance : HAdd (RingIndex max) ℕ (RingIndex max) where
  hAdd x val := if 0 < val then x.clockwise val else x

instance : HSub (RingIndex max) ℕ (RingIndex max) where
  hSub x val := if 0 < val then x.counterClockwise val else x

end Operations

section Distance
variable {max : ℕ}

def distance (x other : RingIndex max) : ℕ :=
  let a := max - x.value
  let b := max - other.value
  if b ≤ a then a - b else a + other.value

theorem distance_of_le {x y : RingIndex max} (h : x.value ≤ y.value) :
    x.distance y = y.value - x.value := by
  have := y.value_le
  simp only [distance]
  split_ifs <;> omega

@[simp]
theorem distance_self (x : RingIndex max) : x.distance x = 0 := by
  rw [distance_of_le (Nat.le_refl _), Nat.sub_self]

theorem distance_of_gt {x y : RingIndex max} (h : y.value < x.value) :
    x.distance y = max - x.value + y.value := by
  have := x.value_le
  simp only [distance]
  split_ifs <;> omega

/-- The ring test `distance ≤ w` reads "at most `w` ahead", or so far behind that the
gap is at least `max - w`. -/
theorem distance_le_iff_of_le (x y : RingIndex max) (w : ℕ) (hw : w ≤ max) :
    x.distance y ≤ w ↔
      (x.value ≤ y.value ∧ y.value ≤ x.value + w) ∨ y.value + (max - w) ≤ x.value := by
  have hx := x.value_le
  rcases Nat.lt_or_ge y.value x.value with h | h
  · rw [distance_of_gt h]
    omega
  · rw [distance_of_le h]
    omega

theorem distance_le_iff (x y : RingIndex max) (w : ℕ) (hw : w < max) :
    x.distance y ≤ w ↔
      (x.value ≤ y.value ∧ y.value ≤ x.value + w) ∨ y.value + (max - w) ≤ x.value :=
  distance_le_iff_of_le x y w (Nat.le_of_lt hw)

theorem distance_lt_iff (x y : RingIndex max) (w : ℕ) (hw : w < max) :
    x.distance y < w ↔
      (x.value ≤ y.value ∧ y.value < x.value + w) ∨ y.value + (max - w) < x.value := by
  have hx := x.value_le
  rcases Nat.lt_or_ge y.value x.value with h | h
  · rw [distance_of_gt h]
    omega
  · rw [distance_of_le h]
    omega

end Distance

section Values
variable {max : ℕ} [NeZero max]

theorem ofVal_value (val : ℕ) (h : val < max) : (ofVal val : RingIndex max).value = val :=
  Nat.mod_eq_of_lt h

@[simp] theorem ofVal_zero_value : (ofVal 0 : RingIndex max).value = 0 := Nat.zero_mod max

theorem clockwise_value (x : RingIndex max) (val : ℕ) (hv : val < max)
    (h : x.value + val ≤ max) : (x.clockwise val).value = x.value + val := by
  have hm : val % max = val := Nat.mod_eq_of_lt hv
  have hn : ¬ max - val % max < x.value := by omega
  rw [clockwise, dif_neg hn]
  exact congrArg (x.value + ·) hm

theorem add_value (x : RingIndex max) (val : ℕ) (hv : val < max)
    (h : x.value + val ≤ max) : (x + val).value = x.value + val := by
  change (if 0 < val then x.clockwise val else x).value = _
  split_ifs with hp
  · exact clockwise_value x val hv h
  · omega

omit [NeZero max] in
theorem sub_value (x : RingIndex max) (val : ℕ) (hv : val < max)
    (h : val ≤ x.value) : (x - val).value = x.value - val := by
  change (if 0 < val then x.counterClockwise val else x).value = _
  have hm : val % max = val := Nat.mod_eq_of_lt hv
  split_ifs with hp
  · have hn : ¬ x.value < val % max := by omega
    rw [counterClockwise, if_neg hn]
    exact congrArg (x.value - ·) hm
  · omega

end Values
end RingIndex
end AetherClient
