import AetherClient.RingIndex
import Mathlib.Data.BitVec

set_option autoImplicit false

namespace AetherClient

namespace RingIndex
variable {max : ℕ}

theorem value_add [NeZero max] (x : RingIndex max) (val : ℕ) : (x + val).value =
    if x.value + val % max ≤ max then x.value + val % max else x.value + val % max - (max + 1) := by
  have hx := x.value_le
  have hv := mod_max_le max val
  change (if 0 < val then x.clockwise val else x).value = _
  split
  · unfold clockwise
    split
    · rw [if_neg (by omega)]
      simp only
      omega
    · rw [if_pos (by omega)]
  · next hzero =>
    obtain rfl : val = 0 := by omega
    simp [hx]

theorem value_sub (x : RingIndex max) (val : ℕ) : (x - val).value =
    if val % max ≤ x.value then x.value - val % max else max - (val % max - x.value) := by
  change (if 0 < val then x.counterClockwise val else x).value = _
  split
  · unfold counterClockwise
    split
    · rw [if_neg (by omega)]
    · rw [if_pos (by omega)]
  · next hzero =>
    obtain rfl : val = 0 := by omega
    simp

theorem sub_lt {x : RingIndex max} {n : ℕ} (hx : x.value < max) : (x - n).value < max := by
  rw [value_sub]
  split_ifs <;> omega

theorem value_distance (x y : RingIndex max) : x.distance y =
    if x.value ≤ y.value then y.value - x.value else max - x.value + y.value := by
  split
  · next h => exact distance_of_le h
  · next h => exact distance_of_gt (by omega)

section Laws
variable [NeZero max] {x : RingIndex max} {n m : ℕ}

theorem add_lt_iff (hn : n < max) : (x + n).value < max ↔ x.value + n ≠ max := by
  have hx := x.value_le
  rw [value_add, Nat.mod_eq_of_lt hn]
  split_ifs <;> omega

theorem add_sub_iff (hn : n < max) : x + n - n = x ↔ x.value + n ≤ max := by
  have hx := x.value_le
  rw [RingIndex.ext_iff, value_sub, value_add, Nat.mod_eq_of_lt hn]
  split_ifs <;> omega

theorem sub_add_iff (hn : n < max) : x - n + n = x ↔ n ≤ x.value := by
  have hx := x.value_le
  rw [RingIndex.ext_iff, value_add, value_sub, Nat.mod_eq_of_lt hn]
  split_ifs <;> omega

theorem add_add_iff (hn : n < max) (hx : x.value + n < max) :
    x + n + m = x + (n + m) % max ↔ n + m % max < max := by
  have hm : m % max < max := Nat.mod_lt m (by omega)
  have hlt : (n + m) % max < max := Nat.mod_lt _ (by omega)
  have hsum : (n + m) % max = (n + m % max) % max := by rw [Nat.add_mod, Nat.mod_eq_of_lt hn]
  rw [RingIndex.ext_iff, value_add, value_add, value_add, Nat.mod_eq_of_lt hn,
    Nat.mod_eq_of_lt hlt, if_pos (by omega : x.value + n ≤ max), hsum]
  by_cases hsmall : n + m % max < max
  · rw [Nat.mod_eq_of_lt hsmall]
    split_ifs <;> omega
  · have hwrap : (n + m % max) % max = n + m % max - max := by
      rw [Nat.mod_eq_sub_mod (Nat.not_lt.mp hsmall)]
      exact Nat.mod_eq_of_lt (by omega)
    rw [hwrap]
    split_ifs <;> omega

theorem distance_add (hn : n < max) (hx : x.value + n ≤ max) : x.distance (x + n) = n := by
  rw [value_distance, value_add, Nat.mod_eq_of_lt hn, if_pos hx]
  split_ifs <;> omega

end Laws
end RingIndex

@[ext] structure RingWord {w : ℕ} (max : BitVec w) where
  value : BitVec w
  value_le : value ≤ max

namespace RingWord
variable {w : ℕ} {max : BitVec w}

def index (x : RingWord max) : RingIndex max.toNat := ⟨x.value.toNat, BitVec.le_def.mp x.value_le⟩

theorem index_value (x : RingWord max) : x.index.value = x.value.toNat := rfl

theorem index_inj {x y : RingWord max} : x.index = y.index ↔ x = y := by
  rw [RingIndex.ext_iff, RingWord.ext_iff, BitVec.toNat_inj.symm]
  rfl

theorem toNat_room (x : RingWord max) : (max - x.value).toNat = max.toNat - x.value.toNat :=
  BitVec.toNat_sub_of_le x.value_le

def distance (x other : RingWord max) : BitVec w :=
  let a := max - x.value
  let b := max - other.value
  if b ≤ a then a - b else a + other.value

variable [NeZero max]

instance : NeZero max.toNat := ⟨fun h => NeZero.ne max (BitVec.eq_of_toNat_eq h)⟩

theorem umod_le (val : BitVec w) : val % max ≤ max := by
  rw [BitVec.le_def, BitVec.toNat_umod]
  exact RingIndex.mod_max_le max.toNat val.toNat

def ofVal (val : BitVec w) : RingWord max := ⟨val % max, umod_le val⟩

section Values
variable (x : RingWord max) (val : BitVec w)

theorem toNat_rest : (max - val % max).toNat = max.toNat - val.toNat % max.toNat := by
  rw [BitVec.toNat_sub_of_le (umod_le val), BitVec.toNat_umod]

theorem toNat_wrap (h : max - val % max < x.value) : (val % max - (max - x.value) - 1).toNat =
    val.toNat % max.toNat - (max.toNat - x.value.toNat) - 1 := by
  rw [BitVec.lt_def, toNat_rest] at h
  have hx := BitVec.le_def.mp x.value_le
  have hv := RingIndex.mod_max_le max.toNat val.toNat
  have hone : (1 : BitVec w).toNat = 1 := by
    have hw : w ≠ 0 := by
      rintro rfl
      exact NeZero.ne max (BitVec.eq_of_zero_length rfl)
    exact Nat.mod_eq_of_lt (Nat.one_lt_two_pow hw)
  have hfirst : (val % max - (max - x.value)).toNat =
      val.toNat % max.toNat - (max.toNat - x.value.toNat) := by
    rw [BitVec.toNat_sub_of_le, BitVec.toNat_umod, toNat_room]
    rw [BitVec.le_def, BitVec.toNat_umod, toNat_room]
    omega
  rw [BitVec.toNat_sub_of_le, hfirst, hone]
  rw [BitVec.le_def, hfirst, hone]
  omega

theorem toNat_step (h : ¬max - val % max < x.value) :
    (x.value + val % max).toNat = x.value.toNat + val.toNat % max.toNat := by
  rw [BitVec.lt_def, toNat_rest] at h
  have hv := RingIndex.mod_max_le max.toNat val.toNat
  have hmax := max.isLt
  rw [BitVec.toNat_add_of_lt, BitVec.toNat_umod]
  rw [BitVec.toNat_umod]
  omega

end Values

def clockwise (x : RingWord max) (val : BitVec w) : RingWord max :=
  if h : max - val % max < x.value then
    ⟨val % max - (max - x.value) - 1, by
      have hv := RingIndex.mod_max_le max.toNat val.toNat
      rw [BitVec.le_def, toNat_wrap x val h]
      omega⟩
  else
    ⟨x.value + val % max, by
      have hv := RingIndex.mod_max_le max.toNat val.toNat
      rw [BitVec.le_def, toNat_step x val h]
      rw [BitVec.lt_def, toNat_rest] at h
      omega⟩

theorem toNat_wrapBack (x : RingWord max) (val : BitVec w) (h : x.value < val % max) :
    (max - (val % max - x.value)).toNat =
      max.toNat - (val.toNat % max.toNat - x.value.toNat) := by
  have hv := RingIndex.mod_max_le max.toNat val.toNat
  have hback : (val % max - x.value).toNat = val.toNat % max.toNat - x.value.toNat := by
    rw [BitVec.toNat_sub_of_le (BitVec.le_of_lt h), BitVec.toNat_umod]
  rw [BitVec.toNat_sub_of_le, hback]
  rw [BitVec.le_def, hback]
  omega

omit [NeZero max] in
theorem toNat_stepBack (x : RingWord max) (val : BitVec w) (h : ¬x.value < val % max) :
    (x.value - val % max).toNat = x.value.toNat - val.toNat % max.toNat := by
  rw [BitVec.toNat_sub_of_le (BitVec.not_lt.mp h), BitVec.toNat_umod]

def counterClockwise (x : RingWord max) (val : BitVec w) : RingWord max :=
  if h : x.value < val % max then
    ⟨max - (val % max - x.value), by
      rw [BitVec.le_def, toNat_wrapBack x val h]
      omega⟩
  else
    ⟨x.value - val % max, by
      have hx := BitVec.le_def.mp x.value_le
      rw [BitVec.le_def, toNat_stepBack x val h]
      omega⟩

instance : HAdd (RingWord max) (BitVec w) (RingWord max) where
  hAdd x val := if 0 < val then x.clockwise val else x

instance : HSub (RingWord max) (BitVec w) (RingWord max) where
  hSub x val := if 0 < val then x.counterClockwise val else x

section Index
variable (x y : RingWord max) (val : BitVec w)

theorem index_clockwise : (x.clockwise val).index = x.index.clockwise val.toNat := by
  have hcond : max - val % max < x.value ↔
      max.toNat - val.toNat % max.toNat < x.index.value := by
    rw [BitVec.lt_def, toNat_rest]
    rfl
  apply RingIndex.ext
  unfold clockwise RingIndex.clockwise
  by_cases h : max - val % max < x.value
  · rw [dif_pos h, dif_pos (hcond.mp h)]
    exact toNat_wrap x val h
  · rw [dif_neg h, dif_neg (mt hcond.mpr h)]
    exact toNat_step x val h

theorem index_counterClockwise :
    (x.counterClockwise val).index = x.index.counterClockwise val.toNat := by
  have hcond : x.value < val % max ↔ x.index.value < val.toNat % max.toNat := by
    rw [BitVec.lt_def, BitVec.toNat_umod]
    rfl
  apply RingIndex.ext
  unfold counterClockwise RingIndex.counterClockwise
  by_cases h : x.value < val % max
  · rw [dif_pos h, if_pos (hcond.mp h)]
    exact toNat_wrapBack x val h
  · rw [dif_neg h, if_neg (mt hcond.mpr h)]
    exact toNat_stepBack x val h

theorem index_add : (x + val).index = x.index + val.toNat := by
  change (if 0 < val then x.clockwise val else x).index =
    if 0 < val.toNat then x.index.clockwise val.toNat else x.index
  have hcond : 0 < val ↔ 0 < val.toNat := by simp [BitVec.lt_def]
  by_cases h : 0 < val
  · rw [if_pos h, if_pos (hcond.mp h), index_clockwise]
  · rw [if_neg h, if_neg (mt hcond.mpr h)]

theorem index_sub : (x - val).index = x.index - val.toNat := by
  change (if 0 < val then x.counterClockwise val else x).index =
    if 0 < val.toNat then x.index.counterClockwise val.toNat else x.index
  have hcond : 0 < val ↔ 0 < val.toNat := by simp [BitVec.lt_def]
  by_cases h : 0 < val
  · rw [if_pos h, if_pos (hcond.mp h), index_counterClockwise]
  · rw [if_neg h, if_neg (mt hcond.mpr h)]

omit [NeZero max] in
theorem toNat_distance : (x.distance y).toNat = x.index.distance y.index := by
  have hx := BitVec.le_def.mp x.value_le
  have hy := BitVec.le_def.mp y.value_le
  have hmax := max.isLt
  have hcond : max - y.value ≤ max - x.value ↔
      max.toNat - y.index.value ≤ max.toNat - x.index.value := by
    rw [BitVec.le_def, toNat_room, toNat_room]
    rfl
  simp only [distance, RingIndex.distance]
  by_cases h : max - y.value ≤ max - x.value
  · rw [if_pos h, if_pos (hcond.mp h), BitVec.toNat_sub_of_le h, toNat_room, toNat_room]
    rfl
  · rw [if_neg h, if_neg (mt hcond.mpr h), BitVec.toNat_add_of_lt, toNat_room]
    · rfl
    · rw [BitVec.le_def, toNat_room, toNat_room] at h
      rw [toNat_room]
      omega

end Index

/-- All operations stay in `[0, Max)`, adding and subtracting undo each other, steps add up modulo
`Max`, and the distance is the step. -/
structure Laws (x : RingWord max) (n m : BitVec w) : Prop where
  ofVal_lt : (ofVal m : RingWord max).value < max
  add_lt : (x + n).value < max
  sub_lt : (x - n).value < max
  add_sub : x + n - n = x
  sub_add : x - n + n = x
  add_add : x + n + m = x + BitVec.ofNat w ((n.toNat + m.toNat) % max.toNat)
  distance_add : x.distance (x + n) = n

theorem laws_iff (x : RingWord max) {n : BitVec w} (m : BitVec w) (hn : n < max) :
    x.Laws n m ↔ n ≤ x.value ∧ x.value.toNat + n.toNat < max.toNat ∧
      n.toNat + m.toNat % max.toNat < max.toNat := by
  rw [BitVec.lt_def] at hn
  have hadd : (x + n).value < max ↔ x.value.toNat + n.toNat ≠ max.toNat := by
    rw [BitVec.lt_def, ← index_value, index_add, RingIndex.add_lt_iff hn, index_value]
  have haddSub : x + n - n = x ↔ x.value.toNat + n.toNat ≤ max.toNat := by
    rw [← index_inj, index_sub, index_add, RingIndex.add_sub_iff hn, index_value]
  have hsubAdd : x - n + n = x ↔ n ≤ x.value := by
    rw [← index_inj, index_add, index_sub, RingIndex.sub_add_iff hn, BitVec.le_def, index_value]
  have haddAdd (hx : x.value.toNat + n.toNat < max.toNat) :
      x + n + m = x + BitVec.ofNat w ((n.toNat + m.toNat) % max.toNat) ↔
        n.toNat + m.toNat % max.toNat < max.toNat := by
    have hsum : (n.toNat + m.toNat) % max.toNat < 2 ^ w :=
      Nat.lt_trans (Nat.mod_lt _ (Nat.zero_lt_of_lt hx)) max.isLt
    rw [← index_inj, index_add, index_add, index_add, BitVec.toNat_ofNat, Nat.mod_eq_of_lt hsum]
    exact RingIndex.add_add_iff hn hx
  constructor
  · intro h
    have hx : x.value.toNat + n.toNat < max.toNat :=
      Nat.lt_of_le_of_ne (haddSub.mp h.add_sub) (hadd.mp h.add_lt)
    exact ⟨hsubAdd.mp h.sub_add, hx, (haddAdd hx).mp h.add_add⟩
  · rintro ⟨hle, hx, hm⟩
    refine ⟨?_, hadd.mpr (Nat.ne_of_lt hx), ?_, haddSub.mpr (Nat.le_of_lt hx), hsubAdd.mpr hle,
      (haddAdd hx).mpr hm, ?_⟩
    · rw [BitVec.lt_def]
      show (m % max).toNat < _
      rw [BitVec.toNat_umod]
      exact Nat.mod_lt _ (Nat.zero_lt_of_lt hx)
    · rw [BitVec.lt_def, ← index_value, index_sub]
      exact RingIndex.sub_lt (Nat.lt_of_le_of_lt (Nat.le_add_right _ _) hx)
    · rw [← BitVec.toNat_inj, toNat_distance, index_add]
      exact RingIndex.distance_add hn (Nat.le_of_lt hx)

instance : NeZero 65535#16 := ⟨by decide⟩

/-- A step from the middle of the ring and back. -/
theorem laws_iff_inside : 7#16 < 65535#16 ∧
    ((⟨1000#16, by decide⟩ : RingWord 65535#16).Laws 7#16 9#16 ↔
      7#16 ≤ 1000#16 ∧ 1000 + 7 < 65535 ∧ 7 + 9 % 65535 < 65535) :=
  ⟨by decide, laws_iff ⟨1000#16, by decide⟩ 9#16 (by decide)⟩

/-- The step from the last index reaches `Max` itself. -/
theorem add_reaches_max : ¬∀ (w : ℕ) (max : BitVec w) [NeZero max] (x : RingWord max)
    (n m : BitVec w), x.value < max → n < max → m < max → x.Laws n m := by
  intro h
  have hlast := (h 16 65535#16 ⟨65534#16, by decide⟩ 1#16 0#16 (by decide) (by decide) (by decide)).add_lt
  exact absurd hlast (by decide)

end RingWord
end AetherClient
