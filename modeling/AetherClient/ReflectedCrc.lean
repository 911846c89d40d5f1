import Mathlib.Algebra.GroupWithZero.Nat
import Mathlib.Tactic.Common

set_option autoImplicit false

namespace AetherClient.ReflectedCrc

section Register
variable {w : ℕ} (p : BitVec w)

/-- A turn of the register that a message bit enters. -/
def addBit (crc : BitVec w) (bit : Bool) : BitVec w :=
  if crc.getLsbD 0 ^^ bit then crc >>> 1 ^^^ p else crc >>> 1

def bitsOf {k : ℕ} (chunk : BitVec k) : List Bool := (List.range k).map chunk.getLsbD

def addChunk {k : ℕ} (crc : BitVec w) (chunk : BitVec k) : BitVec w :=
  (bitsOf chunk).foldl (addBit p) crc

def remainder {k : ℕ} (crc : BitVec w) (message : List (BitVec k)) : BitVec w :=
  (message.flatMap bitsOf).foldl (addBit p) crc

def shiftOut (x : BitVec w) : BitVec w := if x.getLsbD 0 then x >>> 1 ^^^ p else x >>> 1

def shiftOuts : ℕ → BitVec w → BitVec w
  | 0, x => x
  | n + 1, x => shiftOuts n (shiftOut p x)

theorem remainder_eq_foldl {k : ℕ} (crc : BitVec w) (message : List (BitVec k)) :
    remainder p crc message = message.foldl (addChunk p) crc :=
  List.foldl_flatMap

theorem remainder_append {k : ℕ} (crc : BitVec w) (first second : List (BitVec k)) :
    remainder p crc (first ++ second) = remainder p (remainder p crc first) second := by
  rw [remainder, List.flatMap_append, List.foldl_append]
  rfl

def feedback (out : Bool) : BitVec w := if out then p else 0#w

theorem feedback_xor (a b : Bool) : feedback p (a ^^ b) = feedback p a ^^^ feedback p b := by
  cases a <;> cases b <;> simp [feedback]

theorem addBit_eq (crc : BitVec w) (bit : Bool) :
    addBit p crc bit = crc >>> 1 ^^^ feedback p (crc.getLsbD 0 ^^ bit) := by
  unfold addBit feedback
  cases crc.getLsbD 0 ^^ bit <;> simp

theorem shiftOut_eq (x : BitVec w) : shiftOut p x = x >>> 1 ^^^ feedback p (x.getLsbD 0) := by
  unfold shiftOut feedback
  cases x.getLsbD 0 <;> simp

theorem shiftOut_xor (x y : BitVec w) :
    shiftOut p (x ^^^ y) = addBit p x (y.getLsbD 0) ^^^ y >>> 1 := by
  rw [shiftOut_eq, addBit_eq, BitVec.getLsbD_xor, BitVec.ushiftRight_xor_distrib]
  ac_rfl

theorem shiftOuts_xor (n : ℕ) (x y : BitVec w) :
    shiftOuts p n (x ^^^ y) = shiftOuts p n x ^^^ shiftOuts p n y := by
  induction n generalizing x y with
  | zero => rfl
  | succ n ih =>
    have hlinear : shiftOut p (x ^^^ y) = shiftOut p x ^^^ shiftOut p y := by
      rw [shiftOut_eq, shiftOut_eq, shiftOut_eq, BitVec.getLsbD_xor,
        BitVec.ushiftRight_xor_distrib, feedback_xor]
      ac_rfl
    rw [shiftOuts, hlinear, ih]
    rfl

theorem shiftOuts_of_low_zero (n : ℕ) (x : BitVec w) (h : ∀ i < n, x.getLsbD i = false) :
    shiftOuts p n x = x >>> n := by
  induction n generalizing x with
  | zero => rfl
  | succ n ih =>
    have hzero : x.getLsbD 0 = false := h 0 (Nat.succ_pos n)
    have hstep : shiftOut p x = x >>> 1 := by simp [shiftOut, hzero]
    rw [shiftOuts, hstep, ih]
    · rw [← BitVec.shiftRight_add, Nat.add_comm]
    · intro i hi
      rw [BitVec.getLsbD_ushiftRight]
      exact h (1 + i) (by omega)

theorem foldl_addBit (n : ℕ) (crc x : BitVec w) (h : x >>> n = 0#w) :
    ((List.range n).map x.getLsbD).foldl (addBit p) crc = shiftOuts p n (crc ^^^ x) := by
  induction n generalizing crc x with
  | zero =>
    have hx : x = 0#w := by simpa using h
    simp [shiftOuts, hx]
  | succ n ih =>
    have hrest : (List.range n).map (x.getLsbD ∘ Nat.succ) =
        (List.range n).map (x >>> 1).getLsbD := by
      apply List.map_congr_left
      intro i _
      rw [BitVec.getLsbD_ushiftRight, Nat.add_comm]
      rfl
    have hshift : x >>> 1 >>> n = 0#w := by
      rw [← BitVec.shiftRight_add, Nat.add_comm]
      exact h
    rw [List.range_succ_eq_map, List.map_cons, List.map_map, hrest, List.foldl_cons, ih _ _ hshift,
      shiftOuts, shiftOut_xor]

end Register

section Table
variable {w k : ℕ} (p : BitVec w)

/-- A chunk that enters bit by bit may as well be added at once, before the turns. -/
theorem addChunk_eq (hk : k ≤ w) (crc : BitVec w) (chunk : BitVec k) :
    addChunk p crc chunk = shiftOuts p k (crc ^^^ chunk.setWidth w) := by
  have hbits : bitsOf chunk = (List.range k).map (chunk.setWidth w).getLsbD := by
    apply List.map_congr_left
    intro i hi
    have hik := List.mem_range.1 hi
    rw [BitVec.getLsbD_setWidth, decide_eq_true (by omega), Bool.true_and]
  have hhigh : chunk.setWidth w >>> k = 0#w := by
    apply BitVec.eq_of_getLsbD_eq
    intro i _
    simp
  rw [addChunk, hbits, foldl_addBit p k crc _ hhigh]

/-- The turns of a whole chunk: those of the lowest bits, which a table can hold, and the rest of
the register moved down. -/
theorem addChunk_eq_table (hk : k ≤ w) (crc : BitVec w) (chunk : BitVec k) :
    addChunk p crc chunk =
      shiftOuts p k ((crc.setWidth k ^^^ chunk).setWidth w) ^^^ crc >>> k := by
  have hsplit : crc ^^^ chunk.setWidth w =
      (crc.setWidth k ^^^ chunk).setWidth w ^^^ (crc >>> k) <<< k := by
    apply BitVec.eq_of_getLsbD_eq
    intro i hi
    by_cases hik : i < k
    · simp [hik, hi]
    · have hback : k + (i - k) = i := by omega
      simp [hik, hi, hback, BitVec.getLsbD_of_ge chunk i (by omega)]
  have hlow : ∀ i < k, ((crc >>> k) <<< k).getLsbD i = false := by
    intro i hi
    simp [hi]
  have hback : (crc >>> k) <<< k >>> k = crc >>> k := by
    apply BitVec.eq_of_getLsbD_eq
    intro i hi
    by_cases hki : k + i < w
    · simp [hki]
    · simp [hki, BitVec.getLsbD_of_ge crc (k + i) (by omega)]
  rw [addChunk_eq p hk, hsplit, shiftOuts_xor, shiftOuts_of_low_zero p k _ hlow, hback]

end Table
end AetherClient.ReflectedCrc
