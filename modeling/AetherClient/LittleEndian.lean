import Mathlib.Data.List.Basic
import Mathlib.Data.Nat.Notation
import Mathlib.Tactic.Common
import Mathlib.Tactic.Ring

set_option autoImplicit false

namespace AetherClient.LittleEndian

def toBytes : ℕ → ℕ → List UInt8
  | 0, _ => []
  | w + 1, n => UInt8.ofNat n :: toBytes w (n / 256)

def ofBytes : List UInt8 → ℕ
  | [] => 0
  | b :: bs => b.toNat + 256 * ofBytes bs

@[simp] theorem length_toBytes (w n : ℕ) : (toBytes w n).length = w := by
  induction w generalizing n with
  | zero => rfl
  | succ w ih => simp [toBytes, ih]

theorem ofBytes_toBytes (w n : ℕ) : ofBytes (toBytes w n) = n % 256 ^ w := by
  induction w generalizing n with
  | zero => simp [toBytes, ofBytes, Nat.mod_one]
  | succ w ih =>
    have hbyte : (UInt8.ofNat n).toNat = n % 256 := UInt8.toNat_ofNat'
    rw [toBytes, ofBytes, ih, hbyte, Nat.pow_succ', Nat.mod_mul]

theorem ofBytes_toBytes_of_lt {w n : ℕ} (h : n < 256 ^ w) : ofBytes (toBytes w n) = n := by
  rw [ofBytes_toBytes, Nat.mod_eq_of_lt h]

theorem ofBytes_lt (bs : List UInt8) : ofBytes bs < 256 ^ bs.length := by
  induction bs with
  | nil => simp [ofBytes]
  | cons b bs ih =>
    have hb : b.toNat < 256 := b.toNat_lt
    rw [ofBytes, List.length_cons, Nat.pow_succ']
    omega

theorem toBytes_add_mul (bs : List UInt8) (n : ℕ) :
    toBytes bs.length (n * 256 ^ bs.length + ofBytes bs) = bs := by
  induction bs with
  | nil => rfl
  | cons b bs ih =>
    have hb : b.toNat < 256 := b.toNat_lt
    have hsplit : n * 256 ^ (bs.length + 1) + (b.toNat + 256 * ofBytes bs) =
        b.toNat + 256 * (n * 256 ^ bs.length + ofBytes bs) := by
      rw [Nat.pow_succ]
      ring
    have hdiv : (b.toNat + 256 * (n * 256 ^ bs.length + ofBytes bs)) / 256 =
        n * 256 ^ bs.length + ofBytes bs := by omega
    have hbyte : UInt8.ofNat (b.toNat + 256 * (n * 256 ^ bs.length + ofBytes bs)) = b := by
      apply UInt8.toNat_inj.mp
      rw [UInt8.toNat_ofNat', Nat.add_mul_mod_self_left, Nat.mod_eq_of_lt hb]
    rw [ofBytes, List.length_cons, hsplit, toBytes, hdiv, ih, hbyte]

theorem ofBytes_replicate (w : ℕ) : ofBytes (List.replicate w 255) = 256 ^ w - 1 := by
  induction w with
  | zero => rfl
  | succ w ih =>
    have hpos : 0 < 256 ^ w := Nat.pow_pos (by omega)
    have hbyte : (255 : UInt8).toNat = 255 := rfl
    rw [List.replicate_succ, ofBytes, ih, hbyte, Nat.pow_succ]
    omega

end AetherClient.LittleEndian
