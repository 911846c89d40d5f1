import AetherClient.LittleEndian

set_option autoImplicit false

namespace AetherClient

inductive ReadResult where
  | no
  | yes
deriving DecidableEq, Repr

theorem ReadResult.eq_no {result : ReadResult} (h : result ≠ .yes) : result = .no := by
  cases result
  · rfl
  · exact absurd rfl h

structure VectorReader where
  unread : List UInt8
  offset : ℕ := 0
  result : ReadResult := .no
deriving DecidableEq, Repr

namespace VectorReader

def read (r : VectorReader) (size : ℕ) : Option (List UInt8) × VectorReader :=
  if r.unread.length < size then (none, { r with result := .no })
  else (some (r.unread.take size), ⟨r.unread.drop size, r.offset + size, .yes⟩)

theorem read_append (x y : List UInt8) (offset : ℕ) (result : ReadResult) :
    read ⟨x ++ y, offset, result⟩ x.length = (some x, ⟨y, offset + x.length, .yes⟩) := by
  simp [read]

theorem read_toBytes (w n : ℕ) (y : List UInt8) (offset : ℕ) (result : ReadResult) :
    read ⟨LittleEndian.toBytes w n ++ y, offset, result⟩ w =
      (some (LittleEndian.toBytes w n), ⟨y, offset + w, .yes⟩) := by
  simpa using read_append (LittleEndian.toBytes w n) y offset result

theorem read_of_lt {r : VectorReader} {size : ℕ} (h : r.unread.length < size) :
    r.read size = (none, { r with result := .no }) := if_pos h

theorem read_of_le {r : VectorReader} {size : ℕ} (h : size ≤ r.unread.length) :
    r.read size =
      (some (r.unread.take size), ⟨r.unread.drop size, r.offset + size, .yes⟩) :=
  if_neg (Nat.not_lt.mpr h)

theorem length_unread_read_le (r : VectorReader) (size : ℕ) :
    (r.read size).2.unread.length ≤ r.unread.length := by
  unfold read
  split <;> simp

end VectorReader

end AetherClient
