import AetherClient.MstreamBuffers
import Mathlib.Tactic.Linarith

set_option autoImplicit false

/-!
# Packed integers

`Packed` writes small values in few bytes. The values are divided into ranges, one for
each of the types `uint8_t`, `uint16_t`, `uint32_t` and `uint64_t`, here numbered from 0.
The codes that a range leaves over (`borrowCount` of them) say that the value goes on in the
next range. `minMax` is the largest value that takes one byte.
-/
namespace AetherClient

namespace Limit

def digits (range : ℕ) : ℕ := 8 * 2 ^ range

def p (range : ℕ) : ℕ := 2 ^ (digits range / 2)

def borrowCount (minMax : UInt8) : ℕ → ℕ
  | 0 => 255 - minMax.toNat
  | range + 1 => p range

def maxStored (minMax : UInt8) : ℕ → ℕ
  | 0 => 256
  | range + 1 =>
    maxStored minMax range - borrowCount minMax range + borrowCount minMax range * 2 ^ digits range

def upper (minMax : UInt8) : ℕ → ℕ
  | 0 => 255 - borrowCount minMax 0 + 1
  | range + 1 => maxStored minMax (range + 1) - p range

theorem digits_succ (range : ℕ) : digits (range + 1) = digits range + digits range := by
  simp only [digits, Nat.pow_succ]
  omega

theorem two_pow_digits (range : ℕ) : 2 ^ digits range = 256 ^ 2 ^ range := by
  rw [digits, Nat.pow_mul]

section Bounds
variable (minMax : UInt8)

theorem borrowCount_lt (range : ℕ) : borrowCount minMax range < 2 ^ digits range := by
  cases range with
  | zero =>
    simp only [borrowCount, digits]
    omega
  | succ range =>
    have hpos : 0 < digits range := Nat.mul_pos (by omega) (Nat.two_pow_pos range)
    rw [borrowCount, p, digits_succ]
    exact Nat.pow_lt_pow_right (by omega) (by omega)

theorem borrowCount_le_maxStored (range : ℕ) :
    borrowCount minMax range ≤ maxStored minMax range := by
  cases range with
  | zero =>
    simp only [borrowCount, maxStored]
    omega
  | succ range =>
    have hp : p range ≤ 2 ^ digits range := Nat.pow_le_pow_right (by omega) (by omega)
    cases range with
    | zero =>
      simp only [borrowCount, maxStored, p, digits]
      omega
    | succ range =>
      have hone : 1 ≤ borrowCount minMax (range + 1) := Nat.two_pow_pos _
      have hmul := Nat.mul_le_mul_right (2 ^ digits (range + 1)) hone
      rw [borrowCount, maxStored]
      omega

theorem upper_add_borrowCount (range : ℕ) :
    upper minMax range + borrowCount minMax range = maxStored minMax range := by
  have hle := borrowCount_le_maxStored minMax range
  cases range with
  | zero =>
    simp only [upper, borrowCount, maxStored]
    omega
  | succ range => exact Nat.sub_add_cancel hle

theorem maxStored_succ (range : ℕ) :
    maxStored minMax (range + 1) =
      upper minMax range + borrowCount minMax range * 2 ^ digits range := by
  have hsum := upper_add_borrowCount minMax range
  rw [maxStored]
  omega

theorem maxStored_le (range : ℕ) : maxStored minMax range ≤ 2 ^ digits range := by
  induction range with
  | zero => simp [maxStored, digits]
  | succ range ih =>
    have hsum := upper_add_borrowCount minMax range
    have hlt := borrowCount_lt minMax range
    have hmul := Nat.mul_le_mul_right (2 ^ digits range) (Nat.succ_le_of_lt hlt)
    rw [maxStored_succ, digits_succ, Nat.pow_add]
    rw [Nat.succ_mul] at hmul
    omega

theorem borrowCount_pos {minMax : UInt8} (hm : minMax < 255) (range : ℕ) :
    0 < borrowCount minMax range := by
  cases range with
  | zero =>
    have hlt : minMax.toNat < 255 := hm
    simp only [borrowCount]
    omega
  | succ range => exact Nat.two_pow_pos _

theorem upper_le_upper_succ {minMax : UInt8} (hm : minMax < 255) (range : ℕ) :
    upper minMax range ≤ upper minMax (range + 1) := by
  have hone : 1 ≤ borrowCount minMax range := borrowCount_pos hm range
  have hp : p range ≤ 2 ^ digits range := Nat.pow_le_pow_right (by omega) (by omega)
  have hmul := Nat.mul_le_mul_right (2 ^ digits range) hone
  have hsum := upper_add_borrowCount minMax (range + 1)
  rw [maxStored_succ, borrowCount] at hsum
  omega

end Bounds

end Limit

inductive PackedDeserializeRes where
  | no
  | finished (value : ℕ)
  | next (value : ℕ)
deriving DecidableEq, Repr

def PackedDeserializeRes.value : PackedDeserializeRes → ℕ
  | .no => 0
  | .finished value => value
  | .next value => value

namespace Packed
open LittleEndian Limit

def serialize (minMax : UInt8) : ℕ → ℕ → List UInt8
  | 0, value => toBytes 1 value
  | range + 1, value =>
    if upper minMax range ≤ value then
      let modified := value - upper minMax range
      serialize minMax range
          ((modified / 2 ^ digits range + upper minMax range) % 2 ^ digits range) ++
        toBytes (2 ^ range) modified
    else serialize minMax range (value % 2 ^ digits range)

def settle (minMax : UInt8) (range value : ℕ) : PackedDeserializeRes :=
  if upper minMax range ≤ value then .next (value - upper minMax range) else .finished value

def deserialize (minMax : UInt8) : ℕ → VectorReader → PackedDeserializeRes × VectorReader
  | 0, is =>
    match is.read 1 with
    | (none, is) => (.no, is)
    | (some bytes, is) => (settle minMax 0 (ofBytes bytes), is)
  | range + 1, is =>
    match deserialize minMax range is with
    | (.no, is) => (.no, is)
    | (.finished high, is) => (.finished high, is)
    | (.next high, is) =>
      match is.read (2 ^ range) with
      | (none, is) => (.no, is)
      | (some low, is) =>
        (settle minMax (range + 1)
          ((high * 2 ^ digits range + ofBytes low + upper minMax range) % 2 ^ digits (range + 1)), is)

/-- `operator>>`: the value is taken as it stands, also where `Deserialize` asks for another
range. -/
def extract (minMax : UInt8) (range : ℕ) (is : VectorReader) : Option ℕ × VectorReader :=
  match deserialize minMax range is with
  | (.no, is) => (none, is)
  | (.finished value, is) => (some value, is)
  | (.next value, is) => (some value, is)

theorem deserialize_serialize {minMax : UInt8} (hm : minMax < 255) {range value : ℕ}
    (h : value < maxStored minMax range) (y : List UInt8) (offset : ℕ) (result : ReadResult) :
    deserialize minMax range ⟨serialize minMax range value ++ y, offset, result⟩ =
      (settle minMax range value,
        ⟨y, offset + (serialize minMax range value).length, .yes⟩) := by
  induction range generalizing value y offset result with
  | zero =>
    have hvalue : ofBytes (toBytes 1 value) = value := ofBytes_toBytes_of_lt (by simpa [maxStored] using h)
    simp only [serialize, deserialize, VectorReader.read_toBytes, hvalue, length_toBytes]
  | succ range ih =>
    have hsum := upper_add_borrowCount minMax range
    have hfit := maxStored_le minMax range
    by_cases hv : upper minMax range ≤ value
    · -- the high part is one of the codes that the range below leaves over
      have hhigh : (value - upper minMax range) / 2 ^ digits range < borrowCount minMax range := by
        rw [Nat.div_lt_iff_lt_mul (Nat.two_pow_pos _)]
        rw [maxStored_succ] at h
        omega
      generalize hmodified : value - upper minMax range = modified at hhigh
      have hmod : (modified / 2 ^ digits range + upper minMax range) % 2 ^ digits range =
          modified / 2 ^ digits range + upper minMax range := Nat.mod_eq_of_lt (by omega)
      have hvalue : modified / 2 ^ digits range * 2 ^ digits range +
          modified % 2 ^ digits range + upper minMax range = value := by
        have := Nat.div_add_mod' modified (2 ^ digits range)
        omega
      have hlow : ofBytes (toBytes (2 ^ range) modified) = modified % 2 ^ digits range := by
        rw [ofBytes_toBytes, two_pow_digits]
      have hbound : value < 2 ^ digits (range + 1) := Nat.lt_of_lt_of_le h (maxStored_le _ _)
      simp only [serialize, if_pos hv, hmodified, hmod, List.append_assoc, deserialize]
      rw [ih (by omega)]
      have hsettle : settle minMax range (modified / 2 ^ digits range + upper minMax range) =
          .next (modified / 2 ^ digits range) := by
        rw [settle, if_pos (Nat.le_add_left _ _), Nat.add_sub_cancel]
      simp only [hsettle, VectorReader.read_toBytes, hlow, hvalue, Nat.mod_eq_of_lt hbound,
        List.length_append, length_toBytes, Nat.add_assoc]
    · have hlt : value < 2 ^ digits range := by omega
      have hsettle : settle minMax range value = .finished value := if_neg hv
      have hnext : ¬ upper minMax (range + 1) ≤ value := by
        have := upper_le_upper_succ hm range
        omega
      simp only [serialize, if_neg hv, Nat.mod_eq_of_lt hlt, deserialize]
      rw [ih (by omega), hsettle, settle, if_neg hnext]

/-- The bytes `code` are one whole packed integer, whatever follows them. -/
def Codes (minMax : UInt8) (range : ℕ) (res : PackedDeserializeRes) (code : List UInt8) : Prop :=
  ∀ y offset result, deserialize minMax range ⟨code ++ y, offset, result⟩ =
    (res, ⟨y, offset + code.length, .yes⟩)

theorem Codes.append {minMax : UInt8} {range high : ℕ} {code : List UInt8}
    (h : Codes minMax range (.next high) code) {low : List UInt8} (hlow : low.length = 2 ^ range) :
    Codes minMax (range + 1)
      (settle minMax (range + 1)
        ((high * 2 ^ digits range + ofBytes low + upper minMax range) % 2 ^ digits (range + 1)))
      (code ++ low) := by
  intro y offset result
  rw [List.append_assoc, deserialize, h]
  simp only [← hlow, VectorReader.read_append, List.length_append, Nat.add_assoc]

theorem deserialize_cases (minMax : UInt8) (range : ℕ) (is : VectorReader) :
    ((deserialize minMax range is).1 = .no ∧ is.unread.length < 2 ^ range) ∨
    ∃ res code y, is.unread = code ++ y ∧ code ≠ [] ∧ code.length ≤ 2 ^ range ∧ res ≠ .no ∧
      Codes minMax range res code := by
  induction range with
  | zero =>
    cases h : is.unread with
    | nil =>
      left
      simp [deserialize, VectorReader.read_of_lt, h]
    | cons b y =>
      right
      refine ⟨settle minMax 0 (ofBytes [b]), [b], y, rfl, by simp, by simp, ?_, ?_⟩
      · unfold settle
        split <;> simp
      · intro y offset result
        rw [deserialize, show (1 : ℕ) = [b].length from rfl, VectorReader.read_append]
  | succ range ih =>
    have hpow : 2 ^ (range + 1) = 2 ^ range + 2 ^ range := by rw [Nat.pow_succ]; omega
    obtain ⟨hno, hlt⟩ | ⟨res, code, y, hunread, hne, hle, hres, hcodes⟩ := ih
    · left
      constructor
      · rw [deserialize]
        generalize deserialize minMax range is = d at hno
        obtain ⟨res, is'⟩ := d
        simp only at hno
        subst hno
        rfl
      · omega
    · have hrun : deserialize minMax range is = (res, ⟨y, is.offset + code.length, .yes⟩) := by
        have := hcodes y is.offset is.result
        rwa [← hunread] at this
      cases res with
      | no => exact absurd rfl hres
      | finished high =>
        right
        refine ⟨.finished high, code, y, hunread, hne, by omega, by simp, ?_⟩
        intro y offset result
        rw [deserialize, hcodes]
      | next high =>
        by_cases hy : y.length < 2 ^ range
        · left
          constructor
          · rw [deserialize, hrun]
            simp only [VectorReader.read, if_pos hy]
          · rw [hunread, List.length_append]
            omega
        · right
          have hlow : (y.take (2 ^ range)).length = 2 ^ range := by
            rw [List.length_take]
            omega
          refine ⟨_, code ++ y.take (2 ^ range), y.drop (2 ^ range), ?_, ?_, ?_, ?_,
            hcodes.append hlow⟩
          · rw [hunread, List.append_assoc, List.take_append_drop]
          · simp [hne]
          · rw [List.length_append, hlow]
            omega
          · unfold settle
            split <;> simp

theorem length_unread_deserialize_le (minMax : UInt8) (range : ℕ) (is : VectorReader) :
    (deserialize minMax range is).2.unread.length ≤ is.unread.length := by
  induction range with
  | zero =>
    have hread := is.length_unread_read_le 1
    rw [deserialize]
    split <;> next heq => rwa [heq] at hread
  | succ range ih =>
    rw [deserialize]
    split
    · next heq => rwa [heq] at ih
    · next heq => rwa [heq] at ih
    · next high is' heq =>
      rw [heq] at ih
      have hread := is'.length_unread_read_le (2 ^ range)
      split <;> next hlow => rw [hlow] at hread; exact Nat.le_trans hread ih

theorem deserialize_no {minMax : UInt8} {range : ℕ} {is is' : VectorReader}
    (h : deserialize minMax range is = (.no, is')) :
    is'.result = .no ∧ is'.unread.length < 2 ^ (range - 1) := by
  induction range generalizing is' with
  | zero =>
    rw [deserialize, VectorReader.read] at h
    split at h
    · next heq =>
      split at heq
      · cases heq
        cases h
        exact ⟨rfl, by assumption⟩
      · cases heq
    · simp only [settle, Prod.mk.injEq] at h
      split at h <;> cases h.1
  | succ range ih =>
    rw [deserialize] at h
    split at h
    · next heq =>
      cases h
      obtain ⟨hresult, hlt⟩ := ih heq
      exact ⟨hresult, Nat.lt_of_lt_of_le hlt (Nat.pow_le_pow_right (by omega) (by omega))⟩
    · cases h
    · rw [VectorReader.read] at h
      split at h
      · next heq =>
        split at heq
        · cases heq
          cases h
          exact ⟨rfl, by simpa⟩
        · cases heq
      · simp only [settle, Prod.mk.injEq] at h
        split at h <;> cases h.1

theorem value_settle_le (minMax : UInt8) (range value : ℕ) :
    PackedDeserializeRes.value (settle minMax range value) ≤ value := by
  unfold settle
  split <;> simp [PackedDeserializeRes.value]

theorem value_deserialize_lt (minMax : UInt8) (range : ℕ) (is : VectorReader) :
    PackedDeserializeRes.value (deserialize minMax range is).1 < 2 ^ digits range := by
  induction range with
  | zero =>
    rw [deserialize, VectorReader.read]
    split
    · exact Nat.two_pow_pos _
    · next heq =>
      split at heq
      · cases heq
      · next hlen =>
        cases heq
        refine Nat.lt_of_le_of_lt (value_settle_le minMax 0 _) ?_
        have hlt := ofBytes_lt (is.unread.take 1)
        rw [List.length_take, Nat.min_eq_left (by omega)] at hlt
        exact hlt
  | succ range ih =>
    have hmono : 2 ^ digits range ≤ 2 ^ digits (range + 1) :=
      Nat.pow_le_pow_right (by omega) (by rw [digits_succ]; omega)
    rw [deserialize]
    split
    · exact Nat.two_pow_pos _
    · next heq =>
      rw [heq] at ih
      exact Nat.lt_of_lt_of_le ih hmono
    · split
      · exact Nat.two_pow_pos _
      · exact Nat.lt_of_le_of_lt (value_settle_le minMax _ _) (Nat.mod_lt _ (Nat.two_pow_pos _))

/-- What a range hands on: a value of its own, or the part of a larger one that it borrows. -/
def Within (minMax : UInt8) (range : ℕ) : PackedDeserializeRes → Prop
  | .no => True
  | .finished value => value < upper minMax range
  | .next value => value < borrowCount minMax range

theorem within_settle {minMax : UInt8} {range value : ℕ} (h : value < maxStored minMax range) :
    Within minMax range (settle minMax range value) := by
  have hsum := upper_add_borrowCount minMax range
  unfold settle
  split
  · simp only [Within]
    omega
  · next hlt => exact Nat.not_le.mp hlt

theorem joined_lt_maxStored {minMax : UInt8} {range high : ℕ}
    (hhigh : high < borrowCount minMax range) {low : List UInt8} (hlow : low.length = 2 ^ range) :
    high * 2 ^ digits range + ofBytes low + upper minMax range < maxStored minMax (range + 1) := by
  have hlt := ofBytes_lt low
  rw [hlow, ← two_pow_digits] at hlt
  have hmul := Nat.mul_le_mul_right (2 ^ digits range) (Nat.succ_le_of_lt hhigh)
  rw [Nat.succ_mul] at hmul
  rw [maxStored_succ]
  omega

theorem within_deserialize {minMax : UInt8} (hm : minMax < 255) (range : ℕ) (is : VectorReader) :
    Within minMax range (deserialize minMax range is).1 := by
  induction range with
  | zero =>
    rw [deserialize]
    by_cases hlen : is.unread.length < 1
    · rw [VectorReader.read_of_lt hlen]
      trivial
    · rw [VectorReader.read_of_le (by omega)]
      have hlt := ofBytes_lt (is.unread.take 1)
      rw [List.length_take, Nat.min_eq_left (by omega)] at hlt
      exact within_settle hlt
  | succ range ih =>
    rw [deserialize]
    split
    · trivial
    · next heq =>
      rw [heq] at ih
      exact Nat.lt_of_lt_of_le ih (upper_le_upper_succ hm range)
    · next high is' heq =>
      rw [heq] at ih
      by_cases hlen : is'.unread.length < 2 ^ range
      · rw [VectorReader.read_of_lt hlen]
        trivial
      · simp only [VectorReader.read_of_le (Nat.not_lt.mp hlen)]
        have hlow : (is'.unread.take (2 ^ range)).length = 2 ^ range := by
          rw [List.length_take, Nat.min_eq_left (by omega)]
        have hstored := joined_lt_maxStored ih hlow
        rw [Nat.mod_eq_of_lt (Nat.lt_of_lt_of_le hstored (maxStored_le minMax _))]
        exact within_settle hstored

theorem serialize_of_lt {minMax : UInt8} (hm : minMax < 255) {r range value : ℕ} (hr : r ≤ range)
    (h : value < upper minMax r) : serialize minMax range value = serialize minMax r value := by
  induction hr with
  | refl => rfl
  | @step range hr ih =>
    have hmono : upper minMax r ≤ upper minMax range :=
      Nat.le_induction (Nat.le_refl _)
        (fun n _ hle => Nat.le_trans hle (upper_le_upper_succ hm n)) range hr
    have hstored : value < 2 ^ digits range := by
      have hsum := upper_add_borrowCount minMax range
      have hle := maxStored_le minMax range
      omega
    rw [serialize, if_neg (by omega), Nat.mod_eq_of_lt hstored]
    exact ih

theorem length_serialize_stored {minMax : UInt8} (hm : minMax < 255) {range value : ℕ}
    (hlow : ∀ r, range = r + 1 → upper minMax r ≤ value) (h : value < maxStored minMax range) :
    (serialize minMax range value).length = 2 ^ range := by
  induction range generalizing value with
  | zero => exact length_toBytes 1 value
  | succ range ih =>
    have hle := hlow range rfl
    have hsum := upper_add_borrowCount minMax range
    have hmax := maxStored_le minMax range
    rw [maxStored_succ] at h
    have hdiv : (value - upper minMax range) / 2 ^ digits range < borrowCount minMax range :=
      Nat.div_lt_of_lt_mul (by rw [Nat.mul_comm]; omega)
    have hlow' : ∀ r, range = r + 1 →
        upper minMax r ≤ (value - upper minMax range) / 2 ^ digits range + upper minMax range := by
      intro r hr
      rw [hr]
      exact Nat.le_trans (upper_le_upper_succ hm r) (Nat.le_add_left _ _)
    have hhigh := ih hlow' (by omega)
    rw [serialize, if_pos hle, List.length_append, Nat.mod_eq_of_lt (by omega), hhigh,
      length_toBytes, Nat.pow_succ]
    omega

theorem length_serialize_le (minMax : UInt8) (range value : ℕ) :
    (serialize minMax range value).length ≤ 2 ^ range := by
  induction range generalizing value with
  | zero => exact Nat.le_of_eq (length_toBytes 1 value)
  | succ range ih =>
    rw [serialize, Nat.pow_succ]
    split
    · have hhigh := ih (((value - upper minMax range) / 2 ^ digits range + upper minMax range) %
        2 ^ digits range)
      rw [List.length_append, length_toBytes]
      omega
    · have hlow := ih (value % 2 ^ digits range)
      omega

end Packed

/-- `Packed<std::uint64_t, std::uint8_t, 250>`, the type of packet lengths. -/
def packetSizeMax : UInt8 := 250

def packetSizeRange : ℕ := 3

namespace PacketSize

def serialize (size : ℕ) : List UInt8 := Packed.serialize packetSizeMax packetSizeRange size

def extract (is : VectorReader) : Option ℕ × VectorReader :=
  Packed.extract packetSizeMax packetSizeRange is

/-- The first value that `extract` does not give back. -/
def limit : ℕ := Limit.upper packetSizeMax packetSizeRange

def Codes (size : ℕ) (code : List UInt8) : Prop :=
  ∀ y offset result, extract ⟨code ++ y, offset, result⟩ =
    (some size, ⟨y, offset + code.length, .yes⟩)

theorem extract_cases (is : VectorReader) :
    ((extract is).1 = none ∧ is.unread.length < 8) ∨
    ∃ size code y, is.unread = code ++ y ∧ code ≠ [] ∧ code.length ≤ 8 ∧ Codes size code := by
  obtain ⟨hno, hlt⟩ | ⟨res, code, y, hunread, hne, hle, hres, hcodes⟩ :=
    Packed.deserialize_cases packetSizeMax packetSizeRange is
  · left
    refine ⟨?_, hlt⟩
    rw [extract, Packed.extract]
    generalize Packed.deserialize packetSizeMax packetSizeRange is = d at hno
    obtain ⟨res, is'⟩ := d
    simp only at hno
    subst hno
    rfl
  · right
    cases res with
    | no => exact absurd rfl hres
    | finished size =>
      refine ⟨size, code, y, hunread, hne, hle, ?_⟩
      intro y offset result
      rw [extract, Packed.extract, hcodes]
    | next size =>
      refine ⟨size, code, y, hunread, hne, hle, ?_⟩
      intro y offset result
      rw [extract, Packed.extract, hcodes]

theorem extract_none {is is' : VectorReader} (h : extract is = (none, is')) :
    is'.result = .no ∧ is'.unread.length < 4 ∧ is'.unread.length ≤ is.unread.length := by
  have hle := Packed.length_unread_deserialize_le packetSizeMax packetSizeRange is
  rw [extract, Packed.extract] at h
  split at h
  · next heq =>
    cases h
    obtain ⟨hresult, hlt⟩ := Packed.deserialize_no heq
    rw [heq] at hle
    exact ⟨hresult, hlt, hle⟩
  · cases h
  · cases h

theorem extract_lt {is is' : VectorReader} {size : ℕ} (h : extract is = (some size, is')) :
    size < 2 ^ 64 := by
  have hlt := Packed.value_deserialize_lt packetSizeMax packetSizeRange is
  rw [extract, Packed.extract] at h
  split at h
  · cases h
  · next heq =>
    cases h
    rw [heq] at hlt
    exact hlt
  · next heq =>
    cases h
    rw [heq] at hlt
    exact hlt

theorem extract_lt_limit {is is' : VectorReader} {size : ℕ} (h : extract is = (some size, is')) :
    size < limit := by
  have hwithin := Packed.within_deserialize (show packetSizeMax < 255 by decide) packetSizeRange is
  rw [extract, Packed.extract] at h
  split at h
  · cases h
  · next heq =>
    cases h
    rw [heq] at hwithin
    exact hwithin
  · next heq =>
    cases h
    rw [heq] at hwithin
    exact Nat.lt_of_lt_of_le hwithin (by decide)

theorem codes_serialize {size : ℕ} (h : size < limit) : Codes size (serialize size) := by
  have hstored : size < Limit.maxStored packetSizeMax packetSizeRange := by
    have := Limit.upper_add_borrowCount packetSizeMax packetSizeRange
    rw [limit] at h
    omega
  have hsettle : Packed.settle packetSizeMax packetSizeRange size = .finished size :=
    if_neg (Nat.not_le.mpr h)
  intro y offset result
  rw [extract, Packed.extract, serialize, Packed.deserialize_serialize (by decide) hstored, hsettle]

theorem Codes.extract_eq_some {size : ℕ} {code y : List UInt8} (h : Codes size code) (offset : ℕ)
    (result : ReadResult) : (extract ⟨code ++ y, offset, result⟩).1 = some size := by
  rw [h]

theorem codes_of_extract {size offset : ℕ} {code : List UInt8}
    (h : extract ⟨code, 0, .no⟩ = (some size, ⟨[], offset, .yes⟩)) : Codes size code := by
  obtain ⟨hnone, -⟩ | ⟨size', code', y, hx, -, -, hcodes⟩ := extract_cases ⟨code, 0, .no⟩
  · rw [h] at hnone
    simp at hnone
  · have hx : code = code' ++ y := hx
    rw [hx, hcodes] at h
    simp only [Prod.mk.injEq, Option.some.injEq, VectorReader.mk.injEq] at h
    obtain ⟨rfl, rfl, -⟩ := h
    rw [hx, List.append_nil]
    exact hcodes

theorem extract_eq_none_of_append {x y : List UInt8} {offset : ℕ} {result : ReadResult}
    (h : (extract ⟨x ++ y, offset, result⟩).1 = none) :
    (extract ⟨x, offset, result⟩).1 = none := by
  obtain ⟨hnone, -⟩ | ⟨size, code, z, hx, -, -, hcodes⟩ := extract_cases ⟨x, offset, result⟩
  · exact hnone
  · have hx : x = code ++ z := hx
    rw [hx, List.append_assoc, hcodes.extract_eq_some] at h
    exact absurd h (by simp)

theorem Codes.extract_eq_none {size : ℕ} {x z : List UInt8} (h : Codes size (x ++ z)) (hz : z ≠ [])
    (offset : ℕ) (result : ReadResult) : (extract ⟨x, offset, result⟩).1 = none := by
  obtain ⟨hnone, -⟩ | ⟨size', code, y, hx, -, -, hcodes⟩ := extract_cases ⟨x, offset, result⟩
  · exact hnone
  · have hlong := h [] offset result
    rw [show x ++ z ++ [] = code ++ (y ++ z) by simp [show x = code ++ y from hx], hcodes] at hlong
    simp [hz] at hlong

theorem length_serialize {size : ℕ} (h : size < 1049835) :
    (serialize size).length = if size < 251 then 1 else if size < 1515 then 2 else 4 := by
  have hm : packetSizeMax < 255 := by decide
  have h0 : Limit.upper packetSizeMax 0 = 251 := by decide
  have h1 : Limit.upper packetSizeMax 1 = 1515 := by decide
  have h2 : Limit.upper packetSizeMax 2 = 1049835 := by decide
  have hmax : ∀ r, size < Limit.upper packetSizeMax r → size < Limit.maxStored packetSizeMax r := by
    intro r hr
    exact Nat.lt_of_lt_of_le hr (Nat.le.intro (Limit.upper_add_borrowCount packetSizeMax r))
  split_ifs with hone htwo
  · rw [serialize, packetSizeRange, Packed.serialize_of_lt hm (Nat.zero_le 3) (h0 ▸ hone)]
    exact Packed.length_serialize_stored hm (fun r hr => by cases hr) (hmax 0 (h0 ▸ hone))
  · rw [serialize, packetSizeRange, Packed.serialize_of_lt hm (by decide : 1 ≤ 3) (h1 ▸ htwo)]
    apply Packed.length_serialize_stored hm _ (hmax 1 (h1 ▸ htwo))
    intro r hr
    obtain rfl : r = 0 := by omega
    omega
  · rw [serialize, packetSizeRange, Packed.serialize_of_lt hm (by decide : 2 ≤ 3) (h2 ▸ h)]
    apply Packed.length_serialize_stored hm _ (hmax 2 (h2 ▸ h))
    intro r hr
    obtain rfl : r = 1 := by omega
    omega

theorem length_serialize_le_eight (size : ℕ) : (serialize size).length ≤ 8 :=
  Packed.length_serialize_le packetSizeMax packetSizeRange size

/-- By how many bytes the length of a size from 1049835 on falls short of eight. -/
def lengthSaved (size : ℕ) : ℕ :=
  let high := ((size - 1049835) / 2 ^ 32 + 1049835) % 2 ^ 32
  if high < 251 then 3
  else if high < 1515 then 2
  else if 64021 ≤ (high - 1515) / 2 ^ 16 ∧ (high - 1515) / 2 ^ 16 < 64272 then 1
  else 0

theorem length_serialize_two (high : ℕ) (h : high < 2 ^ 32) :
    (Packed.serialize packetSizeMax 2 high).length =
      if high < 251 then 1 else if high < 1515 then 2
      else if 64021 ≤ (high - 1515) / 2 ^ 16 ∧ (high - 1515) / 2 ^ 16 < 64272 then 3 else 4 := by
  have h0 : Limit.upper packetSizeMax 0 = 251 := by decide
  have h1 : Limit.upper packetSizeMax 1 = 1515 := by decide
  have d0 : Limit.digits 0 = 8 := by decide
  have d1 : Limit.digits 1 = 16 := by decide
  simp only [Packed.serialize, h0, h1, d0, d1]
  split_ifs <;> simp only [List.length_append, LittleEndian.length_toBytes] <;> omega

theorem length_serialize_add_lengthSaved {size : ℕ} (h : 1049835 ≤ size) :
    (serialize size).length + lengthSaved size = 8 := by
  have h2 : Limit.upper packetSizeMax 2 = 1049835 := by decide
  have d2 : Limit.digits 2 = 32 := by decide
  rw [serialize, packetSizeRange, Packed.serialize, h2, d2, if_pos h, List.length_append,
    LittleEndian.length_toBytes, length_serialize_two _ (Nat.mod_lt _ (by decide)), lengthSaved]
  split_ifs <;> rfl

theorem lengthSaved_eq_zero {size : ℕ} (h : size < 2 ^ 63) : lengthSaved size = 0 := by
  rw [lengthSaved]
  split_ifs <;> omega

theorem length_serialize_mono {size size' : ℕ} (hle : size ≤ size') (h : size' < 1049835) :
    (serialize size).length ≤ (serialize size').length := by
  rw [length_serialize h, length_serialize (Nat.lt_of_le_of_lt hle h)]
  split_ifs <;> omega

end PacketSize

end AetherClient
