import AetherClient.PackedInt

set_option autoImplicit false

namespace AetherClient

namespace Packed
open LittleEndian Limit

theorem exists_first_range {minMax : UInt8} {range value : ℕ} (h : value < upper minMax range) :
    ∃ r ≤ range, value < upper minMax r ∧ ∀ s < r, upper minMax s ≤ value := by
  have hex : ∃ r, value < upper minMax r := ⟨range, h⟩
  refine ⟨Nat.find hex, Nat.find_min' hex h, Nat.find_spec hex, ?_⟩
  intro s hs
  exact Nat.not_lt.mp (Nat.find_min hex hs)

theorem lt_maxStored {minMax : UInt8} {range value : ℕ} (h : value < upper minMax range) :
    value < maxStored minMax range :=
  Nat.lt_of_lt_of_le h (Nat.le.intro (upper_add_borrowCount minMax range))

/-- The storage of range `r` is `2 ^ r` bytes wide. -/
theorem deserialize_finished_of_lt {minMax : UInt8} (hm : minMax < 255) {range value : ℕ}
    (h : value < upper minMax range) (trailing : List UInt8) (offset : ℕ) (result : ReadResult) :
    deserialize minMax range ⟨serialize minMax range value ++ trailing, offset, result⟩ =
        (.finished value,
          ⟨trailing, offset + (serialize minMax range value).length, .yes⟩) ∧
      ∃ r ≤ range, value < upper minMax r ∧ (∀ s < r, upper minMax s ≤ value) ∧
        (serialize minMax range value).length = 2 ^ r := by
  have hsettle : settle minMax range value = .finished value := if_neg (Nat.not_le.mpr h)
  constructor
  · rw [deserialize_serialize hm (lt_maxStored h), hsettle]
  · obtain ⟨r, hr, hlt, hfirst⟩ := exists_first_range h
    refine ⟨r, hr, hlt, hfirst, ?_⟩
    rw [serialize_of_lt hm hr hlt]
    apply length_serialize_stored hm _ (lt_maxStored hlt)
    intro s hs
    exact hfirst s (by omega)

theorem deserialize_finished_of_lt_kilobyte :
    deserialize 250 3 ⟨serialize 250 3 1000 ++ [7, 8], 0, .no⟩ = (.finished 1000, ⟨[7, 8], 2, .yes⟩) := by
  have h := (deserialize_finished_of_lt (show (250 : UInt8) < 255 by decide)
    (show 1000 < upper 250 3 by decide) [7, 8] 0 .no).1
  rw [h]
  decide

def stored (minMax : UInt8) (range : ℕ) : PackedDeserializeRes → ℕ
  | .no => 0
  | .finished value => value
  | .next value => value + upper minMax range

@[simp] theorem stored_settle (minMax : UInt8) (range value : ℕ) :
    stored minMax range (settle minMax range value) = value := by
  unfold settle
  split
  · next hle => exact Nat.sub_add_cancel hle
  · rfl

theorem serialize_joined {minMax : UInt8} {range high : ℕ}
    (hhigh : high < borrowCount minMax range) {low : List UInt8} (hlow : low.length = 2 ^ range) :
    serialize minMax (range + 1) (high * 2 ^ digits range + ofBytes low + upper minMax range) =
      serialize minMax range (high + upper minMax range) ++ low := by
  have hlt := ofBytes_lt low
  have hsum := upper_add_borrowCount minMax range
  have hmax := maxStored_le minMax range
  have hcode := toBytes_add_mul low high
  rw [hlow, ← two_pow_digits] at hlt hcode
  have hdiv : (high * 2 ^ digits range + ofBytes low) / 2 ^ digits range = high := by
    rw [Nat.mul_comm, Nat.mul_add_div (Nat.two_pow_pos _), Nat.div_eq_of_lt hlt, Nat.add_zero]
  rw [serialize, if_pos (Nat.le_add_left _ _)]
  simp only [Nat.add_sub_cancel, hdiv, hcode]
  rw [Nat.mod_eq_of_lt (by omega)]

theorem unread_of_deserialize {minMax : UInt8} (hm : minMax < 255) {range : ℕ}
    {is is' : VectorReader} {res : PackedDeserializeRes}
    (h : deserialize minMax range is = (res, is')) (hres : res ≠ .no) :
    is.unread = serialize minMax range (stored minMax range res) ++ is'.unread := by
  induction range generalizing res is' with
  | zero =>
    by_cases hlen : is.unread.length < 1
    · rw [deserialize, VectorReader.read_of_lt hlen] at h
      cases h
      exact absurd rfl hres
    · rw [deserialize, VectorReader.read_of_le (by omega)] at h
      cases h
      have htake : (is.unread.take 1).length = 1 := by
        rw [List.length_take]
        omega
      have hcode := toBytes_add_mul (is.unread.take 1) 0
      rw [htake, Nat.zero_mul, Nat.zero_add] at hcode
      rw [stored_settle, serialize, hcode, List.take_append_drop]
  | succ range ih =>
    have hwithin := within_deserialize hm range is
    rw [deserialize] at h
    split at h
    · cases h
      exact absurd rfl hres
    · next high is₁ heq =>
      cases h
      rw [heq] at hwithin
      have hbytes := ih heq (by simp)
      rw [stored] at hbytes ⊢
      rw [hbytes, serialize_of_lt hm (Nat.le_succ range) hwithin]
    · next high is₁ heq =>
      rw [heq] at hwithin
      have hbytes := ih heq (by simp)
      rw [stored] at hbytes
      by_cases hlen : is₁.unread.length < 2 ^ range
      · rw [VectorReader.read_of_lt hlen] at h
        cases h
        exact absurd rfl hres
      · rw [VectorReader.read_of_le (Nat.not_lt.mp hlen)] at h
        cases h
        have hlow : (is₁.unread.take (2 ^ range)).length = 2 ^ range := by
          rw [List.length_take, Nat.min_eq_left (by omega)]
        have hstored := joined_lt_maxStored hwithin hlow
        rw [Nat.mod_eq_of_lt (Nat.lt_of_lt_of_le hstored (maxStored_le minMax _)), stored_settle,
          serialize_joined hwithin hlow, List.append_assoc, List.take_append_drop]
        exact hbytes

/-- The bytes begin with a code that is kept for a range above `range`: in the first range a byte
above `minMax`, in the others `0xff` in the first half and again in the upper half of the second
half. -/
def Reserved (minMax : UInt8) : ℕ → List UInt8 → Prop
  | 0, bytes => ∃ code ∈ bytes.head?, minMax < code
  | range + 1, bytes =>
    bytes.take (2 ^ range) = List.replicate (2 ^ range) 255 ∧
      2 ^ range ≤ (bytes.drop (2 ^ range)).length ∧
      2 ^ digits range ≤ ofBytes ((bytes.drop (2 ^ range)).take (2 ^ range)) + p range

instance (minMax : UInt8) : ∀ range bytes, Decidable (Reserved minMax range bytes)
  | 0, _ => inferInstanceAs (Decidable (∃ _ ∈ _, _))
  | _ + 1, _ => inferInstanceAs (Decidable (_ ∧ _ ∧ _))

theorem serialize_last {minMax : UInt8} (hm : minMax < 255) (range : ℕ) :
    serialize minMax range (maxStored minMax range - 1) = List.replicate (2 ^ range) 255 := by
  induction range with
  | zero => rfl
  | succ range ih =>
    have hpos := borrowCount_pos hm range
    have hsum := upper_add_borrowCount minMax range
    have hones := ofBytes_replicate (2 ^ range)
    rw [← two_pow_digits] at hones
    have hdigits : 0 < 2 ^ digits range := Nat.two_pow_pos _
    have hmul : borrowCount minMax range * 2 ^ digits range =
        (borrowCount minMax range - 1) * 2 ^ digits range + 2 ^ digits range := by
      rw [← Nat.succ_mul, Nat.succ_eq_add_one, Nat.sub_add_cancel hpos]
    have hlast : maxStored minMax (range + 1) - 1 =
        (borrowCount minMax range - 1) * 2 ^ digits range +
          ofBytes (List.replicate (2 ^ range) 255) + upper minMax range := by
      rw [maxStored_succ, hones]
      omega
    have hhigh : borrowCount minMax range - 1 + upper minMax range = maxStored minMax range - 1 := by
      omega
    rw [hlast, serialize_joined (by omega) List.length_replicate, hhigh, ih,
      List.replicate_append_replicate, Nat.pow_succ, Nat.mul_two]

theorem upper_succ_le_joined_iff {minMax : UInt8} {range high : ℕ}
    (hhigh : high < borrowCount minMax range) {low : List UInt8} (hlow : low.length = 2 ^ range) :
    upper minMax (range + 1) ≤ high * 2 ^ digits range + ofBytes low + upper minMax range ↔
      high = borrowCount minMax range - 1 ∧ 2 ^ digits range ≤ ofBytes low + p range := by
  have hlt := ofBytes_lt low
  rw [hlow, ← two_pow_digits] at hlt
  have hp : p range ≤ 2 ^ digits range := Nat.pow_le_pow_right (by omega) (by omega)
  have hsum := upper_add_borrowCount minMax (range + 1)
  rw [maxStored_succ, borrowCount] at hsum
  obtain ⟨above, habove⟩ := Nat.exists_eq_add_of_lt hhigh
  have hmul : borrowCount minMax range * 2 ^ digits range =
      high * 2 ^ digits range + above * 2 ^ digits range + 2 ^ digits range := by
    rw [habove]
    ring
  cases above with
  | zero =>
    rw [Nat.zero_mul] at hmul
    omega
  | succ above =>
    -- two high parts are a whole low part away from each other, which is more than `p`
    rw [Nat.succ_mul] at hmul
    omega

theorem deserialize_zero_cons (minMax code : UInt8) (y : List UInt8) (offset : ℕ)
    (result : ReadResult) :
    deserialize minMax 0 ⟨code :: y, offset, result⟩ =
      (settle minMax 0 code.toNat, ⟨y, offset + 1, .yes⟩) := by
  simp [deserialize, VectorReader.read, ofBytes]

theorem reserved_of_next {minMax : UInt8} (hm : minMax < 255) {range value : ℕ}
    {is is' : VectorReader} (h : deserialize minMax range is = (.next value, is')) :
    Reserved minMax range is.unread := by
  cases range with
  | zero =>
    obtain ⟨unread, offset, result⟩ := is
    cases unread with
    | nil => cases h
    | cons code y =>
      rw [deserialize_zero_cons, settle] at h
      split at h
      · next hle =>
        refine ⟨code, rfl, ?_⟩
        simp only [upper, borrowCount] at hle
        have hbound : minMax.toNat < 256 := minMax.toNat_lt
        have hlt : minMax.toNat < code.toNat := by omega
        exact hlt
      · cases h
  | succ range =>
    have hwithin := within_deserialize hm range is
    rw [deserialize] at h
    split at h
    · cases h
    · cases h
    · next high is₁ heq =>
      rw [heq] at hwithin
      have hbytes := unread_of_deserialize hm heq (by simp)
      by_cases hlen : is₁.unread.length < 2 ^ range
      · rw [VectorReader.read_of_lt hlen] at h
        cases h
      · simp only [VectorReader.read_of_le (Nat.not_lt.mp hlen)] at h
        have hlow : (is₁.unread.take (2 ^ range)).length = 2 ^ range := by
          rw [List.length_take, Nat.min_eq_left (by omega)]
        have hstored := joined_lt_maxStored hwithin hlow
        rw [Nat.mod_eq_of_lt (Nat.lt_of_lt_of_le hstored (maxStored_le minMax _)), settle] at h
        split at h
        · next hle =>
          obtain ⟨hlast, hones⟩ := (upper_succ_le_joined_iff hwithin hlow).mp hle
          have hsum := upper_add_borrowCount minMax range
          have hpos := borrowCount_pos hm range
          have hmax : stored minMax range (.next high) = maxStored minMax range - 1 := by
            rw [stored]
            omega
          rw [hmax, serialize_last hm] at hbytes
          rw [hbytes]
          have hreplicate : (List.replicate (2 ^ range) (255 : UInt8)).length = 2 ^ range :=
            List.length_replicate
          refine ⟨?_, ?_, ?_⟩
          · rw [List.take_left' hreplicate]
          · rw [List.drop_left' hreplicate]
            omega
          · rwa [List.drop_left' hreplicate]
        · cases h

theorem next_of_reserved {minMax : UInt8} (hm : minMax < 255) {range : ℕ} {is : VectorReader}
    (h : Reserved minMax range is.unread) :
    ∃ value is', deserialize minMax range is = (.next value, is') := by
  obtain ⟨unread, offset, result⟩ := is
  cases range with
  | zero =>
    obtain ⟨code, hcode, hlt⟩ := h
    cases unread with
    | nil => cases hcode
    | cons code' y =>
      cases hcode
      have hlt : minMax.toNat < code.toNat := hlt
      have hle : upper minMax 0 ≤ code.toNat := by
        simp only [upper, borrowCount]
        omega
      rw [deserialize_zero_cons, settle, if_pos hle]
      exact ⟨_, _, rfl⟩
  | succ range =>
    obtain ⟨hfirst, hlen, hones⟩ := h
    have hsum := upper_add_borrowCount minMax range
    have hpos := borrowCount_pos hm range
    have hlast : settle minMax range (maxStored minMax range - 1) =
        .next (borrowCount minMax range - 1) := by
      rw [settle, if_pos (by omega)]
      congr 1
      omega
    have hunread : unread = serialize minMax range (maxStored minMax range - 1) ++
        unread.drop (2 ^ range) := by
      rw [serialize_last hm, ← hfirst, List.take_append_drop]
    have hlow : ((unread.drop (2 ^ range)).take (2 ^ range)).length = 2 ^ range := by
      rw [List.length_take, Nat.min_eq_left hlen]
    have hhigh : borrowCount minMax range - 1 < borrowCount minMax range := by omega
    have hstored := joined_lt_maxStored hhigh hlow
    have hle := (upper_succ_le_joined_iff hhigh hlow).mpr ⟨rfl, hones⟩
    have hread := deserialize_serialize hm
      (show maxStored minMax range - 1 < maxStored minMax range by omega)
      (unread.drop (2 ^ range)) offset result
    rw [hlast, ← hunread] at hread
    have hlowRead (offset : ℕ) := VectorReader.read_of_le
      (r := ⟨unread.drop (2 ^ range), offset, .yes⟩) hlen
    rw [deserialize, hread]
    simp only [hlowRead]
    rw [Nat.mod_eq_of_lt (Nat.lt_of_lt_of_le hstored (maxStored_le minMax _)), settle, if_pos hle]
    exact ⟨_, _, rfl⟩

theorem upper_pos (minMax : UInt8) (range : ℕ) (hm : minMax < 255) : 0 < upper minMax range := by
  induction range with
  | zero => exact Nat.succ_pos _
  | succ range ih => exact Nat.lt_of_lt_of_le ih (upper_le_upper_succ hm range)

theorem serialize_ne_of_next {minMax : UInt8} (hm : minMax < 255) {range value : ℕ}
    (h : value < borrowCount minMax range) :
    serialize minMax range value ≠ serialize minMax range (value + upper minMax range) := by
  intro hcodes
  have hsum := upper_add_borrowCount minMax range
  have hpos := upper_pos minMax range hm
  have hlow := deserialize_serialize hm (show value < maxStored minMax range by omega) [] 0 .no
  have hhigh := deserialize_serialize hm
    (show value + upper minMax range < maxStored minMax range by omega) [] 0 .no
  rw [hcodes, hhigh] at hlow
  have hstored := congrArg (fun read => stored minMax range read.1) hlow
  simp only [stored_settle] at hstored
  omega

theorem extract_canonical_iff {minMax : UInt8} (hm : minMax < 255) {range : ℕ} {is : VectorReader}
    (h : (extract minMax range is).2.result = .yes) :
    ∃ value consumed, (extract minMax range is).1 = some value ∧
      is.unread = consumed ++ (extract minMax range is).2.unread ∧
      (serialize minMax range value = consumed ↔ ¬ Reserved minMax range is.unread) := by
  have hwithin := within_deserialize hm range is
  rw [extract] at h ⊢
  generalize heq : deserialize minMax range is = read at h hwithin
  obtain ⟨res, is'⟩ := read
  cases res with
  | no =>
    have hno := (deserialize_no heq).1
    rw [h] at hno
    cases hno
  | finished value =>
    refine ⟨value, serialize minMax range value, rfl, unread_of_deserialize hm heq (by simp), ?_⟩
    refine ⟨fun _ hreserved => ?_, fun _ => rfl⟩
    obtain ⟨value', is'', hnext⟩ := next_of_reserved hm hreserved
    rw [heq] at hnext
    cases hnext
  | next value =>
    refine ⟨value, serialize minMax range (value + upper minMax range), rfl,
      unread_of_deserialize hm heq (by simp), ?_⟩
    refine ⟨fun hcodes => absurd hcodes (serialize_ne_of_next hm hwithin), fun hfree => ?_⟩
    exact absurd (reserved_of_next hm heq) hfree

/-- Two bytes of the length 1000 and one that follows. -/
theorem extract_canonical_iff_kilobyte :
    (extract 250 3 ⟨[253, 237, 9], 0, .no⟩).2.result = .yes ∧
      ∃ value consumed, (extract 250 3 ⟨[253, 237, 9], 0, .no⟩).1 = some value ∧
        [253, 237, 9] = consumed ++ (extract 250 3 ⟨[253, 237, 9], 0, .no⟩).2.unread ∧
        (serialize 250 3 value = consumed ↔ ¬ Reserved 250 3 [253, 237, 9]) :=
  ⟨by decide, extract_canonical_iff (by decide) (by decide)⟩

/-- The eight bytes are read as 0, which is written as one byte. -/
theorem extract_not_canonical :
    ¬ ∀ is : VectorReader, (PacketSize.extract is).2.result = .yes →
      ∃ value consumed, (PacketSize.extract is).1 = some value ∧
        is.unread = consumed ++ (PacketSize.extract is).2.unread ∧
        PacketSize.serialize value = consumed := by
  intro h
  obtain ⟨value, consumed, hvalue, hbytes, hcode⟩ :=
    h ⟨[255, 255, 255, 255, 0, 0, 255, 255], 0, .no⟩ (by decide)
  have hread : PacketSize.extract ⟨[255, 255, 255, 255, 0, 0, 255, 255], 0, .no⟩ =
      (some 0, ⟨[], 8, .yes⟩) := by decide
  rw [hread] at hvalue hbytes
  cases hvalue
  subst hcode
  exact absurd hbytes (by decide)

end Packed

end AetherClient
