import AetherClient.MstreamTruncation

set_option autoImplicit false

namespace AetherClient
open LittleEndian Ty Read

/-- Whatever is left of the value's bytes, reading it into any target ends with `no`. -/
def TruncationNoticed (lib : StdLibrary) (overflow : Overflow) (sizeType : LengthType) (t : Ty)
    (v : t.Value) : Prop :=
  ∀ (target : t.Value) (x y : List UInt8) (offset : ℕ) (result : ReadResult),
    encode lib sizeType t v = x ++ y → y ≠ [] →
      (decode lib overflow sizeType t target ⟨x, offset, result⟩).2.result = .no

theorem noticed_of_guarded {lib : StdLibrary} {sizeType : LengthType} {t : Ty}
    (h : t.guarded sizeType true = true) (overflow : Overflow) (v : t.Value)
    (hfits : Fits lib sizeType.countedLimits t v) :
    TruncationNoticed lib overflow sizeType t v := by
  intro target x y offset result hcode hy
  rw [decode_sameWay lib overflow sizeType t target t.fresh]
  exact (cutOff_encode t h v hfits x y offset result hcode hy).no rfl

namespace Ty

def blockSize : Ty → Option ℕ
  | int w => some w.bytes
  | enum w => some w.bytes
  | timePoint => some 8
  | array n t => t.scalar.map fun w => (n + 1) * w.bytes
  | _ => none

def flat : Ty → Bool
  | pair a b => a.flat && b.flat
  | field t rest => t.flat && rest.flat
  | lastField t => t.flat
  | t => t.blockSize.isSome

def size : Ty → ℕ
  | pair a b => a.size + b.size
  | field t rest => t.size + rest.size
  | lastField t => t.size
  | t => t.blockSize.getD 0

def after : Ty → ℕ → ℕ
  | pair a b, n => b.after (a.after n)
  | field t rest, n => rest.after (t.after n)
  | lastField t, n => t.after n
  | t, n => if n < t.size then n else n - t.size

def succeeds : Ty → ℕ → Bool
  | pair a b, n => b.succeeds (a.after n)
  | field t rest, n => rest.succeeds (t.after n)
  | lastField t, n => t.succeeds n
  | t, n => decide (t.size ≤ n)

end Ty

structure ReadAsBlock (sizeType : LengthType) (t : Ty) (w : ℕ) : Prop where
  size : t.size = w
  after : ∀ n, t.after n = if n < w then n else n - w
  succeeds : ∀ n, t.succeeds n = decide (w ≤ n)
  left : ∀ m, t.left sizeType m = max (m - w) (min m w)
  fails : ∀ m, t.fails sizeType m = decide (m ≤ w)
  cutLeaves : t.cutLeaves sizeType = w
  guarded : ∀ noticed, t.guarded sizeType noticed = true
  unordered : t.unordered = false

section Block
variable {t : Ty} {w : ℕ}

theorem guarded_scalar (sizeType : LengthType) {w : Width} (h : t.scalar = some w) (noticed : Bool) :
    t.guarded sizeType noticed = true ∧ t.unordered = false := by
  cases t with
  | int _ | enum _ => exact ⟨rfl, rfl⟩
  | _ => simp [scalar] at h

theorem readAsBlock (sizeType : LengthType) (h : t.blockSize = some w) :
    ReadAsBlock sizeType t w := by
  cases t with
  | int w' | enum w' =>
    obtain rfl : w'.bytes = w := by simpa [blockSize] using h
    exact ⟨rfl, fun _ => rfl, fun _ => rfl, fun _ => rfl, fun _ => rfl, rfl, fun _ => rfl, rfl⟩
  | timePoint =>
    obtain rfl : 8 = w := by simpa [blockSize] using h
    exact ⟨rfl, fun _ => rfl, fun _ => rfl, fun _ => rfl, fun _ => rfl, rfl, fun _ => rfl, rfl⟩
  | array n t =>
    have hsize : (array n t).size = w := by simp only [Ty.size, h, Option.getD_some]
    obtain ⟨w', hscalar, rfl⟩ := Option.map_eq_some_iff.mp h
    have hguarded := guarded_scalar sizeType hscalar true
    have htakes : (array n t).takes sizeType = (n + 1) * w'.bytes := by
      rw [Ty.takes, takes_scalar sizeType hscalar]
    have hleaves : (array n t).leaves = (n + 1) * w'.bytes := by simp only [Ty.leaves, hscalar]
    refine ⟨hsize, fun n => ?_, fun n => ?_, fun m => ?_, fun m => ?_, ?_, fun _ => hguarded.1,
      hguarded.2⟩
    · simp only [Ty.after, hsize]
    · simp only [Ty.succeeds, hsize]
    · simp only [Ty.left, htakes, hleaves]
    · simp only [Ty.fails, htakes]
    · simp only [Ty.cutLeaves, hscalar]
  | _ => simp [blockSize] at h

theorem block_snd {α : Type} (is : VectorReader) (n : ℕ) (target : α) (ofBytes : List UInt8 → α) :
    (block is n target ofBytes).2 = (is.read n).2 := by
  rw [block]
  split <;> next heq => rw [heq]

theorem decode_block (lib : StdLibrary) (overflow : Overflow) (sizeType : LengthType)
    (h : t.blockSize = some w) (target : t.Value) (is : VectorReader) :
    (decode lib overflow sizeType t target is).2 = (is.read w).2 := by
  cases t with
  | int w' | enum w' | timePoint =>
    obtain rfl := Option.some.inj h
    exact block_snd is _ _ _
  | array n t =>
    obtain ⟨w', hscalar, rfl⟩ := Option.map_eq_some_iff.mp h
    simp only [decode, Read.array, hscalar]
    exact block_snd is _ _ _
  | _ => simp [blockSize] at h

theorem length_encode_block (lib : StdLibrary) (sizeType : LengthType) (h : t.blockSize = some w)
    (v : t.Value) : (encode lib sizeType t v).length = w := by
  cases t with
  | int w' | enum w' | timePoint =>
    obtain rfl := Option.some.inj h
    exact length_toBytes _ _
  | array n t =>
    obtain ⟨w', hscalar, rfl⟩ := Option.map_eq_some_iff.mp h
    simp only [encode]
    rw [length_flatMap_scalar lib sizeType hscalar, v.2]
  | _ => simp [blockSize] at h

theorem fits_fresh_block (lib : StdLibrary) (limits : SizeLimits) (h : t.blockSize = some w) :
    Fits lib limits t t.fresh := by
  cases t with
  | int w' | enum w' => trivial
  | timePoint => exact ⟨dvd_zero _, show (-2 ^ 63 : ℤ) ≤ 0 by decide, show (0 : ℤ) < 2 ^ 63 by decide⟩
  | array n t =>
    obtain ⟨w', hscalar, -⟩ := Option.map_eq_some_iff.mp h
    exact fun x _ => fits_scalar lib hscalar x
  | _ => simp [blockSize] at h

end Block

section Flat
variable {lib : StdLibrary} {overflow : Overflow} {sizeType : LengthType} {t : Ty}

theorem decode_flat (hflat : t.flat = true) (target : t.Value) (is : VectorReader) :
    (decode lib overflow sizeType t target is).2.unread.length = t.after is.unread.length ∧
      ((decode lib overflow sizeType t target is).2.result = .yes ↔
        t.succeeds is.unread.length = true) := by
  induction t generalizing is with
  | pair a b iha ihb | field a b iha ihb =>
    obtain ⟨ha, hb⟩ := (Bool.and_eq_true _ _).mp hflat
    have hfirst := (iha ha target.1 is).1
    have hsecond := ihb hb target.2 (decode lib overflow sizeType a target.1 is).2
    rw [hfirst] at hsecond
    exact hsecond
  | lastField t ih => exact ih hflat target is
  | _ =>
    obtain ⟨w, hw⟩ := Option.isSome_iff_exists.mp hflat
    have hblock := readAsBlock sizeType hw
    rw [decode_block lib overflow sizeType hw, hblock.after, hblock.succeeds, VectorReader.read,
      decide_eq_true_eq]
    split
    · next hlt =>
      refine ⟨rfl, ?_, fun hle => absurd hlt (Nat.not_lt.mpr hle)⟩
      intro hread
      cases hread
    · next hge => exact ⟨List.length_drop, fun _ => Nat.not_lt.mp hge, fun _ => rfl⟩

theorem length_encode_flat (lib : StdLibrary) (sizeType : LengthType) (hflat : t.flat = true)
    (v : t.Value) : (encode lib sizeType t v).length = t.size := by
  induction t with
  | pair a b iha ihb | field a b iha ihb =>
    obtain ⟨ha, hb⟩ := (Bool.and_eq_true _ _).mp hflat
    simp only [encode, List.length_append, iha ha v.1, ihb hb v.2, size]
  | lastField t ih => exact ih hflat v
  | _ =>
    obtain ⟨w, hw⟩ := Option.isSome_iff_exists.mp hflat
    rw [length_encode_block lib sizeType hw, (readAsBlock sizeType hw).size]

theorem fits_fresh_flat (lib : StdLibrary) (limits : SizeLimits) (hflat : t.flat = true) :
    Fits lib limits t t.fresh := by
  induction t with
  | pair a b iha ihb | field a b iha ihb =>
    obtain ⟨ha, hb⟩ := (Bool.and_eq_true _ _).mp hflat
    exact ⟨iha ha, ihb hb⟩
  | lastField t ih => exact ih hflat
  | _ =>
    obtain ⟨w, hw⟩ := Option.isSome_iff_exists.mp hflat
    exact fits_fresh_block lib limits hw

theorem unordered_flat (sizeType : LengthType) (hflat : t.flat = true) : t.unordered = false := by
  induction t with
  | pair a b iha ihb | field a b iha ihb =>
    obtain ⟨ha, hb⟩ := (Bool.and_eq_true _ _).mp hflat
    simp only [unordered, iha ha, ihb hb, Bool.or_false]
  | lastField t ih => exact ih hflat
  | _ =>
    obtain ⟨w, hw⟩ := Option.isSome_iff_exists.mp hflat
    exact (readAsBlock sizeType hw).unordered

theorem guarded_flat (hflat : t.flat = true) : t.guarded sizeType false = true := by
  induction t with
  | pair a b iha ihb | field a b iha ihb =>
    obtain ⟨ha, hb⟩ := (Bool.and_eq_true _ _).mp hflat
    simp [guarded, iha ha, ihb hb, countable, unordered_flat sizeType hb]
  | lastField t ih => exact ih hflat
  | _ =>
    obtain ⟨w, hw⟩ := Option.isSome_iff_exists.mp hflat
    exact (readAsBlock sizeType hw).guarded false

theorem after_size_add (hflat : t.flat = true) (n : ℕ) : t.after (t.size + n) = n := by
  induction t generalizing n with
  | pair a b iha ihb | field a b iha ihb =>
    obtain ⟨ha, hb⟩ := (Bool.and_eq_true _ _).mp hflat
    simp only [after, size, Nat.add_assoc, iha ha, ihb hb]
  | lastField t ih => exact ih hflat n
  | _ =>
    obtain ⟨w, hw⟩ := Option.isSome_iff_exists.mp hflat
    have hblock := readAsBlock uint32Length hw
    rw [hblock.after, hblock.size, if_neg (by omega), Nat.add_sub_cancel_left]

theorem exists_after_eq (hflat : t.flat = true) {m k : ℕ} (hk : k < t.left sizeType m) :
    ∃ n < m, t.after n = k := by
  induction t generalizing m k with
  | pair a b iha ihb | field a b iha ihb =>
    obtain ⟨ha, hb⟩ := (Bool.and_eq_true _ _).mp hflat
    obtain ⟨j, hj, rfl⟩ := ihb hb hk
    obtain ⟨n, hn, rfl⟩ := iha ha hj
    exact ⟨n, hn, rfl⟩
  | lastField t ih => exact ih hflat hk
  | _ =>
    obtain ⟨w, hw⟩ := Option.isSome_iff_exists.mp hflat
    have hblock := readAsBlock sizeType hw
    rw [hblock.left] at hk
    simp only [hblock.after]
    by_cases hkw : k < w ∧ k < m
    · exact ⟨k, hkw.2, if_pos hkw.1⟩
    · exact ⟨k + w, by omega, by rw [if_neg (by omega), Nat.add_sub_cancel]⟩

theorem exists_succeeds (hflat : t.flat = true) {m : ℕ} (h : t.fails sizeType m = false) :
    ∃ n < m, t.succeeds n = true := by
  induction t generalizing m with
  | pair a b iha ihb | field a b iha ihb =>
    obtain ⟨ha, hb⟩ := (Bool.and_eq_true _ _).mp hflat
    obtain ⟨j, hj, hsucceeds⟩ := ihb hb h
    obtain ⟨n, hn, rfl⟩ := exists_after_eq ha hj
    exact ⟨n, hn, hsucceeds⟩
  | lastField t ih => exact ih hflat h
  | _ =>
    obtain ⟨w, hw⟩ := Option.isSome_iff_exists.mp hflat
    have hblock := readAsBlock sizeType hw
    rw [hblock.fails, decide_eq_false_iff_not, Nat.not_le] at h
    exact ⟨w, h, by rw [hblock.succeeds]; exact decide_eq_true (Nat.le_refl w)⟩

theorem exists_cut_after_eq (hflat : t.flat = true) {k : ℕ} (hk : k < t.cutLeaves sizeType) :
    ∃ n < t.size, t.after n = k := by
  induction t generalizing k with
  | pair a b iha ihb | field a b iha ihb =>
    obtain ⟨ha, hb⟩ := (Bool.and_eq_true _ _).mp hflat
    obtain hk | hk := lt_max_iff.mp hk
    · obtain ⟨j, hj, rfl⟩ := exists_after_eq hb hk
      obtain ⟨n, hn, rfl⟩ := iha ha hj
      exact ⟨n, Nat.lt_of_lt_of_le hn (Nat.le_add_right _ _), rfl⟩
    · obtain ⟨n, hn, rfl⟩ := ihb hb hk
      exact ⟨a.size + n, Nat.add_lt_add_left hn _, congrArg b.after (after_size_add ha n)⟩
  | lastField t ih => exact ih hflat hk
  | _ =>
    obtain ⟨w, hw⟩ := Option.isSome_iff_exists.mp hflat
    have hblock := readAsBlock sizeType hw
    rw [hblock.cutLeaves] at hk
    exact ⟨k, by rwa [hblock.size], by rw [hblock.after, if_pos hk]⟩

theorem exists_cut_succeeds (hflat : t.flat = true) (h : t.guarded sizeType true = false) :
    ∃ n < t.size, t.succeeds n = true := by
  induction t with
  | pair a b iha ihb | field a b iha ihb =>
    obtain ⟨ha, hb⟩ := (Bool.and_eq_true _ _).mp hflat
    have hparts : b.guarded sizeType true = false ∨
        b.fails sizeType (a.cutLeaves sizeType) = false := by
      simpa [guarded, guarded_flat ha, countable, unordered_flat sizeType hb, or_iff_not_imp_left]
        using h
    obtain hb' | hfails := hparts
    · obtain ⟨n, hn, hsucceeds⟩ := ihb hb hb'
      refine ⟨a.size + n, Nat.add_lt_add_left hn _, ?_⟩
      simp only [Ty.succeeds, after_size_add ha, hsucceeds]
    · obtain ⟨k, hk, hsucceeds⟩ := exists_succeeds hb hfails
      obtain ⟨n, hn, rfl⟩ := exists_cut_after_eq ha hk
      exact ⟨n, Nat.lt_of_lt_of_le hn (Nat.le_add_right _ _), hsucceeds⟩
  | lastField t ih => exact ih hflat h
  | _ =>
    obtain ⟨w, hw⟩ := Option.isSome_iff_exists.mp hflat
    rw [(readAsBlock sizeType hw).guarded] at h
    cases h

theorem not_noticed_of_flat (hflat : t.flat = true) (h : t.guarded sizeType true = false) :
    ¬TruncationNoticed lib overflow sizeType t t.fresh := by
  intro hnoticed
  obtain ⟨n, hn, hsucceeds⟩ := exists_cut_succeeds hflat h
  have hlen := length_encode_flat lib sizeType hflat t.fresh
  have htake : ((encode lib sizeType t t.fresh).take n).length = n := by
    rw [List.length_take, hlen]
    omega
  have hdrop : (encode lib sizeType t t.fresh).drop n ≠ [] := by
    rw [ne_eq, List.drop_eq_nil_iff]
    omega
  have hno := hnoticed t.fresh _ _ 0 .no (List.take_append_drop n _).symm hdrop
  rw [← htake] at hsucceeds
  rw [(decode_flat hflat t.fresh ⟨_, 0, .no⟩).2.mpr hsucceeds] at hno
  cases hno

end Flat

/-- A cut of a guarded type is always noticed, and among the types of a fixed size it is of no
others. -/
theorem truncation_noticed (lib : StdLibrary) (sizeType : LengthType) (t : Ty) :
    (t.guarded sizeType true = true → ∀ overflow v, Fits lib sizeType.countedLimits t v →
      TruncationNoticed lib overflow sizeType t v) ∧
    (t.flat = true → ((∀ overflow v, Fits lib sizeType.countedLimits t v →
      TruncationNoticed lib overflow sizeType t v) ↔ t.guarded sizeType true = true)) := by
  refine ⟨noticed_of_guarded, fun hflat => ⟨fun hnoticed => ?_, noticed_of_guarded⟩⟩
  by_contra hguarded
  have hfits := fits_fresh_flat lib sizeType.countedLimits hflat
  exact not_noticed_of_flat hflat (Bool.not_eq_true _ ▸ hguarded)
    (hnoticed (fun _ _ entries is => (entries, is)) t.fresh hfits)

def twoAndFour : Ty := .field (.int .two) (.lastField (.int .four))

def twoAndOne : Ty := .pair (.int .two) (.int .one)

theorem truncation_noticed_twoAndFour :
    (twoAndFour.guarded packedLength true = true ∧
      ∀ overflow v, Fits nanosecondLibrary packedLength.countedLimits twoAndFour v →
        TruncationNoticed nanosecondLibrary overflow packedLength twoAndFour v) ∧
    (twoAndOne.flat = true ∧
      ((∀ overflow v, Fits nanosecondLibrary packedLength.countedLimits twoAndOne v →
        TruncationNoticed nanosecondLibrary overflow packedLength twoAndOne v) ↔
        twoAndOne.guarded packedLength true = true)) :=
  ⟨⟨by decide, (truncation_noticed nanosecondLibrary packedLength twoAndFour).1 (by decide)⟩,
    ⟨by decide, (truncation_noticed nanosecondLibrary packedLength twoAndOne).2 (by decide)⟩⟩

/-- The pair (0x0102, 0x03) is written in three bytes. Of the first one alone the number of two
bytes is not read, but the number of one byte is. -/
theorem cut_pair_not_noticed :
    ¬TruncationNoticed nanosecondLibrary (fun _ _ entries is => (entries, is)) uint32Length twoAndOne
      (0x0102#16, 0x03#8) := by
  intro hnoticed
  have hno := hnoticed (0#16, 0#8) [2] [1, 3] 0 .no (by decide) (by decide)
  revert hno
  decide

end AetherClient
