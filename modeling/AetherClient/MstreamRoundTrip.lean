import AetherClient.Mstream
import AetherClient.StdMap
import Mathlib.Data.List.Basic
import Mathlib.Data.List.Perm.Basic
import Mathlib.Tactic.Linarith

set_option autoImplicit false

namespace AetherClient
open LittleEndian Ty Read

/-- Bounds of the sizes: of strings, vectors and deques, of lists and maps, and of unordered
maps. -/
structure SizeLimits where
  plain : ℕ
  list : ℕ
  unordered : ℕ
deriving DecidableEq, Repr

def LengthType.limits (sizeType : LengthType) : SizeLimits :=
  ⟨sizeType.limit, sizeType.limit, sizeType.limit⟩

def LengthType.countedLimits (sizeType : LengthType) : SizeLimits :=
  ⟨sizeType.limit, min sizeType.limit (2 ^ 32), min sizeType.limit (2 ^ 31)⟩

section Fits
variable {α κ ν : Type}

def FitsElements (limit : ℕ) (P : α → Prop) (xs : List α) : Prop := xs.length < limit ∧ ∀ x ∈ xs, P x

def FitsTimePoint (ticks : ℕ) (t : ℤ) : Prop := (ticks : ℤ) ∣ t ∧ -2 ^ 63 ≤ t ∧ t < 2 ^ 63

def FitsPtr (P : α → Prop) (v : Option α) : Prop := ∀ x ∈ v, P x

end Fits

/-- The value is one that the C++ type can have, with sizes below the limits; a time point is at
the resolution of the encoding. -/
def Fits (lib : StdLibrary) (limits : SizeLimits) : (t : Ty) → t.Value → Prop
  | .int _, _ => True
  | .enum _, _ => True
  | .string, v => FitsElements limits.plain (fun _ : UInt8 => True) v
  | .timePoint, v => FitsTimePoint lib.ticks v
  | .vector t, v => FitsElements limits.plain (Fits lib limits t) v
  | .deque t, v => FitsElements limits.plain (Fits lib limits t) v
  | .list t, v => FitsElements limits.list (Fits lib limits t) v
  | .array _ t, v => ∀ x ∈ v.1, Fits lib limits t x
  | .map k v, entries => Ascending (lib.less k) entries ∧
      FitsElements limits.list (fun e => Fits lib limits k e.1 ∧ Fits lib limits v e.2) entries
  | .unorderedMap k v, entries => Ascending (lib.less k) entries ∧
      FitsElements limits.unordered (fun e => Fits lib limits k e.1 ∧ Fits lib limits v e.2) entries
  | .pair a b, v => Fits lib limits a v.1 ∧ Fits lib limits b v.2
  | .uniquePtr t, v => FitsPtr (Fits lib limits t) v
  | .sharedPtr t, v => FitsPtr (Fits lib limits t) v
  | .lastField t, v => Fits lib limits t v
  | .field t rest, v => Fits lib limits t v.1 ∧ Fits lib limits rest v.2

/-- `decode` reads `x` from the bytes `code`, exactly these, whatever follows. -/
def Reads {α : Type} (decode : VectorReader → α × VectorReader) (code : List UInt8) (x : α) : Prop :=
  ∀ y offset result, decode ⟨code ++ y, offset, result⟩ = (x, ⟨y, offset + code.length, .yes⟩)

section Reads
variable {α β : Type}

theorem reads_block {target x : α} {ofBytes : List UInt8 → α} {code : List UInt8} {n : ℕ}
    (hn : code.length = n) (hx : ofBytes code = x) :
    Reads (fun is => block is n target ofBytes) code x := by
  intro y offset result
  subst hn
  simp only [block, VectorReader.read_append, hx]

theorem Reads.sized {sizeType : LengthType} {n : ℕ} (hn : n < sizeType.limit) {target x : α}
    {rest : ℕ → VectorReader → α × VectorReader} {code : List UInt8}
    (h : ∀ y offset, rest n ⟨code ++ y, offset, .yes⟩ = (x, ⟨y, offset + code.length, .yes⟩)) :
    Reads (fun is => sized sizeType is target rest) (sizeType.serialize n ++ code) x := by
  intro y offset result
  simp only [Read.sized, List.append_assoc, sizeType.extract_serialize hn, h, List.length_append,
    Nat.add_assoc]

theorem Reads.both {first : VectorReader → α × VectorReader}
    {second : VectorReader → β × VectorReader} {code code' : List UInt8} {a : α} {b : β}
    (ha : Reads first code a) (hb : Reads second code' b) :
    Reads (both first second) (code ++ code') (a, b) := by
  intro y offset result
  simp only [Read.both, List.append_assoc, ha _ _ _, hb _ _ _, List.length_append, Nat.add_assoc]

theorem Reads.ptr {decode : VectorReader → α × VectorReader} {encode : α → List UInt8}
    {v : Option α} (h : ∀ x ∈ v, Reads decode (encode x) x) :
    Reads (fun is => ptr is none decode) (encodePtr encode v) v := by
  intro y offset result
  cases v with
  | none =>
    have hread := VectorReader.read_append [0] y offset result
    simp only [encodePtr, Read.ptr, List.length_singleton] at hread ⊢
    rw [hread]
    rfl
  | some x =>
    have hread := VectorReader.read_append [1] (encode x ++ y) offset result
    have hx := h x rfl y (offset + 1) .yes
    simp only [encodePtr, Read.ptr, List.length_singleton, List.cons_append, List.nil_append]
      at hread ⊢
    rw [hread]
    simp only [hx, show ofBytes [1] = 1 from rfl, List.length_cons, if_true]
    simp [Nat.add_comm, Nat.add_left_comm]

theorem loopInto_reads {decode : α → VectorReader → α × VectorReader} {filler : α}
    {encode : α → List UInt8} {xs : List α} (h : ∀ x ∈ xs, Reads (decode filler) (encode x) x)
    (y : List UInt8) (offset : ℕ) :
    loopInto decode (List.replicate xs.length filler) ⟨xs.flatMap encode ++ y, offset, .yes⟩ =
      (xs, ⟨y, offset + (xs.flatMap encode).length, .yes⟩) := by
  induction xs generalizing offset with
  | nil => simp [loopInto]
  | cons x xs ih =>
    have hx := h x (by simp) (xs.flatMap encode ++ y) offset .yes
    have hxs := ih (fun x' hx' => h x' (by simp [hx'])) (offset + (encode x).length)
    simp only [List.length_cons, List.replicate_succ, loopInto, List.flatMap_cons,
      List.append_assoc, hx, hxs, if_true, List.length_append, Nat.add_assoc]

theorem loopAdd_reads {decode : VectorReader → α × VectorReader} {add : List α → α → List α}
    {encode : α → List UInt8} {xs : List α} (h : ∀ x ∈ xs, Reads decode (encode x) x)
    (acc : List α) (y : List UInt8) (offset : ℕ) :
    loopAdd decode add xs.length acc ⟨xs.flatMap encode ++ y, offset, .yes⟩ =
      (xs.foldl add acc, ⟨y, offset + (xs.flatMap encode).length, .yes⟩) := by
  induction xs generalizing acc offset with
  | nil => simp [loopAdd]
  | cons x xs ih =>
    have hx := h x (by simp) (xs.flatMap encode ++ y) offset .yes
    have hxs := ih (fun x' hx' => h x' (by simp [hx'])) (add acc x) (offset + (encode x).length)
    simp only [List.length_cons, loopAdd, List.flatMap_cons, List.append_assoc, hx, hxs, if_true,
      List.foldl_cons, List.length_append, Nat.add_assoc]

theorem loopInto_replicate (decode : α → VectorReader → α × VectorReader) (filler : α)
    (add : List α → α → List α) (turns : ℕ) (acc : List α) (is : VectorReader) :
    (loopInto decode (List.replicate turns filler) is).2 =
      (loopAdd (decode filler) add turns acc is).2 := by
  induction turns generalizing acc is with
  | zero => rfl
  | succ turns ih =>
    simp only [List.replicate_succ, loopInto, loopAdd]
    split
    · exact ih _ _
    · rfl

theorem loopInto_reads_array {decode : α → VectorReader → α × VectorReader} {filler : α}
    {encode : α → List UInt8} {xs : List α} (hne : xs ≠ [])
    (h : ∀ x ∈ xs, Reads (decode filler) (encode x) x) :
    Reads (loopInto decode (List.replicate xs.length filler)) (xs.flatMap encode) xs := by
  intro y offset result
  cases xs with
  | nil => exact absurd rfl hne
  | cons x xs =>
    have hx := h x (by simp) (xs.flatMap encode ++ y) offset result
    have hrest : ∀ x' ∈ xs, Reads (decode filler) (encode x') x' := fun x' hx' =>
      h x' (List.mem_cons_of_mem x hx')
    have hxs := loopInto_reads hrest y (offset + (encode x).length)
    simp only [List.length_cons, List.replicate_succ, loopInto, List.flatMap_cons,
      List.append_assoc, hx, hxs, if_true, List.length_append, Nat.add_assoc]

end Reads

section Emplace
variable {κ ν : Type} {less : κ → κ → Bool}

def Comparable (less : κ → κ → Bool) (e e' : κ × ν) : Prop :=
  less e.1 e'.1 = true ∨ less e'.1 e.1 = true

theorem emplace_perm {entries : List (κ × ν)} {e : κ × ν}
    (h : ∀ x ∈ entries, Comparable less x e) : (emplace less entries e).Perm (e :: entries) := by
  induction entries with
  | nil => exact List.Perm.refl _
  | cons x entries ih =>
    have hrest := ih fun x' hx' => h x' (List.mem_cons_of_mem x hx')
    rw [emplace]
    split
    · exact (hrest.cons x).trans (List.Perm.swap e x entries)
    · next hnot =>
      rw [if_pos ((h x List.mem_cons_self).resolve_left hnot)]

theorem emplace_ascending (htrans : ∀ x y z, less x y = true → less y z = true → less x z = true)
    {entries : List (κ × ν)} {e : κ × ν} (hasc : Ascending less entries)
    (h : ∀ x ∈ entries, Comparable less x e) : Ascending less (emplace less entries e) := by
  induction entries with
  | nil => exact List.pairwise_singleton _ _
  | cons x entries ih =>
    obtain ⟨hx, hentries⟩ := List.pairwise_cons.mp hasc
    have hcomp : ∀ x' ∈ entries, Comparable less x' e := fun x' hx' =>
      h x' (List.mem_cons_of_mem x hx')
    rw [emplace]
    split
    · next hless =>
      apply List.pairwise_cons.mpr
      refine ⟨?_, ih hentries hcomp⟩
      intro y hy
      obtain rfl | hy := List.mem_cons.mp ((emplace_perm hcomp).mem_iff.mp hy)
      · exact hless
      · exact hx y hy
    · next hnot =>
      have hless : less e.1 x.1 = true := (h x List.mem_cons_self).resolve_left hnot
      rw [if_pos hless]
      apply List.pairwise_cons.mpr
      refine ⟨?_, hasc⟩
      intro y hy
      obtain rfl | hy := List.mem_cons.mp hy
      · exact hless
      · exact htrans _ _ _ hless (hx y hy)

theorem foldl_emplace (htrans : ∀ x y z, less x y = true → less y z = true → less x z = true)
    {acc rest : List (κ × ν)} (hacc : Ascending less acc)
    (h : (acc ++ rest).Pairwise (Comparable less)) :
    Ascending less (rest.foldl (emplace less) acc) ∧
      (rest.foldl (emplace less) acc).Perm (acc ++ rest) := by
  induction rest generalizing acc with
  | nil => simpa using hacc
  | cons e rest ih =>
    have hcomp : ∀ x ∈ acc, Comparable less x e := fun x hx =>
      (List.pairwise_append.mp h).2.2 x hx e List.mem_cons_self
    have hperm : (emplace less acc e ++ rest).Perm (acc ++ e :: rest) :=
      ((emplace_perm hcomp).append_right rest).trans List.perm_middle.symm
    have hsymm : ∀ {x y : κ × ν}, Comparable less x y → Comparable less y x := fun hxy => hxy.symm
    obtain ⟨hasc, hfold⟩ := ih (emplace_ascending htrans hacc hcomp)
      ((hperm.pairwise_iff hsymm).mpr h)
    exact ⟨hasc, hfold.trans hperm⟩

theorem foldl_emplace_perm (hirrefl : ∀ x, less x x = false)
    (htrans : ∀ x y z, less x y = true → less y z = true → less x z = true)
    {entries read : List (κ × ν)} (hasc : Ascending less entries) (hperm : read.Perm entries) :
    read.foldl (emplace less) [] = entries := by
  have hcomp : read.Pairwise (Comparable less) := by
    have hsymm : ∀ {x y : κ × ν}, Comparable less x y → Comparable less y x := fun hxy => hxy.symm
    exact (hperm.pairwise_iff hsymm).mpr (hasc.imp Or.inl)
  obtain ⟨hsorted, hfold⟩ := foldl_emplace htrans List.Pairwise.nil (by simpa using hcomp)
  refine List.Perm.eq_of_pairwise ?_ hsorted hasc (hfold.trans hperm)
  intro a b _ _ hab hba
  have := htrans _ _ _ hab hba
  rw [hirrefl] at this
  cases this

end Emplace

section TimePoint

theorem reads_timePoint {ticks : ℕ} (hticks : 0 < ticks) {t target : ℤ} (h : FitsTimePoint ticks t) :
    Reads (fun is => block is 8 target (ofMicroseconds ticks)) (encodeTimePoint ticks t) t := by
  obtain ⟨⟨count, rfl⟩, hlow, hhigh⟩ := h
  have hpos : (1 : ℤ) ≤ ticks := by omega
  have hdiv : Int.tdiv (ticks * count) ticks = count := Int.mul_tdiv_cancel_left count (by omega)
  have hmin : -2 ^ 63 ≤ count := by nlinarith
  have hmax : count < 2 ^ 63 := by nlinarith
  have hbytes : ofBytes (encodeTimePoint ticks (ticks * count)) = (count % 2 ^ 64).toNat := by
    rw [encodeTimePoint, hdiv]
    exact ofBytes_toBytes_of_lt (by omega)
  have hvalue : ofMicroseconds ticks (encodeTimePoint ticks (ticks * count)) = ticks * count := by
    rw [ofMicroseconds, hbytes, Int.mul_comm]
    apply congrArg (fun c : ℤ => ticks * c)
    split <;> omega
  exact reads_block (by simp [encodeTimePoint]) hvalue

end TimePoint

section Scalar
variable (lib : StdLibrary) (sizeType : LengthType)

theorem length_encode_scalar {t : Ty} {w : Width} (h : t.scalar = some w) (v : t.Value) :
    (encode lib sizeType t v).length = w.bytes := by
  cases t with
  | int w' | enum w' =>
    obtain rfl : w' = w := by simpa [scalar] using h
    simp [encode]
  | _ => simp [scalar] at h

theorem fits_scalar {limits : SizeLimits} {t : Ty} {w : Width} (h : t.scalar = some w)
    (v : t.Value) : Fits lib limits t v := by
  cases t with
  | int _ | enum _ => trivial
  | _ => simp [scalar] at h

theorem ofBytes_toBytes_bitVec (w : Width) (v : BitVec (8 * w.bytes)) :
    BitVec.ofNat (8 * w.bytes) (ofBytes (toBytes w.bytes v.toNat)) = v := by
  have hlt : v.toNat < 256 ^ w.bytes := by
    have := v.isLt
    rwa [Nat.pow_mul] at this
  rw [ofBytes_toBytes_of_lt hlt, BitVec.ofNat_toNat, BitVec.setWidth_eq]

theorem ofMemory_encode {t : Ty} {w : Width} (h : t.scalar = some w) (v : t.Value) :
    t.ofMemory (encode lib sizeType t v) = v := by
  cases t with
  | int w' | enum w' => exact ofBytes_toBytes_bitVec w' v
  | _ => simp [scalar] at h

theorem ofBlock_flatMap {t : Ty} {w : Width} (h : t.scalar = some w) (vs : List t.Value) :
    ofBlock t w.bytes vs.length (vs.flatMap (encode lib sizeType t)) = vs := by
  induction vs with
  | nil => rfl
  | cons v vs ih =>
    have hlen := length_encode_scalar lib sizeType h v
    rw [List.length_cons, List.flatMap_cons, ofBlock, ← hlen, List.take_left, List.drop_left, hlen,
      ofMemory_encode lib sizeType h, ih]

theorem length_flatMap_scalar {t : Ty} {w : Width} (h : t.scalar = some w) (vs : List t.Value) :
    (vs.flatMap (encode lib sizeType t)).length = vs.length * w.bytes := by
  induction vs with
  | nil => simp
  | cons v vs ih =>
    rw [List.flatMap_cons, List.length_append, ih, length_encode_scalar lib sizeType h,
      List.length_cons,
      Nat.succ_mul, Nat.add_comm]

end Scalar

section RoundTrip
variable {lib : StdLibrary} {overflow : Overflow} {sizeType : LengthType}

theorem resize_nil {α : Type} (filler : α) (n : ℕ) : resize filler n [] = List.replicate n filler := by
  simp [resize]

theorem reads_elements {α : Type} {decode : α → VectorReader → α × VectorReader} {filler : α}
    {encode : α → List UInt8} {xs : List α} (hlen : xs.length < sizeType.limit)
    (h : ∀ x ∈ xs, Reads (decode filler) (encode x) x) :
    Reads (elements sizeType decode filler []) (encodeElements sizeType encode xs) xs := by
  apply Reads.sized hlen
  intro y offset
  rw [resize_nil]
  exact loopInto_reads h y offset

theorem reads_vector {t : Ty} {vs : List t.Value} (hlen : vs.length < sizeType.limit)
    (h : ∀ v ∈ vs, Reads (decode lib overflow sizeType t t.fresh) (encode lib sizeType t v) v) :
    Reads (vector sizeType t.scalar (ofBlock t) (decode lib overflow sizeType t) t.fresh [])
      (encodeElements sizeType (encode lib sizeType t) vs) vs := by
  cases hscalar : t.scalar with
  | none => exact reads_elements hlen h
  | some w =>
    apply Reads.sized hlen
    intro y offset
    exact reads_block (length_flatMap_scalar lib sizeType hscalar vs)
      (ofBlock_flatMap lib sizeType hscalar vs) y offset .yes

theorem reads_array {n : ℕ} {t : Ty} (vs : { vs : List t.Value // vs.length = n + 1 })
    (h : ∀ v ∈ vs.1, Reads (decode lib overflow sizeType t t.fresh) (encode lib sizeType t v) v) :
    Reads (array t.scalar (ofBlock t) (length_ofBlock t) (decode lib overflow sizeType t)
      ⟨List.replicate (n + 1) t.fresh, List.length_replicate⟩)
      (vs.1.flatMap (encode lib sizeType t)) vs := by
  obtain ⟨vs, hlen⟩ := vs
  have hne : vs ≠ [] := by
    rintro rfl
    simp at hlen
  cases hscalar : t.scalar with
  | none =>
    intro y offset result
    have hread := loopInto_reads_array hne h y offset result
    rw [hlen] at hread
    simp only [Read.array, hread]
  | some w =>
    refine reads_block ?_ (Subtype.ext ?_)
    · rw [length_flatMap_scalar lib sizeType hscalar, hlen]
    · have := ofBlock_flatMap lib sizeType hscalar vs
      rwa [hlen] at this

theorem reads_added {α : Type} {decode : VectorReader → α × VectorReader}
    {add : List α → α → List α} {encode : α → List UInt8} {turns : ℕ → VectorReader → ℕ}
    {xs ys target : List α} (hlen : xs.length < sizeType.limit)
    (hturns : ∀ is, turns xs.length is = xs.length)
    (h : ∀ x ∈ xs, Reads decode (encode x) x) (hadd : xs.foldl add [] = ys) :
    Reads (fun is => sized sizeType is target fun n is => loopAdd decode add (turns n is) [] is)
      (encodeElements sizeType encode xs) ys := by
  apply Reads.sized hlen
  intro y offset
  rw [hturns, loopAdd_reads h, hadd]

theorem foldl_append_singleton {α : Type} (xs acc : List α) :
    xs.foldl (fun acc x => acc ++ [x]) acc = acc ++ xs := by
  induction xs generalizing acc with
  | nil => simp
  | cons x xs ih => simp [ih]

theorem turns32_of_lt {n : ℕ} (h : n < 2 ^ 32) (is : VectorReader) : turns32 n is = n := if_pos h

section Maps
variable {k v : Ty} {entries : List (k.Value × v.Value)}

def decodeEntry (lib : StdLibrary) (overflow : Overflow) (sizeType : LengthType) (k v : Ty) :
    VectorReader → (k.Value × v.Value) × VectorReader :=
  both (decode lib overflow sizeType k k.fresh) (decode lib overflow sizeType v v.fresh)

def encodeEntry (lib : StdLibrary) (sizeType : LengthType) (k v : Ty) (e : k.Value × v.Value) :
    List UInt8 :=
  encode lib sizeType k e.1 ++ encode lib sizeType v e.2

theorem reads_map (hasc : Ascending (lib.less k) entries) (hlen : entries.length < sizeType.limit)
    (hcount : entries.length < 2 ^ 32)
    (h : ∀ e ∈ entries, Reads (decodeEntry lib overflow sizeType k v) (encodeEntry lib sizeType k v e) e) :
    Reads (map sizeType (decodeEntry lib overflow sizeType k v) (lib.less k) [])
      (encodeElements sizeType (encodeEntry lib sizeType k v) entries) entries :=
  reads_added hlen (turns32_of_lt hcount) h
    (foldl_emplace_perm (lib.less_irrefl k) (lib.less_trans k) hasc (List.Perm.refl _))

theorem reads_unorderedMap (hasc : Ascending (lib.less k) entries)
    (hlen : entries.length < sizeType.limit) (hcount : entries.length < 2 ^ 31)
    (h : ∀ e ∈ entries, Reads (decodeEntry lib overflow sizeType k v) (encodeEntry lib sizeType k v e) e) :
    Reads (unorderedMap sizeType (decodeEntry lib overflow sizeType k v) (lib.less k) (overflow k v) [])
      (encodeElements sizeType (encodeEntry lib sizeType k v) (lib.bucketOrder k v entries))
      entries := by
  have hperm := lib.bucketOrder_perm k v entries
  have hsize : (lib.bucketOrder k v entries).length = entries.length := hperm.length_eq
  have hread : ∀ e ∈ lib.bucketOrder k v entries,
      Reads (decodeEntry lib overflow sizeType k v) (encodeEntry lib sizeType k v e) e := fun e he =>
    h e (hperm.mem_iff.mp he)
  apply Reads.sized (by rwa [hsize])
  intro y offset
  rw [Nat.min_eq_left (by omega), loopAdd_reads hread]
  have hcounted : ¬2 ^ 31 ≤ (lib.bucketOrder k v entries).length := by omega
  simp only [hcounted, false_and, if_false,
    foldl_emplace_perm (lib.less_irrefl k) (lib.less_trans k) hasc hperm]

end Maps

theorem reads_scalar (w : Width) (v target : BitVec (8 * w.bytes)) :
    Reads (fun is => block is w.bytes target fun bytes => BitVec.ofNat (8 * w.bytes) (ofBytes bytes))
      (toBytes w.bytes v.toNat) v :=
  reads_block (length_toBytes w.bytes v.toNat) (ofBytes_toBytes_bitVec w v)

theorem reads_encode (lib : StdLibrary) (overflow : Overflow) (sizeType : LengthType) (t : Ty) (v : t.Value)
    (h : Fits lib sizeType.countedLimits t v) :
    Reads (decode lib overflow sizeType t t.fresh) (encode lib sizeType t v) v := by
  induction t with
  | int w | enum w => exact reads_scalar w v _
  | string =>
    obtain ⟨hlen, -⟩ := h
    apply Reads.sized hlen
    intro y offset
    exact reads_block rfl rfl y offset .yes
  | timePoint => exact reads_timePoint lib.ticks_pos h
  | vector t ih =>
    obtain ⟨hlen, hx⟩ := h
    exact reads_vector hlen fun x hmem => ih x (hx x hmem)
  | deque t ih =>
    obtain ⟨hlen, hx⟩ := h
    exact reads_elements hlen fun x hmem => ih x (hx x hmem)
  | list t ih =>
    obtain ⟨hlen, hx⟩ := h
    exact reads_added (Nat.lt_of_lt_of_le hlen (Nat.min_le_left _ _))
      (turns32_of_lt (Nat.lt_of_lt_of_le hlen (Nat.min_le_right _ _)))
      (fun x hmem => ih x (hx x hmem)) (foldl_append_singleton _ [])
  | array n t ih => exact reads_array v fun x hmem => ih x (h x hmem)
  | map k v ihk ihv =>
    obtain ⟨hasc, hlen, he⟩ := h
    exact reads_map hasc (Nat.lt_of_lt_of_le hlen (Nat.min_le_left _ _))
      (Nat.lt_of_lt_of_le hlen (Nat.min_le_right _ _))
      fun e hmem => (ihk e.1 (he e hmem).1).both (ihv e.2 (he e hmem).2)
  | unorderedMap k v ihk ihv =>
    obtain ⟨hasc, hlen, he⟩ := h
    exact reads_unorderedMap hasc (Nat.lt_of_lt_of_le hlen (Nat.min_le_left _ _))
      (Nat.lt_of_lt_of_le hlen (Nat.min_le_right _ _))
      fun e hmem => (ihk e.1 (he e hmem).1).both (ihv e.2 (he e hmem).2)
  | pair a b iha ihb | field a b iha ihb => exact (iha v.1 h.1).both (ihb v.2 h.2)
  | uniquePtr t ih | sharedPtr t ih => exact Reads.ptr fun x hx => ih x (h x hx)
  | lastField t ih => exact ih v h

end RoundTrip

end AetherClient
