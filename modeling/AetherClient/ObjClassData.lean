import AetherClient.MstreamCounted
import AetherClient.MstreamRange
import AetherClient.StdMap
import Mathlib.Data.Finset.Card

set_option autoImplicit false

namespace AetherClient
open LittleEndian Ty Read StdMap

section Loops
variable {α : Type} {decode : VectorReader → α × VectorReader} {add : List α → α → List α}

theorem loopAdd_reads_end {encode : α → List UInt8} {xs : List α}
    (h : ∀ x ∈ xs, Reads decode (encode x) x)
    (hend : ∀ offset result, (decode ⟨[], offset, result⟩).2.result = .no) (acc : List α)
    {turns : ℕ} (hturns : xs.length ≤ turns) (offset : ℕ) :
    (loopAdd decode add turns acc ⟨xs.flatMap encode, offset, .yes⟩).1 = xs.foldl add acc := by
  induction xs generalizing acc turns offset with
  | nil =>
    cases turns with
    | zero => rfl
    | succ turns => simp [loopAdd, hend]
  | cons x xs ih =>
    cases turns with
    | zero => simp at hturns
    | succ turns =>
      have hx := h x List.mem_cons_self (xs.flatMap encode) offset .yes
      have hrest := ih (fun x' hx' => h x' (List.mem_cons_of_mem x hx')) (add acc x)
        (Nat.le_of_succ_le_succ hturns) (offset + (encode x).length)
      simp only [List.flatMap_cons, loopAdd, hx, if_true, hrest, List.foldl_cons]

theorem length_le_flatMap {encode : α → List UInt8} {xs : List α}
    (h : ∀ x ∈ xs, Reads decode (encode x) x)
    (hend : ∀ offset result, (decode ⟨[], offset, result⟩).2.result = .no) :
    xs.length ≤ (xs.flatMap encode).length := by
  induction xs with
  | nil => simp
  | cons x xs ih =>
    have hrest := ih fun x' hx' => h x' (List.mem_cons_of_mem x hx')
    have hpos : 0 < (encode x).length := by
      apply List.length_pos_iff.mpr
      intro hnil
      have hx := h x List.mem_cons_self [] 0 .no
      have hno := hend 0 .no
      rw [hnil, List.nil_append] at hx
      rw [hx] at hno
      cases hno
    rw [List.flatMap_cons, List.length_append, List.length_cons]
    omega

end Loops

section Maps
variable {κ ν : Type} {sizeType : LengthType} {less : κ → κ → Bool}
variable {decode : VectorReader → (κ × ν) × VectorReader}

theorem forall_map {P : κ × ν → Prop}
    (hread : ∀ is, (decode is).2.result = .yes → P (decode is).1) (is : VectorReader) :
    ∀ e ∈ (Read.map sizeType decode less [] is).1, P e := by
  apply sized_cases (P := fun read => ∀ e ∈ read.1, P e) is
  · intro is' _ e he
    cases he
  · intro n is' _ _
    exact loopAdd_forall hread (fun _ _ _ => mem_emplace) (fun x hx => absurd hx List.not_mem_nil) _ _

theorem length_map_lt {bound least : ℕ} (hadv : ∀ cap, Advances cap bound least decode)
    (hleast : 0 < least) (is : VectorReader)
    (hyes : (Read.map sizeType decode less [] is).2.result = .yes) :
    (Read.map sizeType decode less [] is).1.length < 2 ^ 32 := by
  revert hyes
  apply sized_cases (P := fun read : List (κ × ν) × VectorReader =>
    read.2.result = .yes → read.1.length < 2 ^ 32) is
  · intro is' _ _
    exact Nat.two_pow_pos 32
  · intro n is' _ hstart hyes
    by_cases hcount : n < 2 ^ 32
    · have hlen : (loopAdd decode (emplace less) n [] is').1.length ≤ 0 + n :=
        length_loopAdd_le decode length_emplace_le n [] is'
      rw [turns32_of_lt hcount]
      omega
    · rw [turns32, if_neg hcount, result_loopAdd_uncounted hadv hleast _ _ hstart] at hyes
      cases hyes

end Maps

section Entries
variable {lib : StdLibrary} {overflow : Overflow} {sizeType : LengthType} {k v : Ty}

theorem decode_ordered {t : Ty} (hordered : t.unordered = false) (target : t.Value) (cap : ℕ) :
    Advances cap t.leaves (t.takes sizeType) (decode lib overflow sizeType t target) :=
  decode_advances lib sizeType t (by simp [hordered]) target

theorem decodeEntry_empty (hk : k.unordered = false) (hv : v.unordered = false) (offset : ℕ)
    (result : ReadResult) :
    (decodeEntry lib overflow sizeType k v ⟨[], offset, result⟩).2.result = .no := by
  apply ReadResult.eq_no
  intro hyes
  have hadv : Advances 1 v.leaves (v.takes sizeType) (decodeEntry lib overflow sizeType k v) :=
    advances_both (decode_ordered hk k.fresh 1) (decode_ordered hv v.fresh 1)
  have htaken := (hadv ⟨[], offset, result⟩ Nat.one_pos).taken hyes
  have hpos := takes_pos sizeType v
  simp only [List.length_nil] at htaken
  omega

theorem map_reads_end (lib : StdLibrary) (k v : Ty) {entries : List (k.Value × v.Value)}
    (hk : k.unordered = false) (hv : v.unordered = false)
    (hasc : Ascending (lib.less k) entries)
    (hlen : entries.length < sizeType.limit)
    (h : ∀ e ∈ entries,
      Reads (decodeEntry lib overflow sizeType k v) (encodeEntry lib sizeType k v e) e)
    (offset : ℕ) (result : ReadResult) :
    (Read.map sizeType (decodeEntry lib overflow sizeType k v) (lib.less k) []
      ⟨encodeElements sizeType (encodeEntry lib sizeType k v) entries, offset, result⟩).1 = entries := by
  have hend : ∀ offset result,
      (decodeEntry lib overflow sizeType k v ⟨[], offset, result⟩).2.result = .no :=
    decodeEntry_empty hk hv
  have hturns : ∀ is : VectorReader, is.unread = entries.flatMap (encodeEntry lib sizeType k v) →
      entries.length ≤ turns32 entries.length is := by
    intro is hunread
    have hle := length_le_flatMap h hend
    unfold turns32
    split
    · exact Nat.le_refl _
    · rw [hunread]
      omega
  have hfold := foldl_emplace_perm (lib.less_irrefl k) (lib.less_trans k) hasc (List.Perm.refl _)
  simp only [Read.map, sized, encodeElements, sizeType.extract_serialize hlen]
  rw [loopAdd_reads_end h hend [] (hturns _ rfl), hfold]

theorem forall_values (k v : Ty) {less : k.Value → k.Value → Bool} {P : v.Value → Prop}
    (hread : ∀ is, (decode lib overflow sizeType v v.fresh is).2.result = .yes →
      P (decode lib overflow sizeType v v.fresh is).1) (is : VectorReader) :
    ∀ e ∈ (Read.map sizeType (decodeEntry lib overflow sizeType k v) less [] is).1, P e.2 := by
  apply forall_map (P := fun e : k.Value × v.Value => P e.2)
  intro is' hyes
  exact hread (decode lib overflow sizeType k k.fresh is').2 hyes

end Entries

namespace FileSystem

abbrev ObjId := BitVec 32
abbrev ClassId := BitVec 32
abbrev Version := BitVec 8

abbrev Data := List (BitVec 8)
abbrev VersionData := List (Version × Data)
abbrev ClassData := List (ClassId × VersionData)
abbrev ObjClassData := List (ObjId × ClassData)

def dataTy : Ty := .vector (.int .one)
def versionTy : Ty := .map (.int .one) dataTy
def classTy : Ty := .map (.int .four) versionTy
def objTy : Ty := .map (.int .four) classTy

def storeVersion (version : Version) (os : Data) : VersionData → VersionData :=
  access keyLess [] version fun _ => os

def storeClass (classId : ClassId) (version : Version) (os : Data) : ClassData → ClassData :=
  access keyLess [] classId (storeVersion version os)

def store (objId : ObjId) (classId : ClassId) (version : Version) (os : Data) :
    ObjClassData → ObjClassData :=
  access keyLess [] objId (storeClass classId version os)

def remove (objId : ObjId) (state : ObjClassData) : ObjClassData := erase objId state

def classes (state : ObjClassData) (objId : ObjId) : ClassData := (state.lookup objId).getD []

def enumerate (state : ObjClassData) (objId : ObjId) : List ClassId :=
  match state.lookup objId with
  | none => []
  | some objClasses => objClasses.map Prod.fst

def load (state : ObjClassData) (objId : ObjId) (classId : ClassId) (version : Version) (is : Data) :
    Data :=
  match state.lookup objId with
  | none => is
  | some objClasses =>
    match objClasses.lookup classId with
    | none => is
    | some versions =>
      match versions.lookup version with
      | none => is
      | some data => data

theorem load_eq (state : ObjClassData) (objId : ObjId) (classId : ClassId) (version : Version) (is : Data) :
    load state objId classId version is =
      (((classes state objId).lookup classId).bind fun versions => versions.lookup version).getD is := by
  unfold load classes
  cases state.lookup objId with
  | none => rfl
  | some objClasses =>
    dsimp only [Option.getD_some]
    cases objClasses.lookup classId with
    | none => rfl
    | some versions =>
      dsimp only [Option.bind_some]
      cases versions.lookup version <;> rfl

theorem enumerate_eq (state : ObjClassData) (objId : ObjId) :
    enumerate state objId = (classes state objId).map Prod.fst := by
  unfold enumerate classes
  cases state.lookup objId <;> rfl

section Order
variable {state : ObjClassData} {objId objId' : ObjId} {classId : ClassId} {version : Version} {os : Data}

theorem getD_lookup {n : ℕ} {ν : Type} {P : List ν → Prop} {entries : List (BitVec n × List ν)}
    (hnil : P []) (h : ∀ e ∈ entries, P e.2) (k : BitVec n) : P ((entries.lookup k).getD []) := by
  cases hk : entries.lookup k with
  | none => exact hnil
  | some v => exact h (k, v) (mem_of_lookup hk)

structure OrderedClasses (objClasses : ClassData) : Prop where
  ascending : Ascending keyLess objClasses
  versions : ∀ e ∈ objClasses, Ascending keyLess e.2

structure Ordered (state : ObjClassData) : Prop where
  ascending : Ascending keyLess state
  objects : ∀ e ∈ state, OrderedClasses e.2

theorem orderedClasses_nil : OrderedClasses [] := ⟨List.Pairwise.nil, nofun⟩

theorem ordered_nil : Ordered [] := ⟨List.Pairwise.nil, nofun⟩

theorem OrderedClasses.store {objClasses : ClassData} (h : OrderedClasses objClasses) :
    OrderedClasses (storeClass classId version os objClasses) where
  ascending := ascending_access strictOrder_keyLess h.ascending
  versions := by
    intro e he
    obtain rfl | he := mem_access strictOrder_keyLess h.ascending he
    · exact ascending_access strictOrder_keyLess
        (getD_lookup (P := Ascending keyLess) List.Pairwise.nil h.versions classId)
    · exact h.versions e he

theorem Ordered.classes (h : Ordered state) (objId : ObjId) : OrderedClasses (classes state objId) :=
  getD_lookup orderedClasses_nil h.objects objId

theorem Ordered.store (h : Ordered state) : Ordered (store objId classId version os state) where
  ascending := ascending_access strictOrder_keyLess h.ascending
  objects := by
    intro e he
    obtain rfl | he := mem_access strictOrder_keyLess h.ascending he
    · exact (h.classes objId).store
    · exact h.objects e he

theorem classes_store_self (h : Ordered state) :
    classes (store objId classId version os state) objId =
      storeClass classId version os (classes state objId) := by
  rw [classes, FileSystem.store, lookup_access strictOrder_keyLess h.ascending]
  rfl

theorem classes_store_of_ne (hne : objId' ≠ objId) :
    classes (store objId classId version os state) objId' = classes state objId' := by
  rw [classes, FileSystem.store, lookup_access_of_ne strictOrder_keyLess hne, classes]

end Order

structure FitsVersions (versions : VersionData) : Prop where
  ascending : Ascending keyLess versions
  data : ∀ e ∈ versions, e.2.length < packedLength.limit

structure FitsClasses (objClasses : ClassData) : Prop where
  ascending : Ascending keyLess objClasses
  counted : objClasses.length < 2 ^ 32
  versions : ∀ e ∈ objClasses, FitsVersions e.2

structure Loadable (state : ObjClassData) : Prop where
  ascending : Ascending keyLess state
  objects : ∀ e ∈ state, FitsClasses e.2

theorem fitsVersions_nil : FitsVersions [] := ⟨List.Pairwise.nil, nofun⟩

theorem fitsClasses_nil : FitsClasses [] := ⟨List.Pairwise.nil, by decide, nofun⟩

theorem loadable_nil : Loadable [] := ⟨List.Pairwise.nil, nofun⟩

section Store
variable {state : ObjClassData} {objId : ObjId} {classId : ClassId} {version : Version} {os : Data}

theorem FitsVersions.store {versions : VersionData} (h : FitsVersions versions)
    (hos : os.length < packedLength.limit) : FitsVersions (storeVersion version os versions) where
  ascending := ascending_access strictOrder_keyLess h.ascending
  data := by
    intro e he
    obtain rfl | he := mem_access strictOrder_keyLess h.ascending he
    · exact hos
    · exact h.data e he

theorem FitsClasses.store {objClasses : ClassData} (h : FitsClasses objClasses)
    (hos : os.length < packedLength.limit)
    (hroom : classId ∈ objClasses.map Prod.fst ∨ objClasses.length + 1 < 2 ^ 32) :
    FitsClasses (storeClass classId version os objClasses) where
  ascending := ascending_access strictOrder_keyLess h.ascending
  counted := by
    have hcounted := h.counted
    rw [storeClass, length_access strictOrder_keyLess h.ascending]
    split
    · exact hcounted
    · next hnew => exact hroom.resolve_left hnew
  versions := by
    intro e he
    obtain rfl | he := mem_access strictOrder_keyLess h.ascending he
    · exact (getD_lookup fitsVersions_nil h.versions classId).store hos
    · exact h.versions e he

theorem Loadable.classes (h : Loadable state) (objId : ObjId) : FitsClasses (classes state objId) :=
  getD_lookup fitsClasses_nil h.objects objId

theorem Loadable.store (h : Loadable state) (hos : os.length < packedLength.limit)
    (hroom : classId ∈ enumerate state objId ∨ (enumerate state objId).length + 1 < 2 ^ 32) :
    Loadable (store objId classId version os state) where
  ascending := ascending_access strictOrder_keyLess h.ascending
  objects := by
    rw [enumerate_eq, List.length_map] at hroom
    intro e he
    obtain rfl | he := mem_access strictOrder_keyLess h.ascending he
    · exact (h.classes objId).store hos hroom
    · exact h.objects e he

theorem Loadable.remove (h : Loadable state) (objId : ObjId) : Loadable (remove objId state) where
  ascending := ascending_erase h.ascending
  objects := fun e he => h.objects e (List.mem_of_mem_filter he)

end Store

section RoundTrip
variable {overflow : Overflow}

theorem FitsVersions.fits {versions : VersionData} (h : FitsVersions versions) :
    Fits nanosecondLibrary packedLength.countedLimits versionTy versions := by
  have hlen := length_le_two_pow h.ascending
  refine ⟨h.ascending, Nat.lt_of_le_of_lt hlen (by decide), ?_⟩
  intro e he
  exact ⟨trivial, h.data e he, fun _ _ => trivial⟩

theorem FitsClasses.fits {objClasses : ClassData} (h : FitsClasses objClasses) :
    Fits nanosecondLibrary packedLength.countedLimits classTy objClasses := by
  refine ⟨h.ascending, Nat.lt_of_lt_of_le h.counted (by decide), ?_⟩
  intro e he
  exact ⟨trivial, (h.versions e he).fits⟩

theorem decode_dataTy (is : VectorReader) :
    decode nanosecondLibrary overflow packedLength dataTy dataTy.fresh is =
      sized packedLength is [] fun n is =>
        block is (n * 1) (resize (Ty.int .one).fresh n []) (ofBlock (.int .one) 1 n) := rfl

theorem decode_versionTy (is : VectorReader) :
    decode nanosecondLibrary overflow packedLength versionTy versionTy.fresh is =
      Read.map packedLength (decodeEntry nanosecondLibrary overflow packedLength (.int .one) dataTy)
        keyLess [] is := rfl

theorem decode_classTy (is : VectorReader) :
    decode nanosecondLibrary overflow packedLength classTy classTy.fresh is =
      Read.map packedLength (decodeEntry nanosecondLibrary overflow packedLength (.int .four) versionTy)
        keyLess [] is := rfl

theorem decode_objTy (is : VectorReader) :
    decode nanosecondLibrary overflow packedLength objTy objTy.fresh is =
      Read.map packedLength (decodeEntry nanosecondLibrary overflow packedLength (.int .four) classTy)
        keyLess [] is := rfl

def serialize (state : ObjClassData) : List UInt8 :=
  encode nanosecondLibrary packedLength objTy state

def deserialize (overflow : Overflow) (data : List UInt8) : ObjClassData :=
  (decode nanosecondLibrary overflow packedLength objTy objTy.fresh ⟨data, 0, .no⟩).1

theorem serialize_eq (state : ObjClassData) :
    serialize state = encodeElements packedLength
      (encodeEntry nanosecondLibrary packedLength (.int .four) classTy) state := rfl

theorem deserialize_serialize {state : ObjClassData} (h : Loadable state) :
    deserialize overflow (serialize state) = state := by
  have hlen := length_le_two_pow h.ascending
  have hread : ∀ e ∈ state,
      Reads (decodeEntry nanosecondLibrary overflow packedLength (.int .four) classTy)
        (encodeEntry nanosecondLibrary packedLength (.int .four) classTy e) e := by
    intro e he
    exact (reads_encode nanosecondLibrary overflow packedLength (.int .four) e.1 trivial).both
      (reads_encode nanosecondLibrary overflow packedLength classTy e.2 (h.objects e he).fits)
  rw [deserialize, decode_objTy, serialize_eq]
  exact map_reads_end nanosecondLibrary (.int .four) classTy rfl rfl h.ascending (Nat.lt_of_le_of_lt hlen (by decide)) hread 0 .no

theorem length_decode_data (overflow : Overflow) (is : VectorReader) :
    List.length (decode nanosecondLibrary overflow packedLength dataTy dataTy.fresh is).1 <
      packedLength.limit := by
  rw [decode_dataTy]
  apply sized_cases (P := fun read : Data × VectorReader => read.1.length < packedLength.limit) is
  · intro is' _
    exact show 0 < packedLength.limit by decide
  · intro n is' hextract _
    have hn : n < packedLength.limit := PacketSize.extract_lt_limit hextract
    exact Nat.lt_of_le_of_lt (Nat.le_of_eq (length_block_scalars (.int .one) 1 n is')) hn

structure Counted (objClasses : ClassData) : Prop where
  classes : objClasses.length < 2 ^ 32
  data : ∀ e ∈ objClasses, ∀ e' ∈ e.2, e'.2.length < packedLength.limit

theorem counted_decode_classes {is : VectorReader}
    (hyes : (decode nanosecondLibrary overflow packedLength classTy classTy.fresh is).2.result = .yes) :
    Counted (decode nanosecondLibrary overflow packedLength classTy classTy.fresh is).1 where
  classes := by
    have hadv : ∀ cap, Advances cap versionTy.leaves (versionTy.takes packedLength)
        (decodeEntry nanosecondLibrary overflow packedLength (.int .four) versionTy) := fun cap =>
      advances_both (decode_ordered rfl _ cap) (decode_ordered rfl _ cap)
    rw [decode_classTy] at hyes ⊢
    exact length_map_lt hadv (takes_pos packedLength versionTy) is hyes
  data := by
    rw [decode_classTy]
    refine forall_values (.int .four) versionTy (P := fun versions : VersionData =>
      ∀ e ∈ versions, e.2.length < packedLength.limit) ?_ is
    intro is' _
    rw [decode_versionTy]
    refine forall_values (.int .one) dataTy (P := fun data : Data => data.length < packedLength.limit) ?_ is'
    intro is'' _
    exact length_decode_data overflow is''

theorem counted_deserialize (overflow : Overflow) (data : List UInt8) :
    ∀ e ∈ deserialize overflow data, Counted e.2 := by
  rw [deserialize, decode_objTy]
  exact forall_values (.int .four) classTy (fun _ => counted_decode_classes) _

end RoundTrip

end FileSystem

end AetherClient
