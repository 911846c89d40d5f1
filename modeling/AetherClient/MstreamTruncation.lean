import AetherClient.MstreamRoundTrip
import AetherClient.MstreamAdvance

set_option autoImplicit false

namespace AetherClient
open LittleEndian Ty Read

namespace Ty

/-- When the type is read from fewer than `m` bytes, fewer than this are left. -/
def left (sizeType : LengthType) : Ty → ℕ → ℕ
  | pair a b, m => b.left sizeType (a.left sizeType m)
  | field t rest, m => rest.left sizeType (t.left sizeType m)
  | lastField t, m => t.left sizeType m
  | t, m => max (m - t.takes sizeType) (min m t.leaves)

def fails (sizeType : LengthType) : Ty → ℕ → Bool
  | pair a b, m => b.fails sizeType (a.left sizeType m)
  | field t rest, m => rest.fails sizeType (t.left sizeType m)
  | lastField t, m => t.fails sizeType m
  | t, m => decide (m ≤ t.takes sizeType)

/-- When the bytes of a value were cut off, fewer than this are left. -/
def cutLeaves (sizeType : LengthType) : Ty → ℕ
  | vector t =>
    match t.scalar with
    | some w => 2 ^ 64 * w.bytes
    | none => max 4 (t.cutLeaves sizeType)
  | deque t => max 4 (t.cutLeaves sizeType)
  | list t => max 4 (t.cutLeaves sizeType)
  | array n t =>
    match t.scalar with
    | some w => (n + 1) * w.bytes
    | none => t.cutLeaves sizeType
  | map k v =>
    max 4 (max (v.left sizeType (k.cutLeaves sizeType)) (v.cutLeaves sizeType))
  | unorderedMap k v =>
    max 4 (max (v.left sizeType (k.cutLeaves sizeType)) (v.cutLeaves sizeType))
  | pair a b => max (b.left sizeType (a.cutLeaves sizeType)) (b.cutLeaves sizeType)
  | uniquePtr t => max 1 (t.cutLeaves sizeType)
  | sharedPtr t => max 1 (t.cutLeaves sizeType)
  | lastField t => t.cutLeaves sizeType
  | field t rest => max (rest.left sizeType (t.cutLeaves sizeType)) (rest.cutLeaves sizeType)
  | t => t.leaves

/-- The second of two parts gets at most the bytes of the first, `m` of them. If there is an
`unordered_map` in it, they are too few to let its counter overflow. -/
def countable (t : Ty) (m : ℕ) : Bool := !t.unordered || decide (m ≤ 2 ^ 31)

/-- Elements that were cut off are noticed, and so is the last part of a pair or of a struct if
`noticed` asks for it. -/
def guarded (sizeType : LengthType) : (noticed : Bool) → Ty → Bool
  | _, vector t => t.guarded sizeType true
  | _, deque t => t.guarded sizeType true
  | _, list t => t.guarded sizeType true
  | _, array _ t => t.guarded sizeType true
  | _, map k v => k.guarded sizeType false && v.guarded sizeType true &&
      v.countable (k.cutLeaves sizeType) && v.fails sizeType (k.cutLeaves sizeType)
  | _, unorderedMap k v => k.guarded sizeType false && v.guarded sizeType true &&
      v.countable (k.cutLeaves sizeType) && v.fails sizeType (k.cutLeaves sizeType)
  | noticed, pair a b => a.guarded sizeType false && b.guarded sizeType noticed &&
      b.countable (a.cutLeaves sizeType) && (!noticed || b.fails sizeType (a.cutLeaves sizeType))
  | noticed, uniquePtr t => t.guarded sizeType noticed
  | noticed, sharedPtr t => t.guarded sizeType noticed
  | noticed, lastField t => t.guarded sizeType noticed
  | noticed, field t rest => t.guarded sizeType false && rest.guarded sizeType noticed &&
      rest.countable (t.cutLeaves sizeType) &&
      (!noticed || rest.fails sizeType (t.cutLeaves sizeType))
  | _, _ => true

theorem left_le (sizeType : LengthType) (t : Ty) (m : ℕ) : t.left sizeType m ≤ m := by
  induction t generalizing m with
  | pair a b iha ihb | field a b iha ihb => exact Nat.le_trans (ihb _) (iha m)
  | lastField t ih => exact ih m
  | _ => exact Nat.max_le.mpr ⟨Nat.sub_le _ _, Nat.min_le_left _ _⟩

end Ty

section Short
variable {lib : StdLibrary} {overflow : Overflow} {sizeType : LengthType} {m : ℕ}

theorem Harmless.mono {cap cap' : ℕ} (h : Harmless cap overflow) (hle : cap' ≤ cap) :
    Harmless cap' overflow := fun k v entries is hlt =>
  h k v entries is (Nat.lt_of_lt_of_le hlt hle)

theorem harmless_of_countable {t : Ty} (h : t.countable m = true) (ht : t.unordered = true) :
    Harmless m overflow := by
  intro k v entries is hlt
  simp only [countable, ht, Bool.not_true, Bool.false_or, decide_eq_true_eq] at h
  omega

theorem Advance.left_lt {bound least : ℕ} {is is' : VectorReader} (h : Advance bound least is is')
    (hm : is.unread.length < m) : is'.unread.length < max (m - least) (min m bound) := by
  have hle := h.le
  cases hresult : is'.result with
  | no =>
    have := h.left hresult
    omega
  | yes =>
    have := h.taken hresult
    omega

theorem Advance.result_no {bound least : ℕ} {is is' : VectorReader} (h : Advance bound least is is')
    (hm : is.unread.length < m) (hleast : m ≤ least) : is'.result = .no := by
  apply ReadResult.eq_no
  intro hyes
  have := h.taken hyes
  omega

theorem decode_left (lib : StdLibrary) (sizeType : LengthType) (t : Ty) (hover : t.unordered = true → Harmless m overflow) (target : t.Value)
    {is : VectorReader} (hm : is.unread.length < m) :
    (decode lib overflow sizeType t target is).2.unread.length < t.left sizeType m := by
  induction t generalizing m is with
  | pair a b iha ihb | field a b iha ihb =>
    have hfirst := iha (fun h => hover (Bool.or_inl h)) target.1 hm
    exact ihb (fun h => (hover (Bool.or_inr h)).mono (left_le sizeType a m)) target.2 hfirst
  | lastField t ih => exact ih hover target hm
  | _ => exact (decode_advances lib sizeType _ hover target is hm).left_lt hm

theorem decode_fails (lib : StdLibrary) (sizeType : LengthType) (t : Ty) (hover : t.unordered = true → Harmless m overflow)
    (hfails : t.fails sizeType m = true) (target : t.Value) {is : VectorReader}
    (hm : is.unread.length < m) :
    (decode lib overflow sizeType t target is).2.result = .no := by
  induction t generalizing m is with
  | pair a b iha ihb | field a b iha ihb =>
    have hfirst := decode_left lib sizeType a (fun h => hover (Bool.or_inl h)) target.1 hm
    exact ihb (fun h => (hover (Bool.or_inr h)).mono (left_le sizeType a m)) hfails target.2 hfirst
  | lastField t ih => exact ih hover hfails target hm
  | _ => exact (decode_advances lib sizeType _ hover target is hm).result_no hm (of_decide_eq_true hfails)

end Short

section Target
variable {α β : Type}

def SameWay (decode decode' : VectorReader → α × VectorReader) : Prop :=
  ∀ is, (decode is).2 = (decode' is).2

theorem sameWay_block (n : ℕ) (target target' : α) (ofBytes ofBytes' : List UInt8 → α) :
    SameWay (fun is => block is n target ofBytes) fun is => block is n target' ofBytes' := by
  intro is
  simp only [block]
  split <;> rfl

theorem sameWay_sized {sizeType : LengthType} {target target' : α}
    {rest rest' : ℕ → VectorReader → α × VectorReader} (h : ∀ n, SameWay (rest n) (rest' n)) :
    SameWay (fun is => sized sizeType is target rest) fun is => sized sizeType is target' rest' := by
  intro is
  simp only [sized]
  split
  · rfl
  · exact h _ _

theorem sameWay_loopInto {decode : α → VectorReader → α × VectorReader}
    (h : ∀ x x', SameWay (decode x) (decode x')) {xs xs' : List α} (hlen : xs.length = xs'.length) :
    SameWay (loopInto decode xs) (loopInto decode xs') := by
  intro is
  induction xs generalizing xs' is with
  | nil =>
    obtain rfl := List.length_eq_zero_iff.mp hlen.symm
    rfl
  | cons x xs ih =>
    obtain ⟨x', xs', rfl⟩ := List.exists_cons_of_length_eq_add_one hlen.symm
    simp only [loopInto, h x x' is]
    split
    · exact ih (Nat.succ.inj hlen) _
    · rfl

theorem sameWay_both {first first' : VectorReader → α × VectorReader}
    {second second' : VectorReader → β × VectorReader} (ha : SameWay first first')
    (hb : SameWay second second') : SameWay (both first second) (both first' second') := by
  intro is
  simp only [both, ha is]
  exact hb _

theorem sameWay_ptr {target target' : Option α} (decode : VectorReader → α × VectorReader) :
    SameWay (fun is => ptr is target decode) fun is => ptr is target' decode := by
  intro is
  simp only [ptr]
  split
  · rfl
  · split <;> rfl

theorem length_resize (filler : α) (n : ℕ) (xs : List α) : (resize filler n xs).length = n := by
  simp only [resize, List.length_append, List.length_take, List.length_replicate]
  omega

theorem decode_sameWay (lib : StdLibrary) (overflow : Overflow) (sizeType : LengthType) (t : Ty)
    (target target' : t.Value) :
    SameWay (decode lib overflow sizeType t target) (decode lib overflow sizeType t target') := by
  have hresize : ∀ {α : Type} (filler : α) (xs xs' : List α) (n : ℕ),
      (resize filler n xs).length = (resize filler n xs').length := fun filler xs xs' n => by
    rw [length_resize, length_resize]
  induction t with
  | int w | enum w => exact sameWay_block _ _ _ _ _
  | string => exact sameWay_sized fun n => sameWay_block _ _ _ _ _
  | timePoint => exact sameWay_block _ _ _ _ _
  | vector t ih =>
    simp only [decode, Read.vector]
    cases t.scalar with
    | none => exact sameWay_sized fun n => sameWay_loopInto ih (hresize _ _ _ _)
    | some w => exact sameWay_sized fun n => sameWay_block _ _ _ _ _
  | deque t ih => exact sameWay_sized fun n => sameWay_loopInto ih (hresize _ _ _ _)
  | list t ih | map k v ihk ihv | unorderedMap k v ihk ihv => exact sameWay_sized fun n is => rfl
  | array n t ih =>
    simp only [decode, Read.array]
    cases t.scalar with
    | none =>
      exact fun is => sameWay_loopInto ih (target.2.trans target'.2.symm) is
    | some w => exact sameWay_block _ _ _ _ _
  | pair a b iha ihb | field a b iha ihb => exact sameWay_both (iha _ _) (ihb _ _)
  | uniquePtr t ih | sharedPtr t ih => exact sameWay_ptr _
  | lastField t ih => exact ih _ _

end Target

structure Cut (noticed : Bool) (bound : ℕ) (is : VectorReader) : Prop where
  lt : is.unread.length < bound
  no : noticed = true → is.result = .no

theorem Cut.mono {noticed : Bool} {bound bound' : ℕ} {is : VectorReader} (h : Cut noticed bound is)
    (hle : bound ≤ bound') : Cut noticed bound' is := ⟨Nat.lt_of_lt_of_le h.lt hle, h.no⟩

def CutOff {α : Type} (noticed : Bool) (bound : ℕ) (decode : VectorReader → α × VectorReader)
    (code : List UInt8) : Prop :=
  ∀ x y offset result, code = x ++ y → y ≠ [] → Cut noticed bound (decode ⟨x, offset, result⟩).2

section CutOff
variable {α β : Type} {noticed : Bool} {bound : ℕ}

theorem CutOff.weaken {decode : VectorReader → α × VectorReader} {code : List UInt8}
    (h : CutOff true bound decode code) : CutOff noticed bound decode code := by
  intro x y offset result hcode hy
  have hcut := h x y offset result hcode hy
  exact ⟨hcut.lt, fun _ => hcut.no rfl⟩

theorem cutOff_block {code : List UInt8} {n : ℕ} (hn : code.length = n) (target : α)
    (ofBytes : List UInt8 → α) : CutOff true n (fun is => block is n target ofBytes) code := by
  intro x y offset result hcode hy
  have hlen : (VectorReader.unread ⟨x, offset, result⟩).length < n := by
    have := List.length_pos_iff.mpr hy
    rw [← hn, hcode, List.length_append]
    exact Nat.lt_add_of_pos_right this
  simp only [block, VectorReader.read_of_lt hlen]
  exact ⟨hlen, fun _ => rfl⟩

theorem append_eq_append_cases {a b x y : List UInt8} (h : a ++ b = x ++ y) :
    (∃ z, a = x ++ z ∧ z ≠ []) ∨ ∃ z, x = a ++ z ∧ b = z ++ y := by
  obtain ⟨z, hx, hb⟩ | ⟨z, ha, hy⟩ := List.append_eq_append_iff.mp h
  · exact .inr ⟨z, hx, hb⟩
  · by_cases hz : z = []
    · right
      subst hz
      exact ⟨[], by simpa using ha.symm, hy.symm⟩
    · exact .inl ⟨z, ha, hz⟩

theorem LengthType.extract_cut (sizeType : LengthType) {n : ℕ} (hn : n < sizeType.limit)
    {x z : List UInt8} (h : sizeType.serialize n = x ++ z) (hz : z ≠ []) (offset : ℕ)
    (result : ReadResult) :
    (sizeType.extract ⟨x, offset, result⟩).1 = none ∧
      Cut true 4 (sizeType.extract ⟨x, offset, result⟩).2 := by
  obtain ⟨hnone, hno, hlt, -⟩ | ⟨n', code, y, hx, -, -, hcode⟩ :=
    sizeType.extract_cases ⟨x, offset, result⟩
  · exact ⟨hnone, hlt, fun _ => hno⟩
  · exfalso
    -- with the rest of the length behind them the same bytes would leave something over
    have hwhole := sizeType.extract_serialize hn [] offset result
    simp only at hx
    rw [h, hx, List.append_nil, List.append_assoc, hcode] at hwhole
    simp only [Prod.mk.injEq, VectorReader.mk.injEq, List.append_eq_nil_iff] at hwhole
    exact hz hwhole.2.1.2

theorem cutOff_sized {sizeType : LengthType} {n : ℕ} (hn : n < sizeType.limit) {target : α}
    {rest : ℕ → VectorReader → α × VectorReader} {code : List UInt8}
    (h : ∀ x y offset, code = x ++ y → y ≠ [] → Cut true bound (rest n ⟨x, offset, .yes⟩).2) :
    CutOff true (max 4 bound) (fun is => sized sizeType is target rest)
      (sizeType.serialize n ++ code) := by
  intro x y offset result hcode hy
  obtain ⟨z, hsize, hz⟩ | ⟨z, rfl, hz⟩ := append_eq_append_cases hcode
  · obtain ⟨hnone, hcut⟩ := sizeType.extract_cut hn hsize hz offset result
    have heq : sizeType.extract ⟨x, offset, result⟩ =
      (none, (sizeType.extract ⟨x, offset, result⟩).2) := Prod.ext hnone rfl
    simp only [sized]
    rw [heq]
    exact hcut.mono (Nat.le_max_left _ _)
  · simp only [sized, sizeType.extract_serialize hn]
    exact (h z y _ hz hy).mono (Nat.le_max_right _ _)

theorem cutOff_loopAdd {decode : VectorReader → α × VectorReader} {add : List α → α → List α}
    {encode : α → List UInt8} {xs : List α} (hreads : ∀ x ∈ xs, Reads decode (encode x) x)
    (hcut : ∀ x ∈ xs, CutOff true bound decode (encode x)) (acc : List α) :
    CutOff true bound (loopAdd decode add xs.length acc) (xs.flatMap encode) := by
  intro x y offset result hcode hy
  induction xs generalizing acc x offset result with
  | nil => exact absurd (List.append_eq_nil_iff.mp hcode.symm).2 hy
  | cons head tail ih =>
    rw [List.flatMap_cons] at hcode
    rw [List.length_cons]
    simp only [loopAdd]
    obtain ⟨z, hhead, hz⟩ | ⟨z, rfl, hz⟩ := append_eq_append_cases hcode
    · have hx := hcut head List.mem_cons_self x z offset result hhead hz
      rwa [if_neg (by rw [hx.no rfl]; decide)]
    · simp only [hreads head List.mem_cons_self _ _ _, if_true]
      exact ih (fun x hx => hreads x (List.mem_cons_of_mem head hx))
        (fun x hx => hcut x (List.mem_cons_of_mem head hx)) _ z _ _ hz

theorem cutOff_loopInto {decode : α → VectorReader → α × VectorReader} {filler : α}
    {encode : α → List UInt8} {xs : List α} (hreads : ∀ x ∈ xs, Reads (decode filler) (encode x) x)
    (hcut : ∀ x ∈ xs, CutOff true bound (decode filler) (encode x)) :
    CutOff true bound (loopInto decode (List.replicate xs.length filler)) (xs.flatMap encode) := by
  intro x y offset result hcode hy
  rw [loopInto_replicate decode filler (fun acc _ => acc) xs.length []]
  exact cutOff_loopAdd hreads hcut [] x y offset result hcode hy

theorem CutOff.both {bound' rest : ℕ} {first : VectorReader → α × VectorReader}
    {second : VectorReader → β × VectorReader} {code code' : List UInt8} {a : α}
    (hreads : Reads first code a) (hfirst : CutOff false bound first code)
    (hsecond : CutOff noticed bound' second code')
    (hshort : ∀ is : VectorReader, is.unread.length < bound → Cut noticed rest (second is).2) :
    CutOff noticed (max rest bound') (both first second) (code ++ code') := by
  intro x y offset result hcode hy
  obtain ⟨z, hx, hz⟩ | ⟨z, rfl, hz⟩ := append_eq_append_cases hcode
  · have hcut := hfirst x z offset result hx hz
    exact (hshort _ hcut.lt).mono (Nat.le_max_left _ _)
  · simp only [Read.both, hreads _ _ _]
    exact (hsecond z y _ _ hz hy).mono (Nat.le_max_right _ _)

theorem CutOff.ptr {decode : VectorReader → α × VectorReader} {encode : α → List UInt8}
    {v : Option α} (h : ∀ x ∈ v, CutOff noticed bound decode (encode x)) :
    CutOff noticed (max 1 bound) (fun is => ptr is none decode) (encodePtr encode v) := by
  intro x y offset result hcode hy
  cases x with
  | nil =>
    have hshort : (VectorReader.unread ⟨[], offset, result⟩).length < 1 := Nat.zero_lt_one
    simp only [Read.ptr, VectorReader.read_of_lt hshort]
    exact ⟨Nat.lt_of_lt_of_le hshort (Nat.le_max_left _ _), fun _ => rfl⟩
  | cons flag x =>
    cases v with
    | none =>
      rw [encodePtr, List.cons_append, List.cons.injEq] at hcode
      exact absurd (List.append_eq_nil_iff.mp hcode.2.symm).2 hy
    | some v =>
      rw [encodePtr, List.cons_append, List.cons.injEq] at hcode
      obtain ⟨rfl, hcode⟩ := hcode
      have hread := VectorReader.read_append [1] x offset result
      simp only [List.length_singleton, List.cons_append, List.nil_append] at hread
      simp only [Read.ptr, hread, show ofBytes [1] = 1 from rfl]
      exact (h v rfl x y (offset + 1) .yes hcode hy).mono (Nat.le_max_right _ _)

end CutOff

section Guarded
variable {lib : StdLibrary} {overflow : Overflow} {sizeType : LengthType} {noticed : Bool}

theorem LengthType.size_lt (sizeType : LengthType) {n : ℕ} (hn : n < sizeType.limit) : n < 2 ^ 64 := by
  have hserialize := sizeType.extract_serialize hn [] 0 .no
  obtain ⟨hnone, -⟩ | ⟨n', code, y, hunread, -, hlt, hcode⟩ :=
    sizeType.extract_cases ⟨sizeType.serialize n ++ [], 0, .no⟩
  · rw [hserialize] at hnone
    cases hnone
  · simp only at hunread
    rw [hunread, hcode] at hserialize
    simp only [Prod.mk.injEq, Option.some.injEq] at hserialize
    exact hserialize.1 ▸ hlt

theorem cutOff_blocks {α : Type} {n bound : ℕ} {size : ℕ → ℕ} {code : List UInt8} {target : α}
    {resized : ℕ → α} {ofBytes : ℕ → List UInt8 → α} (hn : n < sizeType.limit)
    (hcode : code.length = size n) (hbound : size n ≤ bound) (hfour : 4 ≤ bound) :
    CutOff true bound
      (fun is => sized sizeType is target fun n is => block is (size n) (resized n) (ofBytes n))
      (sizeType.serialize n ++ code) := by
  have hblock : ∀ x y offset, code = x ++ y → y ≠ [] →
      Cut true bound (block ⟨x, offset, .yes⟩ (size n) (resized n) (ofBytes n)).2 := by
    intro x y offset hxy hy
    exact (cutOff_block hcode (resized n) (ofBytes n) x y offset .yes hxy hy).mono hbound
  rw [← Nat.max_eq_right hfour]
  exact cutOff_sized hn hblock

theorem cutOff_elements {α : Type} {decode : α → VectorReader → α × VectorReader} {filler : α}
    {encode : α → List UInt8} {xs : List α} {bound : ℕ} (hlen : xs.length < sizeType.limit)
    (hreads : ∀ x ∈ xs, Reads (decode filler) (encode x) x)
    (hcut : ∀ x ∈ xs, CutOff true bound (decode filler) (encode x)) :
    CutOff true (max 4 bound) (elements sizeType decode filler [])
      (encodeElements sizeType encode xs) := by
  apply cutOff_sized hlen
  intro x y offset
  rw [resize_nil]
  exact cutOff_loopInto hreads hcut x y offset .yes

theorem cutOff_added {α : Type} {decode : VectorReader → α × VectorReader}
    {add : List α → α → List α} {encode : α → List UInt8} {turns : ℕ → VectorReader → ℕ}
    {xs target : List α} {bound : ℕ} (hlen : xs.length < sizeType.limit)
    (hturns : ∀ is, turns xs.length is = xs.length) (hreads : ∀ x ∈ xs, Reads decode (encode x) x)
    (hcut : ∀ x ∈ xs, CutOff true bound decode (encode x)) :
    CutOff true (max 4 bound)
      (fun is => sized sizeType is target fun n is => loopAdd decode add (turns n is) [] is)
      (encodeElements sizeType encode xs) := by
  apply cutOff_sized hlen
  intro x y offset
  rw [hturns]
  exact cutOff_loopAdd hreads hcut [] x y offset .yes

theorem cutOff_unorderedMap {κ ν : Type} {decode : VectorReader → (κ × ν) × VectorReader}
    {less : κ → κ → Bool}
    {overflow : List (κ × ν) → VectorReader → List (κ × ν) × VectorReader}
    {encode : κ × ν → List UInt8} {xs target : List (κ × ν)} {bound : ℕ}
    (hlen : xs.length < sizeType.limit) (hcount : xs.length < 2 ^ 31)
    (hreads : ∀ x ∈ xs, Reads decode (encode x) x)
    (hcut : ∀ x ∈ xs, CutOff true bound decode (encode x)) :
    CutOff true (max 4 bound) (unorderedMap sizeType decode less overflow target)
      (encodeElements sizeType encode xs) := by
  apply cutOff_sized hlen
  intro x y offset hxy hy
  have hcounted : ¬2 ^ 31 ≤ xs.length := by omega
  rw [Nat.min_eq_left (Nat.le_of_lt hcount)]
  simp only [hcounted, false_and, if_false]
  exact cutOff_loopAdd hreads hcut [] x y offset .yes hxy hy

theorem cutOff_parts {a b : Ty} {x : a.Value} {y : b.Value}
    (hx : Fits lib sizeType.countedLimits a x)
    (hfirst : CutOff false (a.cutLeaves sizeType) (decode lib overflow sizeType a a.fresh) (encode lib sizeType a x))
    (hsecond : CutOff noticed (b.cutLeaves sizeType) (decode lib overflow sizeType b b.fresh) (encode lib sizeType b y))
    (hcountable : b.countable (a.cutLeaves sizeType) = true)
    (hfails : noticed = true → b.fails sizeType (a.cutLeaves sizeType) = true) :
    CutOff noticed (max (b.left sizeType (a.cutLeaves sizeType)) (b.cutLeaves sizeType))
      (both (decode lib overflow sizeType a a.fresh) (decode lib overflow sizeType b b.fresh))
      (encode lib sizeType a x ++ encode lib sizeType b y) := by
  have hover : b.unordered = true → Harmless (a.cutLeaves sizeType) overflow :=
    harmless_of_countable hcountable
  apply CutOff.both (reads_encode lib overflow sizeType a x hx) hfirst hsecond
  intro is hlt
  exact ⟨decode_left lib sizeType b hover b.fresh hlt,
    fun hnoticed => decode_fails lib sizeType b hover (hfails hnoticed) b.fresh hlt⟩

theorem cutOff_encode (t : Ty) (hguarded : t.guarded sizeType noticed = true) (v : t.Value)
    (h : Fits lib sizeType.countedLimits t v) :
    CutOff noticed (t.cutLeaves sizeType) (decode lib overflow sizeType t t.fresh) (encode lib sizeType t v) := by
  induction t generalizing noticed with
  | int w | enum w => exact (cutOff_block (length_toBytes _ _) _ _).weaken
  | string =>
    exact (cutOff_blocks h.1 rfl (Nat.le_of_lt (sizeType.size_lt h.1)) (by decide)).weaken
  | timePoint => exact (cutOff_block (length_toBytes _ _) _ _).weaken
  | vector t ih =>
    simp only [decode, encode, cutLeaves, Read.vector]
    cases hscalar : t.scalar with
    | none =>
      exact (cutOff_elements h.1 (fun x hx => reads_encode lib overflow sizeType t x (h.2 x hx))
        fun x hx => ih hguarded x (h.2 x hx)).weaken
    | some w =>
      have hsize := Nat.mul_le_mul_right w.bytes (Nat.le_of_lt (sizeType.size_lt h.1))
      have hw : 0 < w.bytes := by cases w <;> decide
      have hfour : 4 ≤ 2 ^ 64 * w.bytes := by omega
      exact (cutOff_blocks h.1 (length_flatMap_scalar lib sizeType hscalar v) hsize hfour).weaken
  | deque t ih =>
    exact (cutOff_elements h.1 (fun x hx => reads_encode lib overflow sizeType t x (h.2 x hx))
      fun x hx => ih hguarded x (h.2 x hx)).weaken
  | list t ih =>
    exact (cutOff_added (Nat.lt_of_lt_of_le h.1 (Nat.min_le_left _ _))
      (turns32_of_lt (Nat.lt_of_lt_of_le h.1 (Nat.min_le_right _ _)))
      (fun x hx => reads_encode lib overflow sizeType t x (h.2 x hx))
      fun x hx => ih hguarded x (h.2 x hx)).weaken
  | array n t ih =>
    simp only [decode, encode, cutLeaves, Read.array]
    cases hscalar : t.scalar with
    | none =>
      have hcut := cutOff_loopInto (fun x hx => reads_encode lib overflow sizeType t x (h x hx))
        fun x hx => ih hguarded x (h x hx)
      rw [v.2] at hcut
      exact hcut.weaken
    | some w =>
      exact (cutOff_block (by rw [length_flatMap_scalar lib sizeType hscalar, v.2]) _ _).weaken
  | map k w ihk ihw =>
    simp only [guarded, Bool.and_eq_true] at hguarded
    obtain ⟨⟨⟨hk, hw⟩, hcountable⟩, hfails⟩ := hguarded
    obtain ⟨-, hlen, hfits⟩ := h
    exact (cutOff_added (Nat.lt_of_lt_of_le hlen (Nat.min_le_left _ _))
      (turns32_of_lt (Nat.lt_of_lt_of_le hlen (Nat.min_le_right _ _)))
      (fun e he => (reads_encode lib overflow sizeType k e.1 (hfits e he).1).both
        (reads_encode lib overflow sizeType w e.2 (hfits e he).2))
      fun e he => cutOff_parts (hfits e he).1 (ihk hk e.1 (hfits e he).1) (ihw hw e.2 (hfits e he).2)
        hcountable fun _ => hfails).weaken
  | unorderedMap k w ihk ihw =>
    simp only [guarded, Bool.and_eq_true] at hguarded
    obtain ⟨⟨⟨hk, hw⟩, hcountable⟩, hfails⟩ := hguarded
    obtain ⟨-, hlen, hfits⟩ := h
    have hperm := lib.bucketOrder_perm k w v
    have hfits : ∀ e ∈ lib.bucketOrder k w v, Fits lib sizeType.countedLimits k e.1 ∧
        Fits lib sizeType.countedLimits w e.2 := fun e he => hfits e (hperm.mem_iff.mp he)
    rw [← hperm.length_eq] at hlen
    exact (cutOff_unorderedMap (Nat.lt_of_lt_of_le hlen (Nat.min_le_left _ _))
      (Nat.lt_of_lt_of_le hlen (Nat.min_le_right _ _))
      (fun e he => (reads_encode lib overflow sizeType k e.1 (hfits e he).1).both
        (reads_encode lib overflow sizeType w e.2 (hfits e he).2))
      fun e he => cutOff_parts (hfits e he).1 (ihk hk e.1 (hfits e he).1) (ihw hw e.2 (hfits e he).2)
        hcountable fun _ => hfails).weaken
  | pair a b iha ihb | field a b iha ihb =>
    simp only [guarded, Bool.and_eq_true] at hguarded
    obtain ⟨⟨⟨ha, hb⟩, hcountable⟩, hfails⟩ := hguarded
    refine cutOff_parts h.1 (iha ha v.1 h.1) (ihb hb v.2 h.2) hcountable ?_
    rintro rfl
    simpa using hfails
  | uniquePtr t ih | sharedPtr t ih => exact CutOff.ptr fun x hx => ih hguarded x (h x hx)
  | lastField t ih => exact ih hguarded v h

end Guarded

end AetherClient
