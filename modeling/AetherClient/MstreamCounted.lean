import AetherClient.MstreamRoundTrip
import AetherClient.MstreamAdvance

set_option autoImplicit false

namespace AetherClient
open LittleEndian Ty Read

/-- The value comes back, and just the bytes that followed it are left, whatever an overflow of
the counter does. -/
def RoundTrips (lib : StdLibrary) (sizeType : LengthType) (t : Ty) (v : t.Value) : Prop :=
  ∀ overflow, Reads (decode lib overflow sizeType t t.fresh) (encode lib sizeType t v) v

def usedUp : Overflow := fun _ _ entries is => (entries, ⟨[], is.offset, .no⟩)

theorem harmless_usedUp (cap : ℕ) : Harmless cap usedUp := fun _ _ _ _ _ => ⟨rfl, rfl⟩

def Shrinks {α : Type} (decode : VectorReader → α × VectorReader) : Prop :=
  ∀ is, (decode is).2.unread.length ≤ is.unread.length

/-- However many bytes follow the code, only a bounded number of them is left. -/
def Derails {α : Type} (decode : VectorReader → α × VectorReader) (code : List UInt8) : Prop :=
  ∃ bound, ∀ y offset result, (decode ⟨code ++ y, offset, result⟩).2.unread.length < bound

section Derails
variable {α β : Type}

theorem Derails.not_reads {decode : VectorReader → α × VectorReader} {code : List UInt8}
    (h : Derails decode code) (x : α) : ¬Reads decode code x := by
  intro hreads
  obtain ⟨bound, hbound⟩ := h
  have hlt := hbound (List.replicate bound 0) 0 .no
  rw [hreads] at hlt
  simp at hlt

theorem derails_sized {sizeType : LengthType} {n bound : ℕ} (hn : n < sizeType.limit) {target : α}
    {rest : ℕ → VectorReader → α × VectorReader} {code : List UInt8}
    (h : ∀ y offset, (rest n ⟨code ++ y, offset, .yes⟩).2.unread.length < bound) :
    Derails (fun is => sized sizeType is target rest) (sizeType.serialize n ++ code) := by
  refine ⟨bound, fun y offset result => ?_⟩
  simp only [sized, List.append_assoc, sizeType.extract_serialize hn]
  exact h y _

theorem Derails.both_left {first : VectorReader → α × VectorReader}
    {second : VectorReader → β × VectorReader} {code : List UInt8} (h : Derails first code)
    (hshrinks : Shrinks second) (code' : List UInt8) :
    Derails (both first second) (code ++ code') := by
  obtain ⟨bound, hbound⟩ := h
  refine ⟨bound, fun y offset result => ?_⟩
  rw [List.append_assoc]
  exact Nat.lt_of_le_of_lt (hshrinks _) (hbound _ _ _)

theorem Derails.both_right {first : VectorReader → α × VectorReader}
    {second : VectorReader → β × VectorReader} {code code' : List UInt8} {a : α}
    (ha : Reads first code a) (h : Derails second code') :
    Derails (both first second) (code ++ code') := by
  obtain ⟨bound, hbound⟩ := h
  refine ⟨bound, fun y offset result => ?_⟩
  simp only [both, List.append_assoc, ha _ _ _]
  exact hbound _ _ _

theorem Derails.ptr {decode : VectorReader → α × VectorReader} {code : List UInt8}
    (h : Derails decode code) : Derails (fun is => ptr is none decode) (1 :: code) := by
  obtain ⟨bound, hbound⟩ := h
  refine ⟨bound, fun y offset result => ?_⟩
  have hread := VectorReader.read_append [1] (code ++ y) offset result
  simp only [Read.ptr, List.length_singleton, List.cons_append, List.nil_append] at hread ⊢
  rw [hread]
  exact hbound _ _ _

theorem loopAdd_shrinks {decode : VectorReader → α × VectorReader} (h : Shrinks decode)
    (add : List α → α → List α) (turns : ℕ) (xs : List α) : Shrinks (loopAdd decode add turns xs) := by
  intro is
  induction turns generalizing is xs with
  | zero => exact Nat.le_refl _
  | succ turns ih =>
    simp only [loopAdd]
    split
    · exact Nat.le_trans (ih _ _) (h is)
    · exact h is

structure Spoilt (decode : VectorReader → α × VectorReader) (encode : α → List UInt8)
    (xs : List α) : Prop where
  shrinks : Shrinks decode
  each : ∀ x ∈ xs, Reads decode (encode x) x ∨ Derails decode (encode x)
  one : ∃ x ∈ xs, ¬Reads decode (encode x) x

theorem Spoilt.head_or_tail {decode : VectorReader → α × VectorReader}
    {encode : α → List UInt8} {x : α} {xs : List α} (h : Spoilt decode encode (x :: xs)) :
    Derails decode (encode x) ∨ Reads decode (encode x) x ∧ Spoilt decode encode xs := by
  obtain hreads | hderails := h.each x List.mem_cons_self
  · right
    refine ⟨hreads, h.shrinks, fun x' hx' => h.each x' (List.mem_cons_of_mem x hx'), ?_⟩
    obtain ⟨x', hx', hnot⟩ := h.one
    obtain rfl | hx' := List.mem_cons.mp hx'
    · exact absurd hreads hnot
    · exact ⟨x', hx', hnot⟩
  · exact .inl hderails

theorem loopAdd_derails {decode : VectorReader → α × VectorReader} {encode : α → List UInt8}
    {xs : List α} (h : Spoilt decode encode xs) (add : List α → α → List α) :
    ∃ bound, ∀ acc y offset result, (loopAdd decode add xs.length acc
      ⟨xs.flatMap encode ++ y, offset, result⟩).2.unread.length < bound := by
  induction xs with
  | nil =>
    obtain ⟨x, hx, -⟩ := h.one
    cases hx
  | cons x xs ih =>
    obtain ⟨bound, hbound⟩ | ⟨hreads, htail⟩ := h.head_or_tail
    · refine ⟨bound, fun acc y offset result => ?_⟩
      rw [List.flatMap_cons, List.append_assoc, List.length_cons]
      simp only [loopAdd]
      have hlt := hbound (xs.flatMap encode ++ y) offset result
      split
      · exact Nat.lt_of_le_of_lt (loopAdd_shrinks h.shrinks _ _ _ _) hlt
      · exact hlt
    · obtain ⟨bound, hbound⟩ := ih htail
      refine ⟨bound, fun acc y offset result => ?_⟩
      rw [List.flatMap_cons, List.append_assoc, List.length_cons]
      simp only [loopAdd, hreads _ _ _, if_true]
      exact hbound _ _ _ _

theorem loopInto_derails {decode : α → VectorReader → α × VectorReader} {filler : α}
    {encode : α → List UInt8} {xs : List α} (h : Spoilt (decode filler) encode xs) :
    Derails (loopInto decode (List.replicate xs.length filler)) (xs.flatMap encode) := by
  obtain ⟨bound, hbound⟩ := loopAdd_derails h (fun acc _ => acc)
  refine ⟨bound, fun y offset result => ?_⟩
  rw [loopInto_replicate decode filler (fun acc _ => acc) xs.length []]
  exact hbound [] y offset result

theorem Spoilt.of_not {P Q : α → Prop} {decode : VectorReader → α × VectorReader}
    {encode : α → List UInt8} {xs : List α} (hshrinks : Shrinks decode)
    (hreads : ∀ x, Q x → Reads decode (encode x) x)
    (hderails : ∀ x, P x → ¬Q x → Derails decode (encode x)) (hP : ∀ x ∈ xs, P x)
    (hnot : ¬∀ x ∈ xs, Q x) : Spoilt decode encode xs where
  shrinks := hshrinks
  each := fun x hx => by
    by_cases hQ : Q x
    · exact .inl (hreads x hQ)
    · exact .inr (hderails x (hP x hx) hQ)
  one := by
    simp only [not_forall] at hnot
    obtain ⟨x, hx, hQ⟩ := hnot
    exact ⟨x, hx, (hderails x (hP x hx) hQ).not_reads x⟩

theorem result_loopAdd_uncounted {bound least : ℕ} {decode : VectorReader → α × VectorReader}
    (h : ∀ cap, Advances cap bound least decode) (hleast : 0 < least) (add : List α → α → List α)
    (xs : List α) {is : VectorReader} (hyes : is.result = .yes) :
    (loopAdd decode add (is.unread.length + 1) xs is).2.result = .no := by
  have hloop := advance_loopAdd (h (is.unread.length + 1)) add (is.unread.length + 1) xs
    (Nat.lt_succ_self _) hyes
  apply ReadResult.eq_no
  intro hyes
  have htaken := hloop.taken hyes
  have hturns := Nat.le_mul_of_pos_right (is.unread.length + 1) hleast
  omega

theorem loopAdd_uncounted {bound least : ℕ} {decode : VectorReader → α × VectorReader}
    (h : ∀ cap, Advances cap bound least decode) (hleast : 0 < least) (add : List α → α → List α)
    (xs : List α) {is : VectorReader} (hyes : is.result = .yes) :
    (loopAdd decode add (is.unread.length + 1) xs is).2.unread.length < bound := by
  have hloop := advance_loopAdd (h (is.unread.length + 1)) add (is.unread.length + 1) xs
    (Nat.lt_succ_self _) hyes
  exact hloop.left (result_loopAdd_uncounted h hleast add xs hyes)

end Derails

section Uncounted
variable {lib : StdLibrary} {sizeType : LengthType} {α κ ν : Type} {bound least : ℕ}

theorem derails_elements {decode : α → VectorReader → α × VectorReader} {filler : α}
    {encode : α → List UInt8} {xs : List α} (hlen : xs.length < sizeType.limit)
    (h : Spoilt (decode filler) encode xs) :
    Derails (elements sizeType decode filler []) (encodeElements sizeType encode xs) := by
  obtain ⟨bound, hbound⟩ := loopInto_derails h
  apply derails_sized hlen
  intro y offset
  rw [resize_nil]
  exact hbound y offset .yes

theorem derails_list {decode : VectorReader → α × VectorReader} {add : List α → α → List α}
    {encode : α → List UInt8} {xs target : List α} (hlen : xs.length < sizeType.limit)
    (hadv : ∀ cap, Advances cap bound least decode) (hleast : 0 < least)
    (h : xs.length < 2 ^ 32 → Spoilt decode encode xs) :
    Derails (fun is => sized sizeType is target fun n is => loopAdd decode add (turns32 n is) [] is)
      (encodeElements sizeType encode xs) := by
  by_cases hcount : xs.length < 2 ^ 32
  · obtain ⟨bound, hbound⟩ := loopAdd_derails (h hcount) _
    apply derails_sized hlen
    intro y offset
    rw [turns32_of_lt hcount]
    exact hbound [] y offset .yes
  · apply derails_sized hlen
    intro y offset
    rw [turns32, if_neg hcount]
    exact loopAdd_uncounted hadv hleast add [] rfl

theorem derails_unorderedMap {decode : VectorReader → (κ × ν) × VectorReader}
    {less : κ → κ → Bool} {encode : κ × ν → List UInt8} {xs target : List (κ × ν)}
    (hlen : xs.length < sizeType.limit) (hadv : ∀ cap, Advances cap bound least decode)
    (hbound : 0 < bound) (h : xs.length < 2 ^ 31 → Spoilt decode encode xs) :
    Derails (unorderedMap sizeType decode less (fun entries is => (entries, ⟨[], is.offset, .no⟩))
      target) (encodeElements sizeType encode xs) := by
  by_cases hcount : xs.length < 2 ^ 31
  · obtain ⟨bound, hbound⟩ := loopAdd_derails (h hcount) _
    have hcounted : ¬2 ^ 31 ≤ xs.length := by omega
    apply derails_sized hlen
    intro y offset
    rw [Nat.min_eq_left (Nat.le_of_lt hcount)]
    simp only [hcounted, false_and, if_false]
    exact hbound [] y offset .yes
  · apply derails_sized hlen
    intro y offset
    have hloop := advance_loopAdd (hadv _) (emplace less) (min xs.length (2 ^ 31)) []
      (Nat.lt_succ_self (xs.flatMap encode ++ y).length)
      (show VectorReader.result ⟨xs.flatMap encode ++ y, offset, .yes⟩ = .yes from rfl)
    simp only
    split
    · exact hbound
    · next hlimit =>
      exact hloop.left (ReadResult.eq_no fun hyes => hlimit ⟨by omega, hyes⟩)

theorem decode_usedUp (lib : StdLibrary) (sizeType : LengthType) (t : Ty) (target : t.Value) (cap : ℕ) :
    Advances cap t.leaves (t.takes sizeType) (decode lib usedUp sizeType t target) :=
  decode_advances lib sizeType t (fun _ => harmless_usedUp cap) target

theorem decode_shrinks (lib : StdLibrary) (sizeType : LengthType) (t : Ty) (target : t.Value) :
    Shrinks (decode lib usedUp sizeType t target) := by
  intro is
  exact (decode_usedUp lib sizeType t target _ is (Nat.lt_succ_self _)).le

def DerailsUncounted (lib : StdLibrary) (sizeType : LengthType) (t : Ty) : Prop :=
  ∀ v : t.Value, Fits lib sizeType.limits t v → ¬Fits lib sizeType.countedLimits t v →
    Derails (decode lib usedUp sizeType t t.fresh) (encode lib sizeType t v)

theorem DerailsUncounted.both {a b : Ty} (ha : DerailsUncounted lib sizeType a)
    (hb : DerailsUncounted lib sizeType b) (x : a.Value) (y : b.Value)
    (h : Fits lib sizeType.limits a x ∧ Fits lib sizeType.limits b y)
    (hnot : ¬(Fits lib sizeType.countedLimits a x ∧ Fits lib sizeType.countedLimits b y)) :
    Derails (both (decode lib usedUp sizeType a a.fresh) (decode lib usedUp sizeType b b.fresh))
      (encode lib sizeType a x ++ encode lib sizeType b y) := by
  by_cases hx : Fits lib sizeType.countedLimits a x
  · have hy : ¬Fits lib sizeType.countedLimits b y := fun hy => hnot ⟨hx, hy⟩
    exact Derails.both_right (reads_encode lib usedUp sizeType a x hx) (hb y h.2 hy)
  · exact (ha x h.1 hx).both_left (decode_shrinks lib sizeType b b.fresh) _

theorem DerailsUncounted.spoilt {t : Ty} (ht : DerailsUncounted lib sizeType t)
    {vs : List t.Value} (h : ∀ v ∈ vs, Fits lib sizeType.limits t v)
    (hnot : ¬∀ v ∈ vs, Fits lib sizeType.countedLimits t v) :
    Spoilt (decode lib usedUp sizeType t t.fresh) (encode lib sizeType t) vs :=
  Spoilt.of_not (decode_shrinks lib sizeType t t.fresh) (reads_encode lib usedUp sizeType t) ht h hnot

theorem DerailsUncounted.spoilt_entries {k v : Ty} (hk : DerailsUncounted lib sizeType k)
    (hv : DerailsUncounted lib sizeType v) {entries : List (k.Value × v.Value)}
    (h : ∀ e ∈ entries, Fits lib sizeType.limits k e.1 ∧ Fits lib sizeType.limits v e.2)
    (hnot : ¬∀ e ∈ entries, Fits lib sizeType.countedLimits k e.1 ∧ Fits lib sizeType.countedLimits v e.2) :
    Spoilt (decodeEntry lib usedUp sizeType k v) (encodeEntry lib sizeType k v) entries := by
  refine Spoilt.of_not ?_ (fun e he => ?_) (fun e he hnot => hk.both hv e.1 e.2 he hnot) h hnot
  · exact fun is => Nat.le_trans (decode_shrinks lib sizeType v v.fresh _) (decode_shrinks lib sizeType k k.fresh is)
  · exact (reads_encode lib usedUp sizeType k e.1 he.1).both (reads_encode lib usedUp sizeType v e.2 he.2)

theorem derails_of_not_fits (lib : StdLibrary) (sizeType : LengthType) (t : Ty) :
    DerailsUncounted lib sizeType t := by
  induction t with
  | int w | enum w => exact fun v _ hnot => absurd trivial hnot
  | string => exact fun v h hnot => absurd h hnot
  | timePoint => exact fun v h hnot => absurd h hnot
  | vector t ih =>
    intro v h hnot
    have hspoilt := ih.spoilt h.2 fun hx => hnot ⟨h.1, hx⟩
    cases hscalar : t.scalar with
    | none =>
      simp only [decode, encode, Read.vector, hscalar]
      exact derails_elements h.1 hspoilt
    | some w => exact absurd ⟨h.1, fun x _ => fits_scalar lib hscalar x⟩ hnot
  | deque t ih =>
    intro v h hnot
    exact derails_elements h.1 (ih.spoilt h.2 fun hx => hnot ⟨h.1, hx⟩)
  | list t ih =>
    intro v h hnot
    exact derails_list h.1 (decode_usedUp lib sizeType t t.fresh) (takes_pos sizeType t) fun hcount => ih.spoilt h.2 fun hx => hnot ⟨lt_min h.1 hcount, hx⟩
  | array n t ih =>
    intro v h hnot
    have hspoilt := ih.spoilt h hnot
    cases hscalar : t.scalar with
    | none =>
      obtain ⟨bound, hbound⟩ := loopInto_derails hspoilt
      rw [v.2] at hbound
      simp only [decode, encode, Read.array, hscalar]
      exact ⟨bound, hbound⟩
    | some w => exact absurd (fun x _ => fits_scalar lib hscalar x) hnot
  | map k v ihk ihv =>
    intro entries h hnot
    have hadv := fun cap => advances_both (decode_usedUp lib sizeType k k.fresh cap)
      (decode_usedUp lib sizeType v v.fresh cap)
    exact derails_list h.2.1 hadv (takes_pos sizeType v) fun hcount =>
      ihk.spoilt_entries ihv h.2.2 fun he => hnot ⟨h.1, lt_min h.2.1 hcount, he⟩
  | unorderedMap k v ihk ihv =>
    intro entries h hnot
    have hperm := lib.bucketOrder_perm k v entries
    have hadv := fun cap => advances_both (decode_usedUp lib sizeType k k.fresh cap)
      (decode_usedUp lib sizeType v v.fresh cap)
    refine derails_unorderedMap (by rw [hperm.length_eq]; exact h.2.1) hadv (leaves_pos v) ?_
    intro hcount
    rw [hperm.length_eq] at hcount
    apply ihk.spoilt_entries ihv
    · exact fun e he => h.2.2 e (hperm.mem_iff.mp he)
    · intro he
      exact hnot ⟨h.1, lt_min h.2.1 hcount, fun e hmem => he e (hperm.mem_iff.mpr hmem)⟩
  | pair a b iha ihb | field a b iha ihb => exact fun v h hnot => iha.both ihb v.1 v.2 h hnot
  | uniquePtr t ih | sharedPtr t ih =>
    intro v h hnot
    cases v with
    | none =>
      refine absurd ?_ hnot
      intro x hx
      cases hx
    | some x =>
      have hx : ¬Fits lib sizeType.countedLimits t x := fun hx =>
        hnot fun x' hx' => Option.mem_some.mp hx' ▸ hx
      exact (ih x (h x rfl) hx).ptr
  | lastField t ih => exact ih

theorem roundTrips_iff (lib : StdLibrary) (sizeType : LengthType) (t : Ty) (v : t.Value)
    (h : Fits lib sizeType.limits t v) :
    RoundTrips lib sizeType t v ↔ Fits lib sizeType.countedLimits t v := by
  constructor
  · intro htrip
    by_contra hnot
    exact (derails_of_not_fits lib sizeType t v h hnot).not_reads v (htrip usedUp)
  · intro hcounted overflow
    exact reads_encode lib overflow sizeType t v hcounted

end Uncounted

def sampleStruct : Ty :=
  .field (.list (.int .two)) (.field .string (.lastField (.uniquePtr (.map (.int .one) .timePoint))))

def sampleValue : sampleStruct.Value :=
  ([7#16, 300#16], [104, 105], some [(1#8, (5000 : ℤ)), (2#8, (-3000 : ℤ))])

theorem roundTrips_sampleValue :
    Fits nanosecondLibrary packedLength.limits sampleStruct sampleValue ∧
      (RoundTrips nanosecondLibrary packedLength sampleStruct sampleValue ↔
        Fits nanosecondLibrary packedLength.countedLimits sampleStruct sampleValue) := by
  have h : Fits nanosecondLibrary packedLength.limits sampleStruct sampleValue := by
    refine ⟨⟨by decide, fun _ _ => trivial⟩, ⟨by decide, fun _ _ => trivial⟩, ?_⟩
    rintro entries ⟨⟩
    refine ⟨List.pairwise_pair.mpr rfl, by decide, ?_⟩
    intro e he
    obtain rfl | rfl := List.mem_pair.mp he
    · exact ⟨trivial, ⟨5, rfl⟩, by decide, by decide⟩
    · exact ⟨trivial, ⟨-3, rfl⟩, by decide, by decide⟩
  exact ⟨h, roundTrips_iff nanosecondLibrary packedLength sampleStruct sampleValue h⟩

def longList : (Ty.list (.int .one)).Value := List.replicate (2 ^ 32) (fresh (.int .one))

/-- The length type carries the size, the 32-bit counter of the loop starts again from zero. -/
theorem long_list_not_read :
    Fits nanosecondLibrary packedLength.limits (.list (.int .one)) longList ∧
      ¬RoundTrips nanosecondLibrary packedLength (.list (.int .one)) longList := by
  have hlength : List.length longList = 2 ^ 32 := List.length_replicate
  have h : Fits nanosecondLibrary packedLength.limits (.list (.int .one)) longList :=
    ⟨hlength.trans_lt (by decide), fun _ _ => trivial⟩
  have hnot : ¬Fits nanosecondLibrary packedLength.countedLimits (.list (.int .one)) longList := by
    rintro ⟨hlen, -⟩
    have hcount := Nat.lt_of_lt_of_le hlen (Nat.min_le_right _ _)
    exact absurd hlength (Nat.ne_of_lt hcount)
  refine ⟨h, fun htrip => ?_⟩
  exact (derails_of_not_fits _ _ _ _ h hnot).not_reads _ (htrip usedUp)

end AetherClient
