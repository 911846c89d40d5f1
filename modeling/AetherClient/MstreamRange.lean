import AetherClient.MstreamRoundTrip

set_option autoImplicit false

namespace AetherClient
open LittleEndian Ty Read

section Loops
variable {α : Type} {decode : VectorReader → α × VectorReader} {add : List α → α → List α}

theorem loopAdd_forall {P : α → Prop} (hread : ∀ is, (decode is).2.result = .yes → P (decode is).1)
    (hadd : ∀ xs x y, y ∈ add xs x → y = x ∨ y ∈ xs) {xs : List α} (hxs : ∀ x ∈ xs, P x)
    (turns : ℕ) (is : VectorReader) : ∀ x ∈ (loopAdd decode add turns xs is).1, P x := by
  induction turns generalizing xs is with
  | zero => exact hxs
  | succ turns ih =>
    simp only [loopAdd]
    split
    · next hyes =>
      apply ih
      intro y hy
      obtain rfl | hy := hadd _ _ y hy
      · exact hread is hyes
      · exact hxs y hy
    · exact hxs

theorem length_loopAdd_le (decode : VectorReader → α × VectorReader)
    (hadd : ∀ xs x, (add xs x).length ≤ xs.length + 1) (turns : ℕ)
    (xs : List α) (is : VectorReader) : (loopAdd decode add turns xs is).1.length ≤ xs.length + turns := by
  induction turns generalizing xs is with
  | zero => exact Nat.le_refl _
  | succ turns ih =>
    simp only [loopAdd]
    split
    · have hrest := ih (add xs (decode is).1) (decode is).2
      have hone := hadd xs (decode is).1
      omega
    · exact Nat.le_add_right _ _

theorem length_loopAdd_lt (decode : VectorReader → α × VectorReader)
    (hadd : ∀ xs x, (add xs x).length ≤ xs.length + 1) (turns : ℕ)
    (xs : List α) {is : VectorReader} (hstart : is.result = .yes)
    (hend : (loopAdd decode add turns xs is).2.result ≠ .yes) :
    (loopAdd decode add turns xs is).1.length < xs.length + turns := by
  induction turns generalizing xs is with
  | zero => exact absurd hstart hend
  | succ turns ih =>
    simp only [loopAdd] at hend ⊢
    split at hend
    · next hyes =>
      have hrest := ih (add xs (decode is).1) hyes hend
      have hone := hadd xs (decode is).1
      rw [if_pos hyes]
      omega
    · next hno =>
      rw [if_neg hno]
      exact Nat.lt_add_of_pos_right (Nat.succ_pos turns)

theorem loopInto_forall {decode : α → VectorReader → α × VectorReader} {P : α → Prop} {filler : α}
    (hfiller : P filler) (hread : ∀ is, P (decode filler is).1) (n : ℕ) (is : VectorReader) :
    ∀ x ∈ (loopInto decode (List.replicate n filler) is).1, P x := by
  induction n generalizing is with
  | zero => exact fun x hx => absurd hx List.not_mem_nil
  | succ n ih =>
    rw [List.replicate_succ]
    simp only [loopInto]
    split
    · exact List.forall_mem_cons.mpr ⟨hread is, ih _⟩
    · refine List.forall_mem_cons.mpr ⟨hread is, fun x hx => ?_⟩
      rwa [(List.mem_replicate.mp hx).2]

end Loops

section Maps
variable {κ ν : Type} {sizeType : LengthType} {less : κ → κ → Bool}

theorem mem_emplace {entries : List (κ × ν)} {e e' : κ × ν} (h : e' ∈ emplace less entries e) :
    e' = e ∨ e' ∈ entries := by
  induction entries with
  | nil => exact .inl (List.mem_singleton.mp h)
  | cons x entries ih =>
    rw [emplace] at h
    split at h
    · obtain rfl | h := List.mem_cons.mp h
      · exact .inr List.mem_cons_self
      · exact (ih h).imp_right (List.mem_cons_of_mem x)
    · split at h
      · exact List.mem_cons.mp h
      · exact .inr h

theorem length_emplace_le (entries : List (κ × ν)) (e : κ × ν) :
    (emplace less entries e).length ≤ entries.length + 1 := by
  induction entries with
  | nil => exact Nat.le_refl _
  | cons x entries ih =>
    rw [emplace]
    split
    · exact Nat.succ_le_succ ih
    · split <;> simp

theorem sized_cases {α : Type} {P : α × VectorReader → Prop} {target : α}
    {rest : ℕ → VectorReader → α × VectorReader} (is : VectorReader)
    (hnone : ∀ is', is'.result = .no → P (target, is'))
    (hsome : ∀ n is', sizeType.extract is = (some n, is') → is'.result = .yes → P (rest n is')) :
    P (sized sizeType is target rest) := by
  rw [sized]
  obtain ⟨hfail, hresult, -⟩ | ⟨n, code, y, hunread, -, -, hcode⟩ := sizeType.extract_cases is
  · rw [← Prod.eta (sizeType.extract is), hfail]
    exact hnone _ hresult
  · obtain ⟨unread, offset, result⟩ := is
    obtain rfl : unread = code ++ y := hunread
    rw [hcode]
    exact hsome n _ (hcode y offset result) rfl

end Maps

theorem length_block_scalars (t : Ty) (w n : ℕ) (is : VectorReader) :
    (block is (n * w) (resize t.fresh n []) (ofBlock t w n)).1.length = n := by
  by_cases hlt : is.unread.length < n * w
  · rw [block, VectorReader.read_of_lt hlt]
    simp [resize]
  · rw [block, VectorReader.read_of_le (Nat.not_lt.mp hlt)]
    exact length_ofBlock t w n _

section Range

def ForallElements {α : Type} (P : α → Prop) (xs : List α) : Prop := ∀ x ∈ xs, P x

/-- The value is one that the C++ type can have. -/
def Proper (lib : StdLibrary) : (t : Ty) → t.Value → Prop
  | .int _, _ => True
  | .enum _, _ => True
  | .string, _ => True
  | .timePoint, v => FitsTimePoint 1 v
  | .vector t, v => ForallElements (Proper lib t) v
  | .deque t, v => ForallElements (Proper lib t) v
  | .list t, v => ForallElements (Proper lib t) v
  | .array _ t, v => ∀ x ∈ v.1, Proper lib t x
  | .map k v, entries => Ascending (lib.less k) entries ∧
      ForallElements (fun e => Proper lib k e.1 ∧ Proper lib v e.2) entries
  | .unorderedMap k v, entries => Ascending (lib.less k) entries ∧
      ForallElements (fun e => Proper lib k e.1 ∧ Proper lib v e.2) entries
  | .pair a b, v => Proper lib a v.1 ∧ Proper lib b v.2
  | .uniquePtr t, v => FitsPtr (Proper lib t) v
  | .sharedPtr t, v => FitsPtr (Proper lib t) v
  | .lastField t, v => Proper lib t v
  | .field t rest, v => Proper lib t v.1 ∧ Proper lib rest v.2

def WholeTicks (ticks : ℕ) (t : ℤ) : Prop := (ticks : ℤ) ∣ t

/-- The sizes are below the limits and the time points at the resolution of the encoding. -/
def Within (ticks : ℕ) (limits : SizeLimits) : (t : Ty) → t.Value → Prop
  | .int _, _ => True
  | .enum _, _ => True
  | .string, v => FitsElements limits.plain (fun _ : UInt8 => True) v
  | .timePoint, v => WholeTicks ticks v
  | .vector t, v => FitsElements limits.plain (Within ticks limits t) v
  | .deque t, v => FitsElements limits.plain (Within ticks limits t) v
  | .list t, v => FitsElements limits.list (Within ticks limits t) v
  | .array _ t, v => ∀ x ∈ v.1, Within ticks limits t x
  | .map k v, entries =>
    FitsElements limits.list (fun e => Within ticks limits k e.1 ∧ Within ticks limits v e.2) entries
  | .unorderedMap k v, entries =>
    FitsElements limits.unordered (fun e => Within ticks limits k e.1 ∧ Within ticks limits v e.2) entries
  | .pair a b, v => Within ticks limits a v.1 ∧ Within ticks limits b v.2
  | .uniquePtr t, v => FitsPtr (Within ticks limits t) v
  | .sharedPtr t, v => FitsPtr (Within ticks limits t) v
  | .lastField t, v => Within ticks limits t v
  | .field t rest, v => Within ticks limits t v.1 ∧ Within ticks limits rest v.2

theorem Proper.fits {lib : StdLibrary} {limits : SizeLimits} {t : Ty} {v : t.Value}
    (hproper : Proper lib t v) (hwithin : Within lib.ticks limits t v) : Fits lib limits t v := by
  induction t with
  | int w | enum w => trivial
  | string => exact hwithin
  | timePoint => exact ⟨hwithin, hproper.2⟩
  | vector t ih | deque t ih | list t ih =>
    exact ⟨hwithin.1, fun x hx => ih (hproper x hx) (hwithin.2 x hx)⟩
  | array n t ih => exact fun x hx => ih (hproper x hx) (hwithin x hx)
  | map k v ihk ihv | unorderedMap k v ihk ihv =>
    refine ⟨hproper.1, hwithin.1, fun e he => ?_⟩
    exact ⟨ihk (hproper.2 e he).1 (hwithin.2 e he).1, ihv (hproper.2 e he).2 (hwithin.2 e he).2⟩
  | pair a b iha ihb | field a b iha ihb =>
    exact ⟨iha hproper.1 hwithin.1, ihb hproper.2 hwithin.2⟩
  | uniquePtr t ih | sharedPtr t ih => exact fun x hx => ih (hproper x hx) (hwithin x hx)
  | lastField t ih => exact ih hproper hwithin

def dropped : Overflow := fun _ _ _ is => ([], is)

variable {lib : StdLibrary}

theorem extract_uint32_lt {is is' : VectorReader} {n : ℕ}
    (h : uint32Length.extract is = (some n, is')) : n < 2 ^ 32 := by
  by_cases hlen : is.unread.length < 4
  · simp [uint32Length, VectorReader.read_of_lt hlen] at h
  · have hlt := ofBytes_lt (is.unread.take 4)
    simp only [uint32Length, VectorReader.read_of_le (Nat.not_lt.mp hlen), Prod.mk.injEq,
      Option.some.injEq] at h
    rw [List.length_take, Nat.min_eq_left (Nat.not_lt.mp hlen), h.1] at hlt
    exact hlt

section Containers
variable {α : Type}

theorem fitsElements_nil {P : α → Prop} {limit : ℕ} (h : 0 < limit) :
    FitsElements limit P [] := ⟨h, fun _ hx => absurd hx List.not_mem_nil⟩

theorem fitsElements_sized {P : α → Prop} {rest : ℕ → VectorReader → List α × VectorReader}
    (hlen : ∀ n is, (rest n is).1.length ≤ n) (hrest : ∀ n is, ∀ x ∈ (rest n is).1, P x)
    (is : VectorReader) : FitsElements (2 ^ 32) P (sized uint32Length is [] rest).1 := by
  apply sized_cases (P := fun read : List α × VectorReader => FitsElements (2 ^ 32) P read.1) is
  · intro is' _
    exact fitsElements_nil (Nat.two_pow_pos 32)
  · intro n is' hextract _
    exact ⟨Nat.lt_of_le_of_lt (hlen n is') (extract_uint32_lt hextract), hrest n is'⟩

theorem fits_elements {P : α → Prop} {decode : α → VectorReader → α × VectorReader} {filler : α}
    (hfiller : P filler) (hread : ∀ is, P (decode filler is).1) (is : VectorReader) :
    FitsElements (2 ^ 32) P (elements uint32Length decode filler [] is).1 := by
  refine fitsElements_sized (fun n is => ?_) (fun n is => ?_) is
  · rw [length_loopInto, resize_nil, List.length_replicate]
  · rw [resize_nil]
    exact loopInto_forall hfiller hread n is

theorem fits_added {P : α → Prop} {decode : VectorReader → α × VectorReader}
    {add : List α → α → List α} (hread : ∀ is, P (decode is).1)
    (hadd : ∀ xs x y, y ∈ add xs x → y = x ∨ y ∈ xs)
    (hlen : ∀ xs x, (add xs x).length ≤ xs.length + 1) (is : VectorReader) :
    FitsElements (2 ^ 32) P
      (sized uint32Length is [] fun n is => loopAdd decode add (turns32 n is) [] is).1 := by
  apply sized_cases (P := fun read : List α × VectorReader => FitsElements (2 ^ 32) P read.1) is
  · intro is' _
    exact fitsElements_nil (Nat.two_pow_pos 32)
  · intro n is' hextract _
    have hn := extract_uint32_lt hextract
    have hturns := length_loopAdd_le decode hlen n [] is'
    rw [turns32_of_lt hn]
    refine ⟨?_, loopAdd_forall (fun is _ => hread is) hadd (fun x hx => absurd hx List.not_mem_nil) n is'⟩
    exact Nat.lt_of_le_of_lt hturns (by simpa using hn)

end Containers

theorem within_scalar {ticks : ℕ} {limits : SizeLimits} {t : Ty} {w : Width} (h : t.scalar = some w)
    (v : t.Value) : Within ticks limits t v := by
  cases t with
  | int _ | enum _ => trivial
  | _ => simp [scalar] at h

theorem fitsPtr_none {α : Type} {P : α → Prop} : FitsPtr P none := fun _ hx => by cases hx

theorem within_fresh (ticks : ℕ) (t : Ty) : Within ticks uint32Length.countedLimits t t.fresh := by
  induction t with
  | int w | enum w => trivial
  | timePoint => exact Int.dvd_zero _
  | string | vector _ _ | deque _ _ | list _ _ | map _ _ _ _ | unorderedMap _ _ _ _ =>
    exact fitsElements_nil (by decide)
  | array n t ih =>
    intro x hx
    rwa [(List.mem_replicate.mp hx).2]
  | pair a b iha ihb | field a b iha ihb => exact ⟨iha, ihb⟩
  | uniquePtr t _ | sharedPtr t _ => exact fitsPtr_none
  | lastField t ih => exact ih

theorem fits_ptr {α : Type} {P : α → Prop} {decode : VectorReader → α × VectorReader}
    (hread : ∀ is, P (decode is).1) (is : VectorReader) : FitsPtr P (ptr is none decode).1 := by
  unfold Read.ptr
  split
  · exact fitsPtr_none
  · split
    · exact fitsPtr_none
    · simp only
      split
      · intro x hx
        rw [← Option.mem_some.mp hx]
        exact hread _
      · exact fitsPtr_none

theorem wholeTicks_ofMicroseconds (ticks : ℕ) (is : VectorReader) :
    WholeTicks ticks (block is 8 0 (ofMicroseconds ticks)).1 := by
  unfold block
  split
  · exact Int.dvd_zero _
  · exact Int.dvd_mul_left _ _

theorem fits_string (is : VectorReader) :
    FitsElements (2 ^ 32) (fun _ => True) (Read.string uint32Length [] is).1 := by
  refine fitsElements_sized (fun n is => ?_) (fun _ _ _ _ => trivial) is
  by_cases hlen : is.unread.length < n
  · rw [block, VectorReader.read_of_lt hlen]
    simp [resize]
  · rw [block, VectorReader.read_of_le (Nat.not_lt.mp hlen)]
    exact (List.length_take_le _ _)

theorem fits_vector {P : (t : Ty) → t.Value → Prop} {t : Ty}
    {decode : t.Value → VectorReader → t.Value × VectorReader}
    (hscalar : ∀ w, t.scalar = some w → ∀ v, P t v) (hfresh : P t t.fresh)
    (hread : ∀ is, P t (decode t.fresh is).1) (is : VectorReader) :
    FitsElements (2 ^ 32) (P t)
      (Read.vector uint32Length t.scalar (ofBlock t) decode t.fresh [] is).1 := by
  cases hw : t.scalar with
  | none => exact fits_elements hfresh hread is
  | some w =>
    refine fitsElements_sized (fun n is => ?_) (fun _ _ x _ => hscalar w hw x) is
    exact Nat.le_of_eq (length_block_scalars t w.bytes n is)

theorem within_array {ticks : ℕ} {limits : SizeLimits} {t : Ty} {n : ℕ}
    {decode : t.Value → VectorReader → t.Value × VectorReader}
    (hfresh : Within ticks limits t t.fresh)
    (hread : ∀ is, Within ticks limits t (decode t.fresh is).1) (is : VectorReader) :
    ∀ x ∈ (Read.array t.scalar (ofBlock t) (length_ofBlock t) decode
      (⟨List.replicate n t.fresh, List.length_replicate⟩ : { xs : List t.Value // xs.length = n })
      is).1.1, Within ticks limits t x := by
  cases hw : t.scalar with
  | none => exact loopInto_forall hfresh hread n is
  | some w => exact fun x _ => within_scalar hw x

theorem fits_unorderedMap {κ ν : Type} {less : κ → κ → Bool} {P : κ × ν → Prop}
    {decode : VectorReader → (κ × ν) × VectorReader} (hread : ∀ is, P (decode is).1)
    (is : VectorReader) :
    FitsElements (2 ^ 31) P
      (unorderedMap uint32Length decode less (fun _ is => ([], is)) [] is).1 := by
  apply sized_cases (P := fun read : List (κ × ν) × VectorReader => FitsElements (2 ^ 31) P read.1) is
  · intro is' _
    exact fitsElements_nil (Nat.two_pow_pos 31)
  · intro n is' _ hstart
    simp only
    split
    · exact fitsElements_nil (Nat.two_pow_pos 31)
    · next hnot =>
      refine ⟨?_, loopAdd_forall (fun is _ => hread is) (fun _ _ _ => mem_emplace)
        (fun x hx => absurd hx List.not_mem_nil) _ is'⟩
      have hemplace : ∀ entries e, (emplace less entries e).length ≤ entries.length + 1 :=
        length_emplace_le (ν := ν)
      have hle := length_loopAdd_le decode hemplace (min n (2 ^ 31)) [] is'
      have hlt := length_loopAdd_lt decode hemplace (min n (2 ^ 31)) [] hstart
      simp only [List.length_nil, Nat.zero_add] at hle hlt
      by_cases hn : 2 ^ 31 ≤ n
      · have hend := hlt fun hyes => hnot ⟨hn, hyes⟩
        exact Nat.lt_of_lt_of_le hend (Nat.min_le_right _ _)
      · exact Nat.lt_of_le_of_lt hle (by omega)

theorem decode_within (lib : StdLibrary) (t : Ty) (is : VectorReader) :
    Within lib.ticks uint32Length.countedLimits t (decode lib dropped uint32Length t t.fresh is).1 := by
  induction t generalizing is with
  | int w | enum w => trivial
  | string => exact fits_string is
  | timePoint => exact wholeTicks_ofMicroseconds lib.ticks is
  | vector t ih =>
    exact fits_vector (P := Within lib.ticks uint32Length.countedLimits)
      (fun _ hw => within_scalar hw) (within_fresh lib.ticks t) ih is
  | deque t ih => exact fits_elements (within_fresh lib.ticks t) ih is
  | list t ih => exact fits_added ih (by simp [or_comm]) (by simp) is
  | array n t ih => exact within_array (within_fresh lib.ticks t) ih is
  | map k v ihk ihv =>
    exact fits_added (fun is => ⟨ihk _, ihv _⟩) (fun _ _ _ => mem_emplace) length_emplace_le is
  | unorderedMap k v ihk ihv => exact fits_unorderedMap (fun is => ⟨ihk _, ihv _⟩) is
  | pair a b iha ihb | field a b iha ihb => exact ⟨iha _, ihb _⟩
  | uniquePtr t ih | sharedPtr t ih => exact fits_ptr ih is
  | lastField t ih => exact ih is

end Range

end AetherClient
