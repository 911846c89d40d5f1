import AetherClient.Mstream
import Mathlib.Tactic.Linarith

set_option autoImplicit false

namespace AetherClient
open LittleEndian Ty Read

/-- The way of the buffer over a read: a failed one leaves fewer than `bound` bytes, one that
succeeded has taken at least `least`. -/
structure Advance (bound least : ℕ) (is is' : VectorReader) : Prop where
  le : is'.unread.length ≤ is.unread.length
  left : is'.result = .no → is'.unread.length < bound
  taken : is'.result = .yes → is'.unread.length + least ≤ is.unread.length

theorem Advance.mono {bound bound' least least' : ℕ} {is is' : VectorReader}
    (h : Advance bound least is is') (hbound : bound ≤ bound') (hleast : least' ≤ least) :
    Advance bound' least' is is' where
  le := h.le
  left := fun hno => Nat.lt_of_lt_of_le (h.left hno) hbound
  taken := fun hyes => Nat.le_trans (Nat.add_le_add_left hleast _) (h.taken hyes)

theorem Advance.after {bound least least' : ℕ} {is is₁ is' : VectorReader}
    (htaken : is₁.unread.length + least ≤ is.unread.length) (h : Advance bound least' is₁ is') :
    Advance bound (least + least') is is' where
  le := Nat.le_trans h.le (by omega)
  left := h.left
  taken := fun hyes => by
    have := h.taken hyes
    omega

def Advances {α : Type} (cap bound least : ℕ) (decode : VectorReader → α × VectorReader) : Prop :=
  ∀ is : VectorReader, is.unread.length < cap → Advance bound least is (decode is).2

section Combinators
variable {α β : Type} {cap bound least : ℕ}

theorem advance_block (is : VectorReader) (n : ℕ) (target : α) (ofBytes : List UInt8 → α) :
    Advance n n is (block is n target ofBytes).2 := by
  by_cases h : is.unread.length < n
  · rw [block, VectorReader.read_of_lt h]
    exact ⟨Nat.le_refl _, fun _ => h, nofun⟩
  · rw [block, VectorReader.read_of_le (by omega)]
    refine ⟨?_, nofun, fun _ => ?_⟩ <;> simp only [List.length_drop] <;> omega

theorem advances_sized {sizeType : LengthType} {target : α}
    {rest : ℕ → VectorReader → α × VectorReader}
    (h : ∀ n is, n < 2 ^ 64 → is.result = .yes → is.unread.length < cap →
      Advance bound 0 is (rest n is).2) :
    Advances cap (max 4 bound) sizeType.least fun is => sized sizeType is target rest := by
  intro is hcap
  simp only [sized]
  obtain ⟨hnone, hresult, hlt, hle⟩ | ⟨n, code, y, hunread, hleast, hn, hcode⟩ :=
    sizeType.extract_cases is
  · rw [← Prod.eta (sizeType.extract is), hnone]
    refine ⟨hle, fun _ => Nat.lt_of_lt_of_le hlt (Nat.le_max_left _ _), ?_⟩
    intro hyes
    rw [hresult] at hyes
    cases hyes
  · obtain ⟨unread, offset, result⟩ := is
    obtain rfl : unread = code ++ y := hunread
    rw [hcode]
    have hlen : y.length + code.length = (code ++ y).length := by simp [Nat.add_comm]
    have hrest := h n ⟨y, offset + code.length, .yes⟩ hn rfl
      (Nat.lt_of_le_of_lt (by simp) hcap)
    exact (hrest.after (show _ + sizeType.least ≤ _ by simp; omega)).mono
      (Nat.le_max_right _ _) (Nat.le_refl _)

theorem advance_loopInto {decode : α → VectorReader → α × VectorReader}
    (h : ∀ x, Advances cap bound least (decode x)) (xs : List α) {is : VectorReader}
    (hcap : is.unread.length < cap) (hstart : xs = [] → is.result = .yes) :
    Advance bound (xs.length * least) is (loopInto decode xs is).2 := by
  induction xs generalizing is with
  | nil =>
    refine ⟨Nat.le_refl _, fun hno => ?_, fun _ => by simp [loopInto]⟩
    rw [loopInto, hstart rfl] at hno
    cases hno
  | cons x xs ih =>
    have hx := h x is hcap
    simp only [loopInto]
    split
    · next hyes =>
      have hxs := ih (Nat.lt_of_le_of_lt hx.le hcap) fun _ => hyes
      have hall := hxs.after (hx.taken hyes)
      rwa [List.length_cons, Nat.succ_mul, Nat.add_comm]
    · next hno => exact ⟨hx.le, hx.left, fun hyes => absurd hyes hno⟩

theorem advance_loopAdd {decode : VectorReader → α × VectorReader}
    (h : Advances cap bound least decode) (add : List α → α → List α) (turns : ℕ) (xs : List α) {is : VectorReader}
    (hcap : is.unread.length < cap) (hyes : is.result = .yes) :
    Advance bound (turns * least) is (loopAdd decode add turns xs is).2 := by
  induction turns generalizing is xs with
  | zero =>
    refine ⟨Nat.le_refl _, fun hno => ?_, fun _ => by simp [loopAdd]⟩
    rw [loopAdd, hyes] at hno
    cases hno
  | succ turns ih =>
    have hx := h is hcap
    simp only [loopAdd]
    split
    · next hyes =>
      have hxs := ih (add xs (decode is).1) (Nat.lt_of_le_of_lt hx.le hcap) hyes
      have hall := hxs.after (hx.taken hyes)
      rwa [Nat.succ_mul, Nat.add_comm]
    · next hno => exact ⟨hx.le, hx.left, fun hyes => absurd hyes hno⟩

theorem advances_both {bound' least' : ℕ} {first : VectorReader → α × VectorReader}
    {second : VectorReader → β × VectorReader} (ha : Advances cap bound' least' first)
    (hb : Advances cap bound least second) : Advances cap bound least (both first second) := by
  intro is hcap
  have hfirst := (ha is hcap).le
  have hsecond := hb (first is).2 (Nat.lt_of_le_of_lt hfirst hcap)
  exact ⟨Nat.le_trans hsecond.le hfirst, hsecond.left,
    fun hyes => Nat.le_trans (hsecond.taken hyes) hfirst⟩

theorem advances_ptr {target : Option α} {decode : VectorReader → α × VectorReader}
    (h : Advances cap bound least decode) :
    Advances cap (max 1 bound) 1 fun is => ptr is target decode := by
  intro is hcap
  simp only [ptr]
  by_cases hlt : is.unread.length < 1
  · rw [VectorReader.read_of_lt hlt]
    exact ⟨Nat.le_refl _, fun _ => Nat.lt_of_lt_of_le hlt (Nat.le_max_left _ _), nofun⟩
  · rw [VectorReader.read_of_le (by omega)]
    have htaken : (is.unread.drop 1).length + 1 ≤ is.unread.length := by
      rw [List.length_drop]
      omega
    simp only
    split
    · exact ⟨by simp, nofun, fun _ => htaken⟩
    · have hrest := h ⟨is.unread.drop 1, is.offset + 1, .yes⟩
        (show (is.unread.drop 1).length < cap by omega)
      exact (hrest.after (show _ + 1 ≤ is.unread.length from htaken)).mono
        (Nat.le_max_right _ _) (by omega)

end Combinators

namespace Ty

/-- Bytes that a successful read of the type takes at least. Of a pair that is the second
part only: what became of the first is not looked at. -/
def takes (sizeType : LengthType) : Ty → ℕ
  | int w => w.bytes
  | enum w => w.bytes
  | string => sizeType.least
  | timePoint => 8
  | vector _ => sizeType.least
  | deque _ => sizeType.least
  | list _ => sizeType.least
  | array n t => (n + 1) * t.takes sizeType
  | map _ _ => sizeType.least
  | unorderedMap _ _ => sizeType.least
  | pair _ b => b.takes sizeType
  | uniquePtr _ => 1
  | sharedPtr _ => 1
  | lastField t => t.takes sizeType
  | field _ rest => rest.takes sizeType

def leaves : Ty → ℕ
  | int w => w.bytes
  | enum w => w.bytes
  | string => 2 ^ 64
  | timePoint => 8
  | vector t =>
    match t.scalar with
    | some w => 2 ^ 64 * w.bytes
    | none => max 4 t.leaves
  | deque t => max 4 t.leaves
  | list t => max 4 t.leaves
  | array n t =>
    match t.scalar with
    | some w => (n + 1) * w.bytes
    | none => t.leaves
  | map _ v => max 4 v.leaves
  | unorderedMap _ v => max 4 v.leaves
  | pair _ b => b.leaves
  | uniquePtr t => max 1 t.leaves
  | sharedPtr t => max 1 t.leaves
  | lastField t => t.leaves
  | field _ rest => rest.leaves

def unordered : Ty → Bool
  | vector t => t.unordered
  | deque t => t.unordered
  | list t => t.unordered
  | array _ t => t.unordered
  | map k v => k.unordered || v.unordered
  | unorderedMap _ _ => true
  | pair a b => a.unordered || b.unordered
  | uniquePtr t => t.unordered
  | sharedPtr t => t.unordered
  | lastField t => t.unordered
  | field t rest => t.unordered || rest.unordered
  | _ => false

theorem takes_pos (sizeType : LengthType) (t : Ty) : 0 < t.takes sizeType := by
  induction t with
  | int w | enum w => cases w <;> simp [takes, Width.bytes]
  | timePoint | uniquePtr _ | sharedPtr _ => simp [takes]
  | array n t ih => exact Nat.mul_pos n.succ_pos ih
  | pair _ b _ ih | field _ b _ ih => exact ih
  | lastField t ih => exact ih
  | _ => exact sizeType.least_pos

theorem takes_scalar (sizeType : LengthType) {t : Ty} {w : Width} (h : t.scalar = some w) :
    t.takes sizeType = w.bytes := by
  cases t with
  | int w' | enum w' =>
    obtain rfl : w' = w := by simpa [scalar] using h
    rfl
  | _ => simp [scalar] at h

end Ty

/-- The counter of an `unordered_map` can only overflow with `2 ^ 31` entries read; if there were
fewer than `cap` bytes and it did, the buffer is used up. -/
def Harmless (cap : ℕ) (overflow : Overflow) : Prop :=
  ∀ k v entries is, is.unread.length + 2 ^ 31 < cap →
    (overflow k v entries is).2.result = .no ∧ (overflow k v entries is).2.unread = []

section Decode
variable {lib : StdLibrary} {overflow : Overflow} {sizeType : LengthType} {cap bound least : ℕ}
variable {κ ν : Type}

theorem advances_elements {α : Type} {decode : α → VectorReader → α × VectorReader} {filler : α}
    {target : List α} (h : ∀ x, Advances cap bound least (decode x)) :
    Advances cap (max 4 bound) sizeType.least (elements sizeType decode filler target) :=
  advances_sized fun _ _ _ hyes hcap =>
    (advance_loopInto h _ hcap fun _ => hyes).mono (Nat.le_refl _) (Nat.zero_le _)

theorem advances_blocks {α : Type} {size : ℕ → ℕ} (hsize : ∀ n < 2 ^ 64, size n ≤ bound)
    (hbound : 4 ≤ bound) {target : α} {resized : ℕ → α} {ofBytes : ℕ → List UInt8 → α} :
    Advances cap bound sizeType.least fun is =>
      sized sizeType is target fun n is => block is (size n) (resized n) (ofBytes n) := by
  intro is hcap
  have hblock : ∀ n is, n < 2 ^ 64 → is.result = .yes → is.unread.length < cap →
      Advance bound 0 is (block is (size n) (resized n) (ofBytes n)).2 := by
    intro n is hn _ _
    exact (advance_block is _ _ _).mono (hsize n hn) (Nat.zero_le _)
  exact (advances_sized hblock is hcap).mono (by omega) (Nat.le_refl _)

theorem advances_unorderedMap {decode : VectorReader → (κ × ν) × VectorReader}
    {less : κ → κ → Bool}
    {overflow : List (κ × ν) → VectorReader → List (κ × ν) × VectorReader}
    {target : List (κ × ν)} (h : Advances cap bound least decode) (hleast : 0 < least)
    (hbound : 0 < bound)
    (hover : ∀ entries is, is.unread.length + 2 ^ 31 < cap →
      (overflow entries is).2.result = .no ∧ (overflow entries is).2.unread = []) :
    Advances cap (max 4 bound) sizeType.least
      (unorderedMap sizeType decode less overflow target) := by
  apply advances_sized
  intro n is _ hyes hcap
  have hloop := advance_loopAdd h (emplace less) (min n (2 ^ 31)) [] hcap hyes
  simp only
  split
  · next hlimit =>
    have htaken := hloop.taken hlimit.2
    have hmin : 2 ^ 31 ≤ min n (2 ^ 31) * least := by
      rw [Nat.min_eq_right hlimit.1]
      exact Nat.le_mul_of_pos_right _ hleast
    obtain ⟨hno, hunread⟩ := hover (loopAdd decode (emplace less) (min n (2 ^ 31)) [] is).1
      (loopAdd decode (emplace less) (min n (2 ^ 31)) [] is).2 (by omega)
    refine ⟨?_, fun _ => ?_, fun hyes => ?_⟩
    · rw [hunread]
      exact Nat.zero_le _
    · rw [hunread]
      exact hbound
    · rw [hno] at hyes
      cases hyes
  · exact hloop.mono (Nat.le_refl _) (Nat.zero_le _)

theorem leaves_pos (t : Ty) : 0 < t.leaves := by
  induction t with
  | int w | enum w => cases w <;> simp [leaves, Width.bytes]
  | vector t ih =>
    rw [leaves]
    split
    · next w _ => cases w <;> simp [Width.bytes]
    · omega
  | array n t ih =>
    rw [leaves]
    split
    · next w _ => cases w <;> simp [Width.bytes]
    · exact ih
  | pair _ b _ ih | field _ b _ ih => exact ih
  | lastField t ih => exact ih
  | _ => simp [leaves]

theorem advances_vector {t : Ty} {target : List t.Value}
    (h : ∀ x, Advances cap t.leaves least (decode lib overflow sizeType t x)) :
    Advances cap (vector t).leaves sizeType.least
      (Read.vector sizeType t.scalar (ofBlock t) (decode lib overflow sizeType t) t.fresh target) := by
  simp only [leaves]
  cases t.scalar with
  | none => exact advances_elements h
  | some w =>
    have hw : 0 < w.bytes := by cases w <;> decide
    exact advances_blocks (fun n hn => Nat.mul_le_mul_right _ (by omega)) (by omega)

theorem advances_array {n : ℕ} {t : Ty} {target : { xs : List t.Value // xs.length = n + 1 }}
    (h : ∀ x, Advances cap t.leaves (t.takes sizeType) (decode lib overflow sizeType t x)) :
    Advances cap (array n t).leaves ((n + 1) * t.takes sizeType)
      (Read.array t.scalar (ofBlock t) (length_ofBlock t) (decode lib overflow sizeType t) target) := by
  intro is hcap
  simp only [leaves]
  cases hscalar : t.scalar with
  | none =>
    have hne : target.1 = [] → is.result = .yes := by
      intro hnil
      have := target.2
      simp [hnil] at this
    have hloop := advance_loopInto h target.1 hcap hne
    rwa [target.2] at hloop
  | some w =>
    rw [takes_scalar sizeType hscalar]
    exact advance_block is _ _ _

theorem decode_advances (lib : StdLibrary) (sizeType : LengthType) (t : Ty)
    (hover : t.unordered = true → Harmless cap overflow) (target : t.Value) :
    Advances cap t.leaves (t.takes sizeType) (decode lib overflow sizeType t target) := by
  induction t with
  | int w | enum w => exact fun is _ => advance_block is w.bytes _ _
  | string => exact advances_blocks (fun n hn => Nat.le_of_lt hn) (by decide)
  | timePoint => exact fun is _ => advance_block is 8 _ _
  | vector t ih => exact advances_vector (ih hover)
  | deque t ih => exact advances_elements (ih hover)
  | list t ih =>
    exact advances_sized fun n is _ hyes hcap =>
      (advance_loopAdd (ih hover _) _ _ _ hcap hyes).mono (Nat.le_refl _) (Nat.zero_le _)
  | array n t ih => exact advances_array (ih hover)
  | map k v ihk ihv =>
    have hk := ihk (fun h => hover (Bool.or_inl h)) k.fresh
    have hv := ihv (fun h => hover (Bool.or_inr h)) v.fresh
    exact advances_sized fun n is _ hyes hcap =>
      (advance_loopAdd (advances_both hk hv) _ _ _ hcap hyes).mono (Nat.le_refl _) (Nat.zero_le _)
  | unorderedMap k v ihk ihv =>
    have hharmless := hover rfl
    have hk := ihk (fun _ => hharmless) k.fresh
    have hv := ihv (fun _ => hharmless) v.fresh
    exact advances_unorderedMap (advances_both hk hv) (takes_pos sizeType v) (leaves_pos v)
      (hharmless k v)
  | pair a b iha ihb | field a b iha ihb =>
    exact advances_both (iha (fun h => hover (Bool.or_inl h)) _)
      (ihb (fun h => hover (Bool.or_inr h)) _)
  | uniquePtr t ih | sharedPtr t ih => exact advances_ptr (ih hover _)
  | lastField t ih => exact ih hover _

end Decode

end AetherClient
