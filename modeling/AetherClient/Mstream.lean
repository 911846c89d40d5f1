import AetherClient.PackedInt

set_option autoImplicit false

/-!
# Serialization of values

`mstream.h` writes and reads values by overloads of `<<` and `>>`, one for each kind of type.
Every read goes through the buffer's `read`, which leaves its result in one flag; containers
write their size first, in the length type of the buffer, and stop at the first element that
was not read. Pairs and the fields of a struct are read one after the other without a look at
the flag.
-/
namespace AetherClient
open LittleEndian

/-- The `size_type` of a buffer, with what its `<<` and `>>` are good for. -/
structure LengthType where
  serialize : ℕ → List UInt8
  extract : VectorReader → Option ℕ × VectorReader
  limit : ℕ
  least : ℕ
  least_pos : 0 < least
  extract_serialize : ∀ {n}, n < limit → ∀ y offset result,
    extract ⟨serialize n ++ y, offset, result⟩ = (some n, ⟨y, offset + (serialize n).length, .yes⟩)
  extract_cases : ∀ is : VectorReader,
    ((extract is).1 = none ∧ (extract is).2.result = .no ∧ (extract is).2.unread.length < 4 ∧
      (extract is).2.unread.length ≤ is.unread.length) ∨
    ∃ n code y, is.unread = code ++ y ∧ least ≤ code.length ∧ n < 2 ^ 64 ∧
      ∀ y offset result, extract ⟨code ++ y, offset, result⟩ =
        (some n, ⟨y, offset + code.length, .yes⟩)

def uint32Length : LengthType where
  serialize := toBytes 4
  extract := fun is =>
    match is.read 4 with
    | (none, is) => (none, is)
    | (some bytes, is) => (some (ofBytes bytes), is)
  limit := 2 ^ 32
  least := 4
  least_pos := by decide
  extract_serialize := by
    intro n hn y offset result
    simp only [VectorReader.read_toBytes, ofBytes_toBytes_of_lt (show n < 256 ^ 4 from hn),
      length_toBytes]
  extract_cases := by
    intro is
    by_cases h : is.unread.length < 4
    · rw [VectorReader.read_of_lt h]
      exact .inl ⟨rfl, rfl, h, Nat.le_refl _⟩
    · have hlen : (is.unread.take 4).length = 4 := List.length_take_of_le (Nat.not_lt.mp h)
      refine .inr ⟨ofBytes (is.unread.take 4), is.unread.take 4, is.unread.drop 4,
        (List.take_append_drop 4 _).symm, Nat.le_of_eq hlen.symm, ?_, ?_⟩
      · have hlt := ofBytes_lt (is.unread.take 4)
        rw [hlen] at hlt
        exact Nat.lt_trans hlt (by decide)
      · intro y offset result
        have hread := VectorReader.read_append (is.unread.take 4) y offset result
        rw [hlen] at hread
        rw [hread, hlen]

def packedLength : LengthType where
  serialize := PacketSize.serialize
  extract := PacketSize.extract
  limit := PacketSize.limit
  least := 1
  least_pos := by decide
  extract_serialize := by
    intro n hn y offset result
    exact (PacketSize.codes_serialize hn) y offset result
  extract_cases := by
    intro is
    obtain ⟨hnone, -⟩ | ⟨n, code, y, hunread, hne, -, hcodes⟩ := PacketSize.extract_cases is
    · exact .inl ⟨hnone, PacketSize.extract_none (Prod.ext hnone rfl)⟩
    · exact .inr ⟨n, code, y, hunread, List.length_pos_iff.mpr hne,
        PacketSize.extract_lt (hcodes [] 0 .no), hcodes⟩

inductive Width where
  | one
  | two
  | four
  | eight
deriving DecidableEq, Repr

def Width.bytes : Width → ℕ
  | one => 1
  | two => 2
  | four => 4
  | eight => 8

/-- The types that can be serialized. `array n t` has `n + 1` elements. The fields of a struct
are those its `Serializator` names: `lastField t` is a struct with one, `field t rest` has
the field `t` before those of `rest`. -/
inductive Ty where
  | int (width : Width)
  | enum (width : Width)
  | string
  | timePoint
  | vector (t : Ty)
  | deque (t : Ty)
  | list (t : Ty)
  | array (n : ℕ) (t : Ty)
  | map (key value : Ty)
  | unorderedMap (key value : Ty)
  | pair (first second : Ty)
  | uniquePtr (t : Ty)
  | sharedPtr (t : Ty)
  | lastField (t : Ty)
  | field (t rest : Ty)
deriving DecidableEq, Repr

namespace Ty

/-- Maps are lists of their entries in ascending order of the keys, a time point is its count
of clock ticks. -/
def Value : Ty → Type
  | int w => BitVec (8 * w.bytes)
  | enum w => BitVec (8 * w.bytes)
  | string => List UInt8
  | timePoint => ℤ
  | vector t => List t.Value
  | deque t => List t.Value
  | list t => List t.Value
  | array n t => { xs : List t.Value // xs.length = n + 1 }
  | map k v => List (k.Value × v.Value)
  | unorderedMap k v => List (k.Value × v.Value)
  | pair a b => a.Value × b.Value
  | uniquePtr t => Option t.Value
  | sharedPtr t => Option t.Value
  | lastField t => t.Value
  | field t rest => t.Value × rest.Value

def fresh : (t : Ty) → t.Value
  | int w => 0#(8 * w.bytes)
  | enum w => 0#(8 * w.bytes)
  | string => ([] : List UInt8)
  | timePoint => (0 : ℤ)
  | vector t => ([] : List t.Value)
  | deque t => ([] : List t.Value)
  | list t => ([] : List t.Value)
  | array n t => ⟨List.replicate (n + 1) t.fresh, List.length_replicate⟩
  | map k v => ([] : List (k.Value × v.Value))
  | unorderedMap k v => ([] : List (k.Value × v.Value))
  | pair a b => (a.fresh, b.fresh)
  | uniquePtr t => (none : Option t.Value)
  | sharedPtr t => (none : Option t.Value)
  | lastField t => t.fresh
  | field t rest => (t.fresh, rest.fresh)

def scalar : Ty → Option Width
  | int w => some w
  | enum w => some w
  | _ => none

def ofMemory : (t : Ty) → List UInt8 → t.Value
  | int w, bytes => BitVec.ofNat (8 * w.bytes) (ofBytes bytes)
  | enum w, bytes => BitVec.ofNat (8 * w.bytes) (ofBytes bytes)
  | t, _ => t.fresh

def ofBlock (t : Ty) (w : ℕ) : ℕ → List UInt8 → List t.Value
  | 0, _ => []
  | n + 1, bytes => t.ofMemory (bytes.take w) :: ofBlock t w n (bytes.drop w)

theorem length_ofBlock (t : Ty) (w n : ℕ) (bytes : List UInt8) : (ofBlock t w n bytes).length = n := by
  induction n generalizing bytes with
  | zero => rfl
  | succ n ih => simp [ofBlock, ih]

def resize {α : Type} (filler : α) (n : ℕ) (xs : List α) : List α :=
  xs.take n ++ List.replicate (n - xs.length) filler

end Ty

open Ty

/-- What the standard library leaves to the implementation. -/
structure StdLibrary where
  ticks : ℕ
  ticks_pos : 0 < ticks
  less : (t : Ty) → t.Value → t.Value → Bool
  less_irrefl : ∀ t x, less t x x = false
  less_trans : ∀ t x y z, less t x y = true → less t y z = true → less t x z = true
  bucketOrder : (k v : Ty) → List (k.Value × v.Value) → List (k.Value × v.Value)
  bucketOrder_perm : ∀ k v entries, (bucketOrder k v entries).Perm entries

def nanosecondLibrary : StdLibrary where
  ticks := 1000
  ticks_pos := by decide
  less := fun t =>
    match t with
    | .int _ => fun x y => decide (BitVec.toNat x < BitVec.toNat y)
    | _ => fun _ _ => false
  less_irrefl := by
    intro t x
    cases t <;> simp
  less_trans := by
    intro t x y z
    cases t <;> simp
    exact Nat.lt_trans
  bucketOrder := fun _ _ entries => entries
  bucketOrder_perm := fun _ _ _ => List.Perm.refl _

/-- What becomes of the entries and the buffer when the `int` that counts the entries of an
`unordered_map` overflows. This is undefined, so it may be anything. -/
abbrev Overflow :=
  (k v : Ty) → List (k.Value × v.Value) → VectorReader → List (k.Value × v.Value) × VectorReader

section Write
variable (lib : StdLibrary) (sizeType : LengthType)

def encodeTimePoint (ticks : ℕ) (t : ℤ) : List UInt8 := toBytes 8 (t.tdiv ticks % 2 ^ 64).toNat

def encodePtr {α : Type} (encode : α → List UInt8) : Option α → List UInt8
  | none => [0]
  | some v => 1 :: encode v

/-- A size and then the elements one by one. Scalars of a vector are copied in one piece, which
gives the same bytes. -/
def encodeElements {α : Type} (encode : α → List UInt8) (xs : List α) : List UInt8 :=
  sizeType.serialize xs.length ++ xs.flatMap encode

def encodeString (chars : List UInt8) : List UInt8 := sizeType.serialize chars.length ++ chars

def encode : (t : Ty) → t.Value → List UInt8
  | .int w, v => toBytes w.bytes v.toNat
  | .enum w, v => toBytes w.bytes v.toNat
  | .string, v => encodeString sizeType v
  | .timePoint, v => encodeTimePoint lib.ticks v
  | .vector t, v => encodeElements sizeType (encode t) v
  | .deque t, v => encodeElements sizeType (encode t) v
  | .list t, v => encodeElements sizeType (encode t) v
  | .array _ t, v => List.flatMap (encode t) v.1
  | .map k v, entries =>
    encodeElements sizeType (fun e => encode k e.1 ++ encode v e.2) entries
  | .unorderedMap k v, entries =>
    encodeElements sizeType (fun e => encode k e.1 ++ encode v e.2) (lib.bucketOrder k v entries)
  | .pair a b, v => encode a v.1 ++ encode b v.2
  | .uniquePtr t, v => encodePtr (encode t) v
  | .sharedPtr t, v => encodePtr (encode t) v
  | .lastField t, v => encode t v
  | .field t rest, v => encode t v.1 ++ encode rest v.2

end Write

namespace Read

section Loops
variable {α β : Type}

def loopInto (decode : α → VectorReader → α × VectorReader) :
    List α → VectorReader → List α × VectorReader
  | [], is => ([], is)
  | x :: xs, is =>
    match decode x is with
    | (x, is) =>
      if is.result = .yes then
        match loopInto decode xs is with
        | (xs, is) => (x :: xs, is)
      else (x :: xs, is)

theorem length_loopInto (decode : α → VectorReader → α × VectorReader) (xs : List α)
    (is : VectorReader) : (loopInto decode xs is).1.length = xs.length := by
  induction xs generalizing is with
  | nil => rfl
  | cons x xs ih =>
    simp only [loopInto]
    split
    · simp [ih]
    · simp

def loopAdd (decode : VectorReader → α × VectorReader) (add : List α → α → List α) :
    ℕ → List α → VectorReader → List α × VectorReader
  | 0, xs, is => (xs, is)
  | turns + 1, xs, is =>
    match decode is with
    | (x, is) => if is.result = .yes then loopAdd decode add turns (add xs x) is else (xs, is)

/-- The turns of `for (uint32_t i = 0; i < size; i++)`. For a larger size the counter starts
again from zero and never gets there: the loop goes on until an element is not read, and every
element that is takes at least one byte. -/
def turns32 (size : ℕ) (is : VectorReader) : ℕ :=
  if size < 2 ^ 32 then size else is.unread.length + 1

def block (is : VectorReader) (size : ℕ) (target : α) (ofBytes : List UInt8 → α) :
    α × VectorReader :=
  match is.read size with
  | (none, is) => (target, is)
  | (some bytes, is) => (ofBytes bytes, is)

/-- What a container reads after its size; without a size the target stays as it was. -/
def sized (sizeType : LengthType) (is : VectorReader) (target : α)
    (rest : ℕ → VectorReader → α × VectorReader) : α × VectorReader :=
  match sizeType.extract is with
  | (none, is) => (target, is)
  | (some n, is) => rest n is

/-- An owning pointer: the flag, and if it is set a new object, which is kept if it was read. -/
def ptr (is : VectorReader) (target : Option α) (decode : VectorReader → α × VectorReader) :
    Option α × VectorReader :=
  match is.read 1 with
  | (none, is) => (target, is)
  | (some bytes, is) =>
    if ofBytes bytes = 0 then (target, is)
    else
      match decode is with
      | (v, is) => (if is.result = .yes then some v else target, is)

def both (first : VectorReader → α × VectorReader) (second : VectorReader → β × VectorReader)
    (is : VectorReader) : (α × β) × VectorReader :=
  match first is with
  | (a, is) =>
    match second is with
    | (b, is) => ((a, b), is)

end Loops

def emplace {κ ν : Type} (less : κ → κ → Bool) : List (κ × ν) → κ × ν → List (κ × ν)
  | [], e => [e]
  | x :: xs, e =>
    if less x.1 e.1 then x :: emplace less xs e
    else if less e.1 x.1 then e :: x :: xs
    else x :: xs

/-- The count is read as unsigned and becomes the signed count of the clock's duration. -/
def ofMicroseconds (ticks : ℕ) (bytes : List UInt8) : ℤ :=
  let count := ofBytes bytes
  (if count < 2 ^ 63 then (count : ℤ) else (count : ℤ) - 2 ^ 64) * ticks

section Overloads
variable (sizeType : LengthType) {α κ ν : Type}

def string (target : List UInt8) (is : VectorReader) : List UInt8 × VectorReader :=
  sized sizeType is target fun n is => block is n (resize 0 n target) id

def elements (decode : α → VectorReader → α × VectorReader) (filler : α) (target : List α)
    (is : VectorReader) : List α × VectorReader :=
  sized sizeType is target fun n is => loopInto decode (resize filler n target) is

def vector (scalar : Option Width) (ofBlock : ℕ → ℕ → List UInt8 → List α)
    (decode : α → VectorReader → α × VectorReader) (filler : α) (target : List α)
    (is : VectorReader) : List α × VectorReader :=
  match scalar with
  | some w =>
    sized sizeType is target fun n is =>
      block is (n * w.bytes) (resize filler n target) (ofBlock w.bytes n)
  | none => elements sizeType decode filler target is

def array (scalar : Option Width) (ofBlock : ℕ → ℕ → List UInt8 → List α)
    (hblock : ∀ w n bytes, (ofBlock w n bytes).length = n)
    (decode : α → VectorReader → α × VectorReader) {n : ℕ} (target : { xs : List α // xs.length = n })
    (is : VectorReader) : { xs : List α // xs.length = n } × VectorReader :=
  match scalar with
  | some w => block is (n * w.bytes) target fun bytes => ⟨ofBlock w.bytes n bytes, hblock _ _ _⟩
  | none =>
    (⟨(loopInto decode target.1 is).1, (length_loopInto decode target.1 is).trans target.2⟩,
      (loopInto decode target.1 is).2)

def list (decode : VectorReader → α × VectorReader) (target : List α) (is : VectorReader) :
    List α × VectorReader :=
  sized sizeType is target fun n is =>
    loopAdd decode (fun xs x => xs ++ [x]) (turns32 n is) [] is

def map (decode : VectorReader → (κ × ν) × VectorReader) (less : κ → κ → Bool)
    (target : List (κ × ν)) (is : VectorReader) : List (κ × ν) × VectorReader :=
  sized sizeType is target fun n is => loopAdd decode (emplace less) (turns32 n is) [] is

def unorderedMap (decode : VectorReader → (κ × ν) × VectorReader) (less : κ → κ → Bool)
    (overflow : List (κ × ν) → VectorReader → List (κ × ν) × VectorReader)
    (target : List (κ × ν)) (is : VectorReader) : List (κ × ν) × VectorReader :=
  sized sizeType is target fun n is =>
    -- the counter overflows after the entry with the number 2 ^ 31 - 1
    match loopAdd decode (emplace less) (min n (2 ^ 31)) [] is with
    | (entries, is) =>
      if 2 ^ 31 ≤ n ∧ is.result = .yes then overflow entries is else (entries, is)

end Overloads

end Read

def decode (lib : StdLibrary) (overflow : Overflow) (sizeType : LengthType) :
    (t : Ty) → t.Value → VectorReader → t.Value × VectorReader
  | .int w, target, is => Read.block is w.bytes target (ofMemory (.int w))
  | .enum w, target, is => Read.block is w.bytes target (ofMemory (.enum w))
  | .string, target, is => Read.string sizeType target is
  | .timePoint, target, is => Read.block is 8 target (Read.ofMicroseconds lib.ticks)
  | .vector t, target, is =>
    Read.vector sizeType t.scalar (ofBlock t) (decode lib overflow sizeType t) t.fresh target is
  | .deque t, target, is => Read.elements sizeType (decode lib overflow sizeType t) t.fresh target is
  | .list t, target, is => Read.list sizeType (decode lib overflow sizeType t t.fresh) target is
  | .array _ t, target, is =>
    Read.array t.scalar (ofBlock t) (length_ofBlock t) (decode lib overflow sizeType t) target is
  | .map k v, target, is =>
    Read.map sizeType (Read.both (decode lib overflow sizeType k k.fresh) (decode lib overflow sizeType v v.fresh))
      (lib.less k) target is
  | .unorderedMap k v, target, is =>
    Read.unorderedMap sizeType
      (Read.both (decode lib overflow sizeType k k.fresh) (decode lib overflow sizeType v v.fresh))
      (lib.less k) (overflow k v) target is
  | .pair a b, target, is =>
    Read.both (decode lib overflow sizeType a target.1) (decode lib overflow sizeType b target.2) is
  | .uniquePtr t, target, is => Read.ptr is target (decode lib overflow sizeType t t.fresh)
  | .sharedPtr t, target, is => Read.ptr is target (decode lib overflow sizeType t t.fresh)
  | .lastField t, target, is => decode lib overflow sizeType t target is
  | .field t rest, target, is =>
    Read.both (decode lib overflow sizeType t target.1) (decode lib overflow sizeType rest target.2) is

end AetherClient
