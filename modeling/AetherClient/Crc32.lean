import AetherClient.ReflectedCrc

set_option autoImplicit false

/-!
# The CRC routines

A translation of `crc.h`. The value of a `result_t` is the register before the final inversion.
`from_literal` recurses over the characters of a literal and its terminating NUL, `from_string`
runs to the NUL, and `from_buffer` counts its bytes with a 32-bit index.
-/
namespace AetherClient.Crc32
open ReflectedCrc

abbrev Byte := BitVec 8

abbrev ResultT := BitVec 32

def initialValue : ResultT := 0xFFFFFFFF
def xorValue : BitVec 32 := 0xFFFFFFFF

set_option maxRecDepth 2048 in
def table : Vector (BitVec 32) 256 := #v[
  0x00000000, 0x77073096, 0xee0e612c, 0x990951ba, 0x076dc419, 0x706af48f, 0xe963a535, 0x9e6495a3,
  0x0edb8832, 0x79dcb8a4, 0xe0d5e91e, 0x97d2d988, 0x09b64c2b, 0x7eb17cbd, 0xe7b82d07, 0x90bf1d91,
  0x1db71064, 0x6ab020f2, 0xf3b97148, 0x84be41de, 0x1adad47d, 0x6ddde4eb, 0xf4d4b551, 0x83d385c7,
  0x136c9856, 0x646ba8c0, 0xfd62f97a, 0x8a65c9ec, 0x14015c4f, 0x63066cd9, 0xfa0f3d63, 0x8d080df5,
  0x3b6e20c8, 0x4c69105e, 0xd56041e4, 0xa2677172, 0x3c03e4d1, 0x4b04d447, 0xd20d85fd, 0xa50ab56b,
  0x35b5a8fa, 0x42b2986c, 0xdbbbc9d6, 0xacbcf940, 0x32d86ce3, 0x45df5c75, 0xdcd60dcf, 0xabd13d59,
  0x26d930ac, 0x51de003a, 0xc8d75180, 0xbfd06116, 0x21b4f4b5, 0x56b3c423, 0xcfba9599, 0xb8bda50f,
  0x2802b89e, 0x5f058808, 0xc60cd9b2, 0xb10be924, 0x2f6f7c87, 0x58684c11, 0xc1611dab, 0xb6662d3d,
  0x76dc4190, 0x01db7106, 0x98d220bc, 0xefd5102a, 0x71b18589, 0x06b6b51f, 0x9fbfe4a5, 0xe8b8d433,
  0x7807c9a2, 0x0f00f934, 0x9609a88e, 0xe10e9818, 0x7f6a0dbb, 0x086d3d2d, 0x91646c97, 0xe6635c01,
  0x6b6b51f4, 0x1c6c6162, 0x856530d8, 0xf262004e, 0x6c0695ed, 0x1b01a57b, 0x8208f4c1, 0xf50fc457,
  0x65b0d9c6, 0x12b7e950, 0x8bbeb8ea, 0xfcb9887c, 0x62dd1ddf, 0x15da2d49, 0x8cd37cf3, 0xfbd44c65,
  0x4db26158, 0x3ab551ce, 0xa3bc0074, 0xd4bb30e2, 0x4adfa541, 0x3dd895d7, 0xa4d1c46d, 0xd3d6f4fb,
  0x4369e96a, 0x346ed9fc, 0xad678846, 0xda60b8d0, 0x44042d73, 0x33031de5, 0xaa0a4c5f, 0xdd0d7cc9,
  0x5005713c, 0x270241aa, 0xbe0b1010, 0xc90c2086, 0x5768b525, 0x206f85b3, 0xb966d409, 0xce61e49f,
  0x5edef90e, 0x29d9c998, 0xb0d09822, 0xc7d7a8b4, 0x59b33d17, 0x2eb40d81, 0xb7bd5c3b, 0xc0ba6cad,
  0xedb88320, 0x9abfb3b6, 0x03b6e20c, 0x74b1d29a, 0xead54739, 0x9dd277af, 0x04db2615, 0x73dc1683,
  0xe3630b12, 0x94643b84, 0x0d6d6a3e, 0x7a6a5aa8, 0xe40ecf0b, 0x9309ff9d, 0x0a00ae27, 0x7d079eb1,
  0xf00f9344, 0x8708a3d2, 0x1e01f268, 0x6906c2fe, 0xf762575d, 0x806567cb, 0x196c3671, 0x6e6b06e7,
  0xfed41b76, 0x89d32be0, 0x10da7a5a, 0x67dd4acc, 0xf9b9df6f, 0x8ebeeff9, 0x17b7be43, 0x60b08ed5,
  0xd6d6a3e8, 0xa1d1937e, 0x38d8c2c4, 0x4fdff252, 0xd1bb67f1, 0xa6bc5767, 0x3fb506dd, 0x48b2364b,
  0xd80d2bda, 0xaf0a1b4c, 0x36034af6, 0x41047a60, 0xdf60efc3, 0xa867df55, 0x316e8eef, 0x4669be79,
  0xcb61b38c, 0xbc66831a, 0x256fd2a0, 0x5268e236, 0xcc0c7795, 0xbb0b4703, 0x220216b9, 0x5505262f,
  0xc5ba3bbe, 0xb2bd0b28, 0x2bb45a92, 0x5cb36a04, 0xc2d7ffa7, 0xb5d0cf31, 0x2cd99e8b, 0x5bdeae1d,
  0x9b64c2b0, 0xec63f226, 0x756aa39c, 0x026d930a, 0x9c0906a9, 0xeb0e363f, 0x72076785, 0x05005713,
  0x95bf4a82, 0xe2b87a14, 0x7bb12bae, 0x0cb61b38, 0x92d28e9b, 0xe5d5be0d, 0x7cdcefb7, 0x0bdbdf21,
  0x86d3d2d4, 0xf1d4e242, 0x68ddb3f8, 0x1fda836e, 0x81be16cd, 0xf6b9265b, 0x6fb077e1, 0x18b74777,
  0x88085ae6, 0xff0f6a70, 0x66063bca, 0x11010b5c, 0x8f659eff, 0xf862ae69, 0x616bffd3, 0x166ccf45,
  0xa00ae278, 0xd70dd2ee, 0x4e048354, 0x3903b3c2, 0xa7672661, 0xd06016f7, 0x4969474d, 0x3e6e77db,
  0xaed16a4a, 0xd9d65adc, 0x40df0b66, 0x37d83bf0, 0xa9bcae53, 0xdebb9ec5, 0x47b2cf7f, 0x30b5ffe9,
  0xbdbdf21c, 0xcabac28a, 0x53b39330, 0x24b4a3a6, 0xbad03605, 0xcdd70693, 0x54de5729, 0x23d967bf,
  0xb3667a2e, 0xc4614ab8, 0x5d681b02, 0x2a6f2b94, 0xb40bbe37, 0xc30c8ea1, 0x5a05df1b, 0x2d02ef8d]

def addCharacter (curr : ResultT) (ch : Byte) : ResultT :=
  table.get (curr.setWidth 8 ^^^ ch).toFin ^^^ curr >>> 8

/-- A string literal with `unsigned LEN` elements, the last of which is the NUL. -/
structure Literal where
  chars : List Byte
  length_lt : chars.length + 1 < 2 ^ 32

def cString (chars : List Byte) : List Byte := chars ++ [0]

def aux (len : ℕ) : ℕ → List Byte → ResultT → ResultT → ResultT
  | _, [], _, prev => prev
  | index, ch :: rest, curr, _ =>
    if len = 1 ∧ index = 0 then xorValue
    else aux len (index + 1) rest (addCharacter curr ch) curr

def fromLiteral (literal : Literal) : ResultT :=
  aux (literal.chars.length + 1) 0 (cString literal.chars) initialValue initialValue

def checksumFromLiteral (literal : Literal) : BitVec 32 := fromLiteral literal ^^^ xorValue

/-- The loop of `from_string`. To read on past the end of the memory is undefined. -/
def stringLoop : List Byte → ResultT → Option ResultT
  | [], _ => none
  | ch :: rest, curr => if ch = 0 then some curr else stringLoop rest (addCharacter curr ch)

def fromString (str : Option (List Byte)) (curr : ResultT) : Option ResultT :=
  match str with
  | none => some curr
  | some memory => stringLoop memory curr

/-- The loop of `from_buffer`, for at most `fuel` tests of its condition. The index is an
`unsigned`. -/
def bufferLoop (buff : List Byte) : ℕ → BitVec 32 → ResultT → Option ResultT
  | 0, _, _ => none
  | fuel + 1, i, curr =>
    if h : i.toNat < buff.length then
      bufferLoop buff fuel (i + 1) (addCharacter curr (buff.get ⟨i.toNat, h⟩))
    else some curr

def fromBuffer (fuel : ℕ) (buff : Option (List Byte)) (curr : ResultT) : Option ResultT :=
  match buff with
  | none => some curr
  | some bytes => bufferLoop bytes fuel 0 curr

def FromBufferReturns (bytes : List Byte) (curr result : ResultT) : Prop :=
  ∃ turns, ∀ fuel, turns ≤ fuel → fromBuffer fuel (some bytes) curr = some result

def polynomial : BitVec 32 := 0x04C11DB7

/-- CRC-32 bit by bit: both the polynomial and the message are reflected. -/
def bitwise (curr : ResultT) (bytes : List Byte) : ResultT :=
  remainder polynomial.reverse curr bytes

theorem polynomial_reverse : polynomial.reverse = 0xEDB88320 := by decide +kernel

theorem table_toList : table.toList =
    (List.range 256).map fun i => shiftOuts polynomial.reverse 8 (BitVec.ofNat 32 i) := by
  rw [polynomial_reverse]
  decide +kernel

theorem table_get (i : Fin 256) :
    table.get i = shiftOuts polynomial.reverse 8 (BitVec.ofNat 32 i) := by
  have hget : table.toList[i.val]? = some (table.get i) := by simp [Vector.get]
  rw [table_toList, List.getElem?_map, List.getElem?_range i.isLt] at hget
  exact (Option.some.inj hget).symm

theorem addCharacter_eq (curr : ResultT) (ch : Byte) :
    addCharacter curr ch = addChunk polynomial.reverse curr ch := by
  have hindex : BitVec.ofNat 32 (curr.setWidth 8 ^^^ ch).toFin =
      (curr.setWidth 8 ^^^ ch).setWidth 32 := BitVec.ofNat_toNat _ _
  rw [addChunk_eq_table polynomial.reverse (by decide), addCharacter, table_get, hindex]

theorem foldl_addCharacter (curr : ResultT) (bytes : List Byte) :
    bytes.foldl addCharacter curr = bitwise curr bytes := by
  have hstep : addCharacter = addChunk polynomial.reverse := by
    funext curr ch
    exact addCharacter_eq curr ch
  rw [hstep, bitwise, remainder_eq_foldl]

theorem aux_of_ne_one {len : ℕ} (hlen : len ≠ 1) (index : ℕ) (chars : List Byte) (last : Byte)
    (curr prev : ResultT) :
    aux len index (chars ++ [last]) curr prev = chars.foldl addCharacter curr := by
  induction chars generalizing index curr prev with
  | nil => simp [aux, hlen]
  | cons ch chars ih =>
    have hgeneral : ¬(len = 1 ∧ index = 0) := fun h => hlen h.1
    rw [List.cons_append, aux, if_neg hgeneral, ih, List.foldl_cons]

theorem fromLiteral_eq (literal : Literal) :
    fromLiteral literal = bitwise initialValue literal.chars := by
  obtain ⟨chars, _⟩ := literal
  rw [← foldl_addCharacter]
  cases chars with
  | nil => rfl
  | cons ch chars =>
    have hlen : (ch :: chars).length + 1 ≠ 1 := by simp
    exact aux_of_ne_one hlen 0 (ch :: chars) 0 initialValue initialValue

-- the checks of the header, the last one is of "Hello world"
example : checksumFromLiteral ⟨[], by decide⟩ = 0 := by decide
example : checksumFromLiteral ⟨[0x41], by decide⟩ = 0xD3D99E8B := by decide
example : checksumFromLiteral ⟨[0x48, 0x65, 0x6c, 0x6c, 0x6f, 0x20, 0x77, 0x6f, 0x72, 0x6c, 0x64],
    by decide⟩ = 0x8BD69E52 := by decide +kernel

theorem fromString_eq {chars : List Byte} (hnul : 0 ∉ chars) (curr : ResultT) :
    fromString (some (cString chars)) curr = some (bitwise curr chars) := by
  rw [← foldl_addCharacter]
  change stringLoop (chars ++ [0]) curr = _
  induction chars generalizing curr with
  | nil => rfl
  | cons ch chars ih =>
    have hch : ch ≠ 0 := by
      rintro rfl
      exact hnul List.mem_cons_self
    rw [List.cons_append, stringLoop, if_neg hch]
    exact ih (fun h => hnul (List.mem_cons_of_mem _ h)) _

theorem bufferLoop_eq (bytes : List Byte) (hlen : bytes.length < 2 ^ 32) (fuel : ℕ) (i : BitVec 32)
    (curr : ResultT) (hi : i.toNat ≤ bytes.length) (hfuel : bytes.length < fuel + i.toNat) :
    bufferLoop bytes fuel i curr = some ((bytes.drop i.toNat).foldl addCharacter curr) := by
  induction fuel generalizing i curr with
  | zero => omega
  | succ fuel ih =>
    rw [bufferLoop]
    split_ifs with h
    · have hnext : (i + 1).toNat = i.toNat + 1 := by
        rw [BitVec.toNat_add]
        change (i.toNat + 1) % 2 ^ 32 = _
        omega
      rw [ih (i + 1) _ (by omega) (by omega), hnext, List.drop_eq_getElem_cons h, List.foldl_cons]
      rfl
    · rw [List.drop_of_length_le (by omega)]
      rfl

/-- From `2^32` bytes on the index never reaches the end: it starts again from zero. -/
theorem bufferLoop_none (bytes : List Byte) (hlen : 2 ^ 32 ≤ bytes.length) (fuel : ℕ)
    (i : BitVec 32) (curr : ResultT) : bufferLoop bytes fuel i curr = none := by
  induction fuel generalizing i curr with
  | zero => rfl
  | succ fuel ih =>
    have hi : i.toNat < bytes.length := Nat.lt_of_lt_of_le i.isLt hlen
    rw [bufferLoop, dif_pos hi]
    exact ih _ _

theorem fromBufferReturns_iff (bytes : List Byte) (curr result : ResultT) :
    FromBufferReturns bytes curr result ↔
      bytes.length < 2 ^ 32 ∧ bitwise curr bytes = result := by
  rw [← foldl_addCharacter]
  constructor
  · rintro ⟨turns, h⟩
    have hlast := h (max turns (bytes.length + 1)) (Nat.le_max_left _ _)
    have hend := Nat.le_max_right turns (bytes.length + 1)
    rcases Nat.lt_or_ge bytes.length (2 ^ 32) with hlen | hlen
    · rw [fromBuffer, bufferLoop_eq bytes hlen _ _ _ (Nat.zero_le _) (by omega)] at hlast
      exact ⟨hlen, Option.some.inj hlast⟩
    · rw [fromBuffer, bufferLoop_none bytes hlen] at hlast
      cases hlast
  · rintro ⟨hlen, rfl⟩
    refine ⟨bytes.length + 1, fun fuel hfuel => ?_⟩
    exact bufferLoop_eq bytes hlen fuel 0 curr (Nat.zero_le _) (by omega)

structure Text where
  chars : List Byte
  nul_free : 0 ∉ chars

inductive Gives (chars : List Byte) : ResultT → Prop where
  | literal (l : Literal) (h : l.chars = chars) : Gives chars (fromLiteral l)
  | string {r : ResultT} (h : fromString (some (cString chars)) initialValue = some r) :
    Gives chars r
  | buffer {r : ResultT} (h : FromBufferReturns chars initialValue r) : Gives chars r

/-- All routines give the value of the bitwise definition, and so do `from_string` and
`from_buffer` when they continue from what any routine gave for a first part. -/
structure Agree (text : Text) : Prop where
  literal : ∀ l : Literal, l.chars = text.chars →
    fromLiteral l = bitwise initialValue text.chars
  string : fromString (some (cString text.chars)) initialValue =
    some (bitwise initialValue text.chars)
  buffer : FromBufferReturns text.chars initialValue (bitwise initialValue text.chars)
  continued : ∀ first second, first ++ second = text.chars → ∀ r, Gives first r →
    fromString (some (cString second)) r = some (bitwise initialValue text.chars) ∧
      FromBufferReturns second r (bitwise initialValue text.chars)

theorem Gives.eq_bitwise {chars : List Byte} {r : ResultT} (hnul : 0 ∉ chars) (h : Gives chars r) :
    r = bitwise initialValue chars := by
  cases h with
  | literal l h => rw [fromLiteral_eq, h]
  | string h => exact Option.some.inj (h.symm.trans (fromString_eq hnul initialValue))
  | buffer h => exact ((fromBufferReturns_iff _ _ _).1 h).2.symm

/-- The routines agree exactly on the strings whose bytes a 32-bit index can count. -/
theorem routines_agree_iff (text : Text) : Agree text ↔ text.chars.length < 2 ^ 32 := by
  constructor
  · intro h
    exact ((fromBufferReturns_iff _ _ _).1 h.buffer).1
  · intro hlen
    refine ⟨?_, fromString_eq text.nul_free _, (fromBufferReturns_iff _ _ _).2 ⟨hlen, rfl⟩, ?_⟩
    · intro l hl
      rw [fromLiteral_eq, hl]
    · intro first second hsplit r hr
      have hnul := text.nul_free
      rw [← hsplit] at hnul hlen ⊢
      rw [List.mem_append, not_or] at hnul
      rw [List.length_append] at hlen
      have hwhole : bitwise r second = bitwise initialValue (first ++ second) := by
        rw [hr.eq_bitwise hnul.1]
        exact (remainder_append _ _ _ _).symm
      exact ⟨hwhole ▸ fromString_eq hnul.2 r, (fromBufferReturns_iff _ _ _).2 ⟨by omega, hwhole⟩⟩

def longText : Text :=
  ⟨List.replicate (2 ^ 32) 0x41, fun h => absurd (List.eq_of_mem_replicate h) (by decide)⟩

theorem longText_never_returns :
    (∀ fuel, fromBuffer fuel (some longText.chars) initialValue = none) ∧ ¬ Agree longText := by
  have hlong : longText.chars.length = 2 ^ 32 := List.length_replicate
  constructor
  · intro fuel
    exact bufferLoop_none longText.chars (Nat.le_of_eq hlong.symm) fuel 0 initialValue
  · intro h
    have hlen := ((fromBufferReturns_iff _ _ _).1 h.buffer).1
    omega

end AetherClient.Crc32
