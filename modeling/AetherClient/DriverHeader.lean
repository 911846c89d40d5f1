import Mathlib.Data.List.Basic
import Mathlib.Data.List.ReduceOption
import Mathlib.Data.List.TakeWhile
import Mathlib.Tactic.Common

set_option autoImplicit false

/-!
# A file of bytes as a C++ header

The header driver keeps bytes as the text of a C++ array, twelve to a line, and reads the text
line by line. A text is the list of its characters; reading fails where `substr` or `stoul`
would throw.
-/
namespace AetherClient.DriverHeader

def string1 : List Char := "#ifndef CONFIG_FILE_SYSTEM_INIT_H_".toList
def string2 : List Char := "#define CONFIG_FILE_SYSTEM_INIT_H_".toList
def string3 : List Char := []
def string4 : List Char := "#include <array>".toList
def string5 : List Char := []
def string6a : List Char := "constexpr std::array<std::uint8_t, ".toList
def string6b : List Char := "> init_fs\x7b".toList
def string7 : List Char := "\x7d;".toList
def string8 : List Char := []
def string9 : List Char := "#endif /* CONFIG_FILE_SYSTEM_INIT_H_ */".toList
def string10 : List Char := []

section Hex

def byteToHex (ch : UInt8) : List Char :=
  ['0', 'x', Nat.digitChar (ch.toNat / 16), Nat.digitChar (ch.toNat % 16)]

def hexValue (c : Char) : Option ℕ :=
  if '0' ≤ c ∧ c ≤ '9' then some (c.toNat - '0'.toNat)
  else if 'a' ≤ c ∧ c ≤ 'f' then some (c.toNat - 'a'.toNat + 10)
  else if 'A' ≤ c ∧ c ≤ 'F' then some (c.toNat - 'A'.toNat + 10)
  else none

/-- The number that the leading digits are; `stoul` throws if there are none. White space, a sign
or `0x` before the digits does not stand in the texts that are written. -/
def hexToByte (hex : List Char) : Option UInt8 :=
  match (hex.map hexValue).takeWhile Option.isSome with
  | [] => none
  | digits => some (UInt8.ofNat (digits.reduceOption.foldl (fun value digit => value * 16 + digit) 0))

theorem hexValue_digitChar : ∀ d < 16, hexValue (Nat.digitChar d) = some d := by decide

theorem digitChar_ne_newline : ∀ d < 16, Nat.digitChar d ≠ '\n' := by decide

theorem hexToByte_digits (ch : UInt8) :
    hexToByte [Nat.digitChar (ch.toNat / 16), Nat.digitChar (ch.toNat % 16)] = some ch := by
  have hlt : ch.toNat < 256 := ch.toNat_lt
  have hhigh := hexValue_digitChar (ch.toNat / 16) (by omega)
  have hlow := hexValue_digitChar (ch.toNat % 16) (by omega)
  have hvalue : ch.toNat / 16 * 16 + ch.toNat % 16 = ch.toNat := by omega
  simp [hexToByte, hhigh, hlow, hvalue]

end Hex

section Lines

def lines : List Char → List (List Char)
  | [] => []
  | c :: text =>
    if c = '\n' then [] :: lines text
    else
      match lines text with
      | [] => [[c]]
      | line :: rest => (c :: line) :: rest

theorem lines_append {line : List Char} (h : '\n' ∉ line) (text : List Char) :
    lines (line ++ '\n' :: text) = line :: lines text := by
  induction line with
  | nil => simp [lines]
  | cons c line ih =>
    obtain ⟨hc, hline⟩ := not_or.mp (mt List.mem_cons.mpr h)
    rw [List.cons_append, lines, if_neg (Ne.symm hc), ih hline]

end Lines

section Write

def entry (byte : UInt8) : List Char := byteToHex byte ++ [',', ' ']

/-- The loop over the bytes, `cnt` of which are in the last line, and the end of that line. -/
def writeBytes : ℕ → List UInt8 → List Char
  | cnt, [] => if cnt ≠ 0 then ['\n'] else []
  | cnt, byte :: bytes =>
    entry byte ++ if cnt + 1 = 12 then '\n' :: writeBytes 0 bytes else writeBytes (cnt + 1) bytes

def driverHeaderWrite (data : List UInt8) : List Char :=
  string1 ++ '\n' :: (string2 ++ '\n' :: (string3 ++ '\n' :: (string4 ++ '\n' :: (string5 ++ '\n' ::
    (string6a ++ Nat.toDigits 10 data.length ++ string6b ++ '\n' :: (writeBytes 0 data ++
      (string7 ++ '\n' :: (string8 ++ '\n' :: (string9 ++ '\n' :: (string10 ++ ['\n']))))))))))

end Write

section Read

/-- The loop `for (i = 0; i < line.length(); i += 6)` over `line.substr(i + 2, 2)`. -/
def readLine : List Char → Option (List UInt8)
  | [] => some []
  | [_] => none
  | _ :: _ :: c :: d :: _ :: _ :: line => do
    let byte ← hexToByte [c, d]
    let bytes ← readLine line
    return byte :: bytes
  | _ :: _ :: hex => do
    let byte ← hexToByte (hex.take 2)
    return [byte]

def readLines : List (List Char) → Option (List UInt8)
  | [] => some []
  | line :: rest =>
    if line = string7 then some []
    else do
      let bytes ← readLine line
      let others ← readLines rest
      return bytes ++ others

/-- A missing file and one with other first lines give no bytes. A line that is not there is
compared as an empty one. -/
def driverHeaderRead : Option (List Char) → Option (List UInt8)
  | none => some []
  | some text =>
    if (lines text ++ List.replicate 5 []).take 5 = [string1, string2, string3, string4, string5] then
      readLines ((lines text).drop 6)
    else some []

end Read

theorem newline_notMem_entry (byte : UInt8) : '\n' ∉ entry byte := by
  have hlt : byte.toNat < 256 := byte.toNat_lt
  have hhigh := digitChar_ne_newline (byte.toNat / 16) (by omega)
  have hlow := digitChar_ne_newline (byte.toNat % 16) (by omega)
  simp [entry, byteToHex, hhigh.symm, hlow.symm]

theorem newline_notMem_entries (bytes : List UInt8) : '\n' ∉ bytes.flatMap entry := by
  intro h
  obtain ⟨byte, -, hmem⟩ := List.mem_flatMap.mp h
  exact newline_notMem_entry byte hmem

theorem readLine_entries (bytes : List UInt8) : readLine (bytes.flatMap entry) = some bytes := by
  induction bytes with
  | nil => rfl
  | cons byte bytes ih => simp [entry, byteToHex, readLine, hexToByte_digits, ih]

theorem entries_ne_string7 (bytes : List UInt8) : bytes.flatMap entry ≠ string7 := by
  cases bytes with
  | nil => decide
  | cons byte bytes =>
    intro h
    have hfirst := congrArg List.head? h
    simp [entry, byteToHex, string7] at hfirst

theorem readLines_entries (bytes : List UInt8) (text : List Char) :
    readLines (lines (bytes.flatMap entry ++ '\n' :: text)) =
      (readLines (lines text)).map (bytes ++ ·) := by
  rw [lines_append (newline_notMem_entries bytes), readLines, if_neg (entries_ne_string7 bytes),
    readLine_entries]
  cases readLines (lines text) <;> rfl

theorem readLines_string7 (text : List Char) : readLines (lines (string7 ++ '\n' :: text)) = some [] := by
  rw [lines_append (by decide), readLines, if_pos rfl]

theorem readLines_writeBytes (before data : List UInt8) (text : List Char) :
    readLines (lines (before.flatMap entry ++ (writeBytes before.length data ++
      (string7 ++ '\n' :: text)))) = some (before ++ data) := by
  induction data generalizing before with
  | nil =>
    cases before with
    | nil => simpa [writeBytes] using readLines_string7 text
    | cons byte before =>
      have hrest := readLines_entries (byte :: before) (string7 ++ '\n' :: text)
      rw [readLines_string7] at hrest
      simpa [writeBytes] using hrest
  | cons byte data ih =>
    have hline : before.flatMap entry ++ entry byte = (before ++ [byte]).flatMap entry := by simp
    rw [writeBytes, List.append_assoc (entry byte), ← List.append_assoc (before.flatMap entry), hline]
    split
    · -- the line is full, the next one starts empty
      have hrest := readLines_entries (before ++ [byte]) (writeBytes 0 data ++ (string7 ++ '\n' :: text))
      have hnext := ih []
      simp only [List.flatMap_nil, List.nil_append, List.length_nil] at hnext
      rw [hnext] at hrest
      simpa using hrest
    · have hnext := ih (before ++ [byte])
      simpa using hnext

/-- The text that is written is read as the same bytes. -/
theorem driverHeaderRead_write (data : List UInt8) :
    driverHeaderRead (some (driverHeaderWrite data)) = some data := by
  have hsize : '\n' ∉ string6a ++ Nat.toDigits 10 data.length ++ string6b := by
    have hdigits : '\n' ∉ Nat.toDigits 10 data.length := by
      intro h
      have := Nat.isDigit_of_mem_toDigits (by omega) (by omega) h
      revert this
      decide
    simp only [List.mem_append, not_or]
    exact ⟨⟨by decide, hdigits⟩, by decide⟩
  have hbytes := readLines_writeBytes [] data
    (string8 ++ '\n' :: (string9 ++ '\n' :: (string10 ++ ['\n'])))
  simp only [List.flatMap_nil, List.nil_append, List.length_nil] at hbytes
  rw [driverHeaderRead, driverHeaderWrite, lines_append (by decide), lines_append (by decide),
    lines_append (by decide), lines_append (by decide), lines_append (by decide), lines_append hsize]
  exact hbytes

end AetherClient.DriverHeader
