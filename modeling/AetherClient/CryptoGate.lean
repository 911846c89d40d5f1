import AetherClient.ClientEncryption

set_option autoImplicit false

/-!
# The gate that decrypts

`CryptoGate` passes on what its decrypt provider makes of the data it receives. The provider
splits the nonce off the end, gives libsodium a buffer of the size of the message and
returns that buffer. In a build without assertions the result code of libsodium is not
looked at.
-/
namespace AetherClient

structure SodiumDecrypt extends Sodium where
  aeadDecrypt : DataBuffer → CryptoNonce → DataBuffer → Option DataBuffer
  aeadDecrypt_iff : ∀ key nonce ciphertext data,
    aeadDecrypt key nonce ciphertext = some data ↔ ciphertext = aeadEncrypt key nonce data
  /-- The output buffer after a failure. -/
  failedBuffer : DataBuffer → CryptoNonce → DataBuffer → DataBuffer
  failedBuffer_length : ∀ key nonce ciphertext,
    (failedBuffer key nonce ciphertext).length = ciphertext.length - kAuthTagSize

def CryptoNonce.ofBytes (bytes : DataBuffer) : CryptoNonce := Vector.ofFn fun i => bytes.getD i.val 0

/-- The outcome of a call that may throw. `undefined` stands for an iterator moved to before
the beginning of its vector. -/
inductive Outcome (α : Type) where
  | returned (value : α)
  | lengthError
  | undefined
deriving DecidableEq, Repr

section Decrypt
variable (sodium : SodiumDecrypt) (secretKey encryptedData : DataBuffer)

def encryptedDataSize : ℕ := encryptedData.length - kNonceSize

def splitNonce : CryptoNonce :=
  CryptoNonce.ofBytes (encryptedData.drop (encryptedDataSize encryptedData))

def splitCiphertext : DataBuffer := encryptedData.take (encryptedDataSize encryptedData)

def openCiphertext : DataBuffer :=
  (sodium.aeadDecrypt secretKey (splitNonce encryptedData) (splitCiphertext encryptedData)).getD
    (sodium.failedBuffer secretKey (splitNonce encryptedData) (splitCiphertext encryptedData))

def decryptWithSymmetric : Outcome DataBuffer :=
  if encryptedData.length < kNonceSize then .undefined
  -- the size of the new vector wraps around and is more than a vector can have
  else if encryptedDataSize encryptedData < kAuthTagSize then .lengthError
  else .returned (openCiphertext sodium secretKey encryptedData)

end Decrypt

structure CryptoGate where
  secretKey : DataBuffer
deriving DecidableEq, Repr

namespace CryptoGate

def onOutData (sodium : SodiumDecrypt) (gate : CryptoGate) (buffer : DataBuffer) :
    Option (List DataBuffer) :=
  match decryptWithSymmetric sodium gate.secretKey buffer with
  | .returned decrypted => some [decrypted]
  | .lengthError => some []
  | .undefined => none

/-- libsodium does not accept the buffer, or there is no tag or no nonce in it. -/
def Rejected (sodium : SodiumDecrypt) (gate : CryptoGate) (buffer : DataBuffer) : Prop :=
  buffer.length < kAuthTagSize + kNonceSize ∨
    sodium.aeadDecrypt gate.secretKey (splitNonce buffer) (splitCiphertext buffer) = none

theorem onOutData_of_long (sodium : SodiumDecrypt) (gate : CryptoGate) {buffer : DataBuffer}
    (h : kAuthTagSize + kNonceSize ≤ buffer.length) :
    onOutData sodium gate buffer = some [openCiphertext sodium gate.secretKey buffer] := by
  have hnonce : ¬ buffer.length < kNonceSize := by omega
  have htag : ¬ encryptedDataSize buffer < kAuthTagSize := by
    unfold encryptedDataSize
    omega
  simp [onOutData, decryptWithSymmetric, hnonce, htag]

theorem openCiphertext_of_rejected {sodium : SodiumDecrypt} {gate : CryptoGate}
    {buffer : DataBuffer} (h : Rejected sodium gate buffer)
    (hlong : kAuthTagSize + kNonceSize ≤ buffer.length) :
    openCiphertext sodium gate.secretKey buffer =
      sodium.failedBuffer gate.secretKey (splitNonce buffer) (splitCiphertext buffer) := by
  have hnone := h.resolve_left (by omega)
  rw [openCiphertext, hnone, Option.getD_none]

theorem onOutData_of_short (sodium : SodiumDecrypt) (gate : CryptoGate) {buffer : DataBuffer}
    (h : buffer.length < kAuthTagSize + kNonceSize) :
    onOutData sodium gate buffer = if kNonceSize ≤ buffer.length then some [] else none := by
  by_cases hnonce : buffer.length < kNonceSize
  · simp [onOutData, decryptWithSymmetric, hnonce]
  · have htag : encryptedDataSize buffer < kAuthTagSize := by
      unfold encryptedDataSize
      omega
    have hle : kNonceSize ≤ buffer.length := by omega
    simp [onOutData, decryptWithSymmetric, hnonce, htag, hle]

/-- For a rejected buffer nothing is emitted only if it is too short for a tag but not for
the nonce; if it is longer, the unchecked output buffer is. -/
theorem emits_nothing_iff {sodium : SodiumDecrypt} {gate : CryptoGate} {buffer : DataBuffer}
    (h : Rejected sodium gate buffer) :
    (onOutData sodium gate buffer = some [] ↔
      kNonceSize ≤ buffer.length ∧ buffer.length < kAuthTagSize + kNonceSize) ∧
    (kAuthTagSize + kNonceSize ≤ buffer.length →
      onOutData sodium gate buffer =
        some [sodium.failedBuffer gate.secretKey (splitNonce buffer) (splitCiphertext buffer)]) := by
  by_cases hlong : kAuthTagSize + kNonceSize ≤ buffer.length
  · have hemits := onOutData_of_long sodium gate hlong
    rw [openCiphertext_of_rejected h hlong] at hemits
    refine ⟨?_, fun _ => hemits⟩
    rw [hemits]
    constructor
    · intro hnil
      simp at hnil
    · rintro ⟨-, hlt⟩
      omega
  · have hshort : buffer.length < kAuthTagSize + kNonceSize := by omega
    refine ⟨?_, fun hle => absurd hle hlong⟩
    rw [onOutData_of_short sodium gate hshort]
    split <;> simp [*]

def zeroTagSodium : SodiumDecrypt where
  aeadEncrypt _ _ data := data ++ List.replicate kAuthTagSize 0
  aeadEncrypt_length := EncryptWorld.length_append_tag
  kdfDeriveFromKey length _ _ := List.replicate length 0
  aeadDecrypt _ _ ciphertext :=
    let size := ciphertext.length - kAuthTagSize
    if ciphertext = ciphertext.take size ++ List.replicate kAuthTagSize 0 then
      some (ciphertext.take size)
    else none
  aeadDecrypt_iff _ _ ciphertext data := by
    constructor
    · intro h
      simp only at h
      split at h
      · next heq =>
        cases h
        exact heq
      · cases h
    · rintro rfl
      simp
  failedBuffer _ _ ciphertext := List.replicate (ciphertext.length - kAuthTagSize) 0
  failedBuffer_length _ _ ciphertext := by simp

theorem emits_nothing_ten_bytes :
    (onOutData zeroTagSodium ⟨[]⟩ (List.replicate 10 1) = some [] ↔
      kNonceSize ≤ 10 ∧ 10 < kAuthTagSize + kNonceSize) ∧
    (kAuthTagSize + kNonceSize ≤ 10 →
      onOutData zeroTagSodium ⟨[]⟩ (List.replicate 10 1) =
        some [zeroTagSodium.failedBuffer [] (splitNonce (List.replicate 10 1))
          (splitCiphertext (List.replicate 10 1))]) :=
  emits_nothing_iff (.inl (by decide))

/-- A tag and a nonce that belong to no message, and one byte before them. -/
theorem forged_data_emitted :
    ¬ ∀ (sodium : SodiumDecrypt) (gate : CryptoGate) (buffer : DataBuffer),
      Rejected sodium gate buffer → onOutData sodium gate buffer = some [] := by
  intro h
  have hemitted : onOutData zeroTagSodium ⟨[]⟩ (List.replicate 25 1) = some [[0]] := by decide
  have := h zeroTagSodium ⟨[]⟩ (List.replicate 25 1) (.inr (by decide))
  rw [hemitted] at this
  simp at this

end CryptoGate

end AetherClient
