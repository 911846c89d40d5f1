import Mathlib.Data.List.Nodup
import AetherClient.Runs
import AetherClient.SafeStreamTypes

set_option autoImplicit false

/-!
# Encryption with the keys of a server

A client keeps, for each server, a pair of symmetric keys and one nonce. The encrypt
provider asks the key provider for a nonce, which advances the stored one and reads it,
and appends it to the ciphertext. The cipher and the key derivation of libsodium are
parameters; the build is the default one, with ChaCha20-Poly1305.
-/
namespace AetherClient
open Runs

abbrev ServerId := UInt16

def kNonceSize : ℕ := 8

def kAuthTagSize : ℕ := 16

def kChachaKeySize : ℕ := 32

abbrev CryptoNonce := Vector UInt8 kNonceSize

namespace CryptoNonce

/-- A write through a `std::uint64_t` reference to the first eight bytes, on a machine
that stores the low byte first. -/
def storeUint64 (nonce : CryptoNonce) (v : UInt64) : CryptoNonce :=
  Vector.ofFn fun i => if i.val < 8 then (v >>> (8 * i.val.toUInt64)).toUInt8 else nonce.get i

/-- The source assigns `+1`: the word is set to one, whatever it was. -/
def next (nonce : CryptoNonce) : CryptoNonce := nonce.storeUint64 1

theorem next_eq_next (nonce other : CryptoNonce) : nonce.next = other.next := by
  ext i hi
  have hi' : i < 8 := hi
  simp [next, storeUint64, hi']

end CryptoNonce

inductive CryptoKeyType where
  | sodiumCurvePublic
  | sodiumCurveSecret
  | sodiumChacha
  | sodiumSignPublic
  | sodiumSignSecret
  | blank
deriving DecidableEq, Repr

structure Key where
  index : CryptoKeyType := .blank
  key : DataBuffer := []
deriving DecidableEq, Repr

namespace Key

/-- `Get<SodiumChachaKey>`, undefined for a variant that holds another key. -/
def getSodiumChacha (key : Key) : Option DataBuffer :=
  if key.index = .sodiumChacha then some key.key else none

end Key

structure Sodium where
  aeadEncrypt : DataBuffer → CryptoNonce → DataBuffer → DataBuffer
  aeadEncrypt_length : ∀ key nonce data,
    (aeadEncrypt key nonce data).length = data.length + kAuthTagSize
  kdfDeriveFromKey : ℕ → UInt64 → DataBuffer → DataBuffer

def cryptoSyncKeyDerive (sodium : Sodium) (masterKey : Key) (serverId keyNumber : UInt32) :
    Key × Key :=
  let subkeyId := (serverId.toUInt64 <<< 32) ||| keyNumber.toUInt64
  let derivedKey := sodium.kdfDeriveFromKey (kChachaKeySize + kChachaKeySize) subkeyId masterKey.key
  (⟨.sodiumChacha, derivedKey.take kChachaKeySize⟩, ⟨.sodiumChacha, derivedKey.drop kChachaKeySize⟩)

structure ServerKeys where
  serverId : ServerId
  masterKey : Key
  keyNumber : UInt32
  nonce : CryptoNonce
  clientToServerKey : Key
  serverToClientKey : Key
deriving DecidableEq

namespace ServerKeys

/-- The constructor; `initial` is what the storage of the nonce held before it. -/
def create (sodium : Sodium) (initial : CryptoNonce) (serverId : ServerId) (masterKey : Key) :
    ServerKeys :=
  let derived := cryptoSyncKeyDerive sodium masterKey serverId.toUInt32 0
  { serverId := serverId
    masterKey := masterKey
    keyNumber := 0
    nonce := initial.next
    clientToServerKey := derived.1
    serverToClientKey := derived.2 }

def next (keys : ServerKeys) : ServerKeys := { keys with nonce := keys.nonce.next }

end ServerKeys

structure Client where
  masterKey : Key := {}
  serverKeys : List (ServerId × ServerKeys) := []

namespace Client

/-- `server_state`; the source returns a pointer, writes through it are `putServerState`. -/
def serverState (client : Client) (serverId : ServerId) : Option ServerKeys :=
  client.serverKeys.lookup serverId

def putServerState (client : Client) (serverId : ServerId) (keys : ServerKeys) : Client :=
  { client with serverKeys := client.serverKeys.map fun entry =>
      if entry.1 = serverId then (entry.1, keys) else entry }

def emplaceKeys (client : Client) (serverId : ServerId) (keys : ServerKeys) : Client :=
  if (client.serverState serverId).isSome then client
  else { client with serverKeys := client.serverKeys ++ [(serverId, keys)] }

def setConfig (client : Client) (sodium : Sodium) (initial : ServerId → CryptoNonce)
    (masterKey : Key) (servers : List ServerId) : Client :=
  servers.foldl (fun client serverId =>
    client.emplaceKeys serverId (ServerKeys.create sodium (initial serverId) serverId masterKey))
    { client with masterKey := masterKey }

theorem serverState_putServerState {client : Client} {serverId : ServerId} (keys : ServerKeys)
    (h : (client.serverState serverId).isSome) :
    (client.putServerState serverId keys).serverState serverId = some keys := by
  obtain ⟨masterKey, serverKeys⟩ := client
  simp only [serverState, putServerState] at h ⊢
  induction serverKeys with
  | nil => cases h
  | cons entry rest ih =>
    obtain ⟨id, old⟩ := entry
    rw [List.map_cons]
    by_cases he : id = serverId
    · simp [he]
    · have hne : (serverId == id) = false := by simpa using Ne.symm he
      rw [List.lookup_cons, hne] at h
      rw [if_neg he, List.lookup_cons, hne]
      exact ih h

theorem serverState_emplaceKeys (client : Client) (serverId other : ServerId)
    (keys : ServerKeys) :
    (client.emplaceKeys serverId keys).serverState other =
      (client.serverState other).or (if other = serverId then some keys else none) := by
  unfold emplaceKeys
  split_ifs with h he he
  · subst he
    obtain ⟨old, hold⟩ := Option.isSome_iff_exists.1 h
    rw [hold, Option.some_or]
  · rw [Option.or_none]
  · subst he
    simp [serverState, List.lookup_append]
  · have hne : (other == serverId) = false := by simpa using he
    simp [serverState, List.lookup_append, List.lookup_cons, hne]

theorem serverState_setConfig (client : Client) (sodium : Sodium)
    (initial : ServerId → CryptoNonce) (masterKey : Key) (servers : List ServerId)
    (serverId : ServerId) :
    (client.setConfig sodium initial masterKey servers).serverState serverId =
      (client.serverState serverId).or (if serverId ∈ servers then
        some (ServerKeys.create sodium (initial serverId) serverId masterKey) else none) := by
  unfold setConfig
  change _ = (({ client with masterKey := masterKey } : Client).serverState serverId).or _
  generalize ({ client with masterKey := masterKey } : Client) = client
  induction servers generalizing client with
  | nil => simp
  | cons first rest ih =>
    rw [List.foldl_cons, ih, serverState_emplaceKeys, Option.or_assoc]
    by_cases hf : serverId = first
    · simp [hf]
    · simp [hf]

end Client

namespace ClientKeyProvider

def nonce (serverId : ServerId) (client : Client) : Option (Client × CryptoNonce) :=
  (client.serverState serverId).map fun keys =>
    (client.putServerState serverId keys.next, keys.next.nonce)

end ClientKeyProvider

def ClientEncryptKeyProvider.getKey (serverId : ServerId) (client : Client) : Option Key :=
  (client.serverState serverId).map fun keys => keys.clientToServerKey

def ClientDecryptKeyProvider.getKey (serverId : ServerId) (client : Client) : Option Key :=
  (client.serverState serverId).map fun keys => keys.serverToClientKey

/-- The buffer has room for the message, the tag and the nonce; it is cut to what the
cipher wrote and the nonce, and the nonce is copied behind the ciphertext. -/
def encryptWithSymmetric (sodium : Sodium) (secretKey : DataBuffer) (nonce : CryptoNonce)
    (rawData : DataBuffer) : DataBuffer :=
  let buffer : DataBuffer := List.replicate (rawData.length + kAuthTagSize + kNonceSize) 0
  let written := sodium.aeadEncrypt secretKey nonce rawData
  let ciphertext := (written ++ buffer.drop written.length).take (written.length + kNonceSize)
  ciphertext.take written.length ++ nonce.toList

def encrypt (sodium : Sodium) (serverId : ServerId) (client : Client) (data : DataBuffer) :
    Option (Client × DataBuffer) := do
  let key ← ClientEncryptKeyProvider.getKey serverId client
  let chacha ← key.getSodiumChacha
  let (client, nonce) ← ClientKeyProvider.nonce serverId client
  return (client, encryptWithSymmetric sodium chacha nonce data)

def appendedNonce (encrypted : DataBuffer) : DataBuffer :=
  encrypted.drop (encrypted.length - kNonceSize)

theorem encryptWithSymmetric_eq (sodium : Sodium) (secretKey : DataBuffer) (nonce : CryptoNonce)
    (rawData : DataBuffer) :
    encryptWithSymmetric sodium secretKey nonce rawData =
      sodium.aeadEncrypt secretKey nonce rawData ++ nonce.toList := by
  simp [encryptWithSymmetric, List.take_take]

theorem encryptWithSymmetric_length (sodium : Sodium) (secretKey : DataBuffer)
    (nonce : CryptoNonce) (rawData : DataBuffer) :
    (encryptWithSymmetric sodium secretKey nonce rawData).length =
      rawData.length + (kAuthTagSize + kNonceSize) := by
  rw [encryptWithSymmetric_eq, List.length_append, sodium.aeadEncrypt_length,
    Vector.length_toList, Nat.add_assoc]

theorem appendedNonce_encryptWithSymmetric (sodium : Sodium) (secretKey : DataBuffer)
    (nonce : CryptoNonce) (rawData : DataBuffer) :
    appendedNonce (encryptWithSymmetric sodium secretKey nonce rawData) = nonce.toList := by
  unfold appendedNonce
  rw [encryptWithSymmetric_length, encryptWithSymmetric_eq]
  apply List.drop_left'
  rw [sodium.aeadEncrypt_length]
  omega

structure EncryptWorld where
  client : Client
  encrypted : List DataBuffer := []

namespace EncryptWorld
section Step
variable (sodium : Sodium) (serverId : ServerId)

def step (w : EncryptWorld) (data : DataBuffer) : Option EncryptWorld :=
  (encrypt sodium serverId w.client data).map fun res =>
    { client := res.1, encrypted := w.encrypted ++ [res.2] }

/-- The client has a pair of keys for the server, of the kind the cipher takes. -/
def HasKeys (client : Client) : Prop :=
  ∃ keys, client.serverState serverId = some keys ∧
    keys.clientToServerKey.index = .sodiumChacha

def repeatedNonce : DataBuffer := (CryptoNonce.next (Vector.replicate kNonceSize 0)).toList

structure Inv (w : EncryptWorld) : Prop where
  hasKeys : HasKeys serverId w.client
  nonces : w.encrypted.map appendedNonce = List.replicate w.encrypted.length repeatedNonce

end Step

section Nonces
variable (sodium : Sodium) {serverId : ServerId}

theorem Inv.start {client : Client} (hk : HasKeys serverId client) :
    Inv serverId { client := client } := ⟨hk, rfl⟩

theorem step_inv (w : EncryptWorld) (data : DataBuffer) (h : Inv serverId w) :
    ∃ w', step sodium serverId w data = some w' ∧ Inv serverId w' ∧
      w'.encrypted.length = w.encrypted.length + 1 := by
  obtain ⟨⟨keys, hk, hi⟩, hn⟩ := h
  have hput := Client.serverState_putServerState keys.next
    (show (w.client.serverState serverId).isSome by rw [hk]; rfl)
  simp only [step, encrypt, ClientEncryptKeyProvider.getKey, ClientKeyProvider.nonce,
    Key.getSodiumChacha, hk, hi, Option.map_some, if_true, Option.bind_eq_bind, Option.bind_some,
    Option.pure_def]
  refine ⟨_, rfl, ⟨⟨keys.next, hput, hi⟩, ?_⟩, ?_⟩
  · simp only [List.map_append, List.map_cons, List.map_nil, List.length_append,
      List.length_singleton, hn, appendedNonce_encryptWithSymmetric, List.replicate_succ']
    rw [show keys.next.nonce = _ from CryptoNonce.next_eq_next keys.nonce _]
    rfl
  · simp

theorem run_inv (w : EncryptWorld) (messages : List DataBuffer) (h : Inv serverId w) :
    ∃ w', run (step sodium serverId) w messages = some w' ∧ Inv serverId w' ∧
      w'.encrypted.length = w.encrypted.length + messages.length := by
  induction messages generalizing w with
  | nil => exact ⟨w, rfl, h, rfl⟩
  | cons data rest ih =>
    obtain ⟨w₁, hs, hi, hl⟩ := step_inv sodium w data h
    obtain ⟨w₂, hr, hi₂, hl₂⟩ := ih w₁ hi
    refine ⟨w₂, ?_, hi₂, ?_⟩
    · rw [run, hs, Option.bind_some, hr]
    · rw [hl₂, hl, List.length_cons]
      omega

theorem run_nonces (client : Client) (hk : HasKeys serverId client)
    (messages : List DataBuffer) :
    ∃ w, run (step sodium serverId) { client := client } messages = some w ∧
      w.encrypted.map appendedNonce = List.replicate messages.length repeatedNonce := by
  obtain ⟨w, hr, hi, hl⟩ := run_inv sodium { client := client } messages (Inv.start hk)
  refine ⟨w, hr, ?_⟩
  rw [hi.nonces, hl]
  simp

end Nonces

/-- Whatever nonce a client starts from, the nonces of its messages to one server are
pairwise different exactly if it sends at most one. -/
theorem nonces_different_iff (sodium : Sodium) (serverId : ServerId) (client : Client)
    (messages : List DataBuffer) (hk : HasKeys serverId client) :
    ∃ w, run (step sodium serverId) { client := client } messages = some w ∧
      w.encrypted.length = messages.length ∧
      ((w.encrypted.map appendedNonce).Nodup ↔ messages.length ≤ 1) := by
  obtain ⟨w, hr, hn⟩ := run_nonces sodium client hk messages
  refine ⟨w, hr, ?_, ?_⟩
  · simpa using congrArg List.length hn
  · rw [hn, List.nodup_replicate]

theorem length_append_tag (_ : DataBuffer) (_ : CryptoNonce) (data : DataBuffer) :
    (data ++ List.replicate kAuthTagSize 0).length = data.length + kAuthTagSize := by
  simp

def tagOnly : Sodium where
  aeadEncrypt _ _ data := data ++ List.replicate kAuthTagSize 0
  aeadEncrypt_length := length_append_tag
  kdfDeriveFromKey length _ masterKey := (masterKey ++ List.replicate length 0).take length

def configured : Client :=
  Client.setConfig {} tagOnly (fun _ => Vector.replicate kNonceSize 0) ⟨.sodiumChacha, [7]⟩ [3]

theorem configured_hasKeys : HasKeys 3 configured :=
  ⟨_, Client.serverState_setConfig _ _ _ _ _ _, rfl⟩

theorem nonces_different_two_messages :
    ∃ w, run (step tagOnly 3) { client := configured } [[1], [2]] = some w ∧
      w.encrypted.length = [[1], [2]].length ∧
      ((w.encrypted.map appendedNonce).Nodup ↔ [[1], [2]].length ≤ 1) :=
  nonces_different_iff tagOnly 3 configured [[1], [2]] configured_hasKeys

/-- Two messages carry the same nonce under the same key. -/
theorem nonce_repeated :
    ¬ ∀ (sodium : Sodium) (serverId : ServerId) (client : Client) (messages : List DataBuffer),
      HasKeys serverId client → messages.length < 2 ^ 64 →
      ∃ w, run (step sodium serverId) { client := client } messages = some w ∧
        w.encrypted.length = messages.length ∧ (w.encrypted.map appendedNonce).Nodup := by
  intro h
  obtain ⟨w, hr, -, hd⟩ := h tagOnly 3 configured [[1], [2]] configured_hasKeys (by decide)
  obtain ⟨w', hr', hn⟩ := run_nonces tagOnly configured configured_hasKeys [[1], [2]]
  cases hr.symm.trans hr'
  rw [hn] at hd
  exact absurd (List.nodup_replicate.1 hd) (by decide)

end EncryptWorld
end AetherClient
