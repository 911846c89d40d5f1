import AetherClient.MstreamTruncation

set_option autoImplicit false

namespace AetherClient
open LittleEndian Ty Read

namespace ApiParser
variable {Message : Type}

structure Parsed (Message : Type) where
  notified : List Message
  is : VectorReader
  aborted : Bool
deriving DecidableEq, Repr

def Parsed.notify (m : Message) (parsed : Parsed Message) : Parsed Message :=
  { parsed with notified := m :: parsed.notified }

def readMessageId (is : VectorReader) : UInt8 × VectorReader :=
  block is 1 255 fun bytes => UInt8.ofNat (ofBytes bytes)

def load (lib : StdLibrary) (overflow : Overflow) (t : Ty) (message : t.Value → Message)
    (is : VectorReader) : Option (Message × VectorReader) :=
  match decode lib overflow packedLength t t.fresh is with
  | (fields, is) => some (message fields, is)

section Parse
variable (loadFactory : UInt8 → VectorReader → Option (Message × VectorReader)) (assertions : Bool)

/-- The loop of `Parse`, for so many turns. `LoadFactory` gives nothing for a code that no message
of the api has. Then there is an assertion; without assertions the code is skipped. -/
def parseLoop : ℕ → VectorReader → Parsed Message
  | 0, is => ⟨[], is, false⟩
  | turns + 1, is =>
    if is.unread = [] then ⟨[], is, false⟩
    else
      match readMessageId is with
      | (messageId, is) =>
        match loadFactory messageId is with
        | none => if assertions then ⟨[], is, true⟩ else parseLoop turns is
        | some (m, is) => (parseLoop turns is).notify m

/-- Every turn takes the byte of a code, so there are no more turns than bytes. -/
def parse (data : List UInt8) : Parsed Message :=
  parseLoop loadFactory assertions data.length ⟨data, 0, .no⟩

variable {loadFactory assertions}

theorem parseLoop_nil (turns offset : ℕ) (result : ReadResult) :
    parseLoop loadFactory assertions turns ⟨[], offset, result⟩ =
      ⟨[], ⟨[], offset, result⟩, false⟩ := by
  cases turns <;> rfl

end Parse

theorem readMessageId_cons (b : UInt8) (y : List UInt8) (offset : ℕ) (result : ReadResult) :
    readMessageId ⟨b :: y, offset, result⟩ = (b, ⟨y, offset + 1, .yes⟩) := by
  have hread := VectorReader.read_append [b] y offset result
  simp only [List.length_singleton, List.cons_append, List.nil_append] at hread
  simp only [readMessageId, block, hread]
  simp [ofBytes]

theorem load_reads {lib : StdLibrary} (overflow : Overflow) {t : Ty} (message : t.Value → Message)
    {fields : t.Value} (h : Fits lib packedLength.countedLimits t fields) (y : List UInt8)
    (offset : ℕ) (result : ReadResult) :
    load lib overflow t message ⟨encode lib packedLength t fields ++ y, offset, result⟩ =
      some (message fields, ⟨y, offset + (encode lib packedLength t fields).length, .yes⟩) := by
  simp only [load, reads_encode lib overflow packedLength t fields h _ _ _]

end ApiParser

namespace SafeStreamApi
open ApiParser

inductive ApiMessage where
  | close
  | requestReport
  | putReport (offset : BitVec 16)
  | confirm (offset : BitVec 16)
  | requestRepeat (offset : BitVec 16)
  | send (offset : BitVec 16) (data : List (BitVec 8))
  | repeat_ (repeatCount offset : BitVec 16) (data : List (BitVec 8))
deriving DecidableEq, Repr

def offsetFields : Ty := .lastField (.int .two)

def sendFields : Ty := .field (.int .two) (.lastField (.vector (.int .one)))

def repeatFields : Ty :=
  .field (.int .two) (.field (.int .two) (.lastField (.vector (.int .one))))

namespace ApiMessage

def data : ApiMessage → List (BitVec 8)
  | send _ data => data
  | repeat_ _ _ data => data
  | _ => []

def code : ApiMessage → UInt8
  | close => 2
  | requestReport => 3
  | putReport _ => 4
  | confirm _ => 5
  | requestRepeat _ => 6
  | send _ _ => 7
  | repeat_ _ _ _ => 8

def save (lib : StdLibrary) : ApiMessage → List UInt8
  | close => []
  | requestReport => []
  | putReport offset => encode lib packedLength offsetFields offset
  | confirm offset => encode lib packedLength offsetFields offset
  | requestRepeat offset => encode lib packedLength offsetFields offset
  | send offset data => encode lib packedLength sendFields (offset, data)
  | repeat_ repeatCount offset data =>
    encode lib packedLength repeatFields (repeatCount, offset, data)

def pack (lib : StdLibrary) (m : ApiMessage) : List UInt8 := m.code :: m.save lib

end ApiMessage

/-- `PacketBuilder::Pack`. Every `PackMessage` of the builder may hold several messages. -/
def packetBuilder (lib : StdLibrary) (packMessages : List (List ApiMessage)) : List UInt8 :=
  packMessages.flatMap fun messages => messages.flatMap (ApiMessage.pack lib)

theorem length_encodeElements {α : Type} {f : α → List UInt8} (hf : ∀ x, (f x).length = 1)
    (xs : List α) :
    (encodeElements packedLength f xs).length =
      (PacketSize.serialize xs.length).length + xs.length := by
  have hone : (xs.flatMap f).length = xs.length := by
    induction xs with
    | nil => rfl
    | cons x xs ih =>
      rw [List.flatMap_cons, List.length_append, ih, hf x, List.length_cons]
      exact Nat.add_comm 1 xs.length
  rw [encodeElements, List.length_append, hone, packedLength]

section Parse
variable (lib : StdLibrary) (overflow : Overflow)

def loadFactory (messageId : UInt8) (is : VectorReader) : Option (ApiMessage × VectorReader) :=
  match messageId with
  | 2 => some (.close, is)
  | 3 => some (.requestReport, is)
  | 4 => load lib overflow offsetFields .putReport is
  | 5 => load lib overflow offsetFields .confirm is
  | 6 => load lib overflow offsetFields .requestRepeat is
  | 7 => load lib overflow sendFields (fun fields => .send fields.1 fields.2) is
  | 8 => load lib overflow repeatFields (fun fields => .repeat_ fields.1 fields.2.1 fields.2.2) is
  | _ => none

def parse (assertions : Bool) (data : List UInt8) : Parsed ApiMessage :=
  ApiParser.parse (loadFactory lib overflow) assertions data

end Parse

section Loop
variable {lib : StdLibrary} {overflow : Overflow} {assertions : Bool}

theorem load_shrinks {t : Ty} {message : t.Value → ApiMessage} {is is' : VectorReader}
    {m : ApiMessage} (ht : t.unordered = false) (h : load lib overflow t message is = some (m, is')) :
    is'.unread.length ≤ is.unread.length := by
  have hover : t.unordered = true → Harmless (is.unread.length + 1) overflow := by simp [ht]
  have hadv := decode_advances lib packedLength t hover t.fresh is (Nat.lt_succ_self _)
  rw [load, Option.some.injEq, Prod.mk.injEq] at h
  rw [← h.2]
  exact hadv.le

theorem loadFactory_shrinks {messageId : UInt8} {is is' : VectorReader} {m : ApiMessage}
    (h : loadFactory lib overflow messageId is = some (m, is')) :
    is'.unread.length ≤ is.unread.length := by
  unfold loadFactory at h
  split at h
  · cases h
    exact Nat.le_refl _
  · cases h
    exact Nat.le_refl _
  · exact load_shrinks (t := offsetFields) rfl h
  · exact load_shrinks (t := offsetFields) rfl h
  · exact load_shrinks (t := offsetFields) rfl h
  · exact load_shrinks (t := sendFields) rfl h
  · exact load_shrinks (t := repeatFields) rfl h
  · cases h

theorem parseLoop_turns {turns turns' : ℕ} {is : VectorReader} (h : is.unread.length ≤ turns)
    (h' : is.unread.length ≤ turns') :
    parseLoop (loadFactory lib overflow) assertions turns is = parseLoop (loadFactory lib overflow) assertions turns' is := by
  induction turns generalizing turns' is with
  | zero =>
    obtain ⟨unread, offset, result⟩ := is
    obtain rfl := List.length_eq_zero_iff.mp (Nat.le_zero.mp h)
    rw [parseLoop_nil, parseLoop_nil]
  | succ turns ih =>
    obtain ⟨unread, offset, result⟩ := is
    cases unread with
    | nil => rw [parseLoop_nil, parseLoop_nil]
    | cons b y =>
      obtain ⟨turns', rfl⟩ : ∃ n, turns' = n + 1 := Nat.exists_eq_add_one.mpr (Nat.zero_lt_of_lt h')
      have hy : y.length ≤ turns := Nat.le_of_succ_le_succ h
      have hy' : y.length ≤ turns' := Nat.le_of_succ_le_succ h'
      simp only [parseLoop, readMessageId_cons]
      cases hload : loadFactory lib overflow b ⟨y, offset + 1, .yes⟩ with
      | none => simp only [@ih turns' ⟨y, offset + 1, .yes⟩ hy hy']
      | some loaded =>
        have hle := loadFactory_shrinks hload
        simp only [ih (Nat.le_trans hle hy) (Nat.le_trans hle hy')]

theorem loadFactory_save (lib : StdLibrary) (overflow : Overflow) (m : ApiMessage) (h : m.data.length < packedLength.limit)
    (y : List UInt8) (offset : ℕ) :
    loadFactory lib overflow m.code ⟨m.save lib ++ y, offset, .yes⟩ =
      some (m, ⟨y, offset + (m.save lib).length, .yes⟩) := by
  cases m with
  | close | requestReport => rfl
  | putReport value | confirm value | requestRepeat value =>
    have hfits : Fits lib packedLength.countedLimits offsetFields value := trivial
    exact load_reads overflow _ hfits y offset .yes
  | send value data =>
    have hfits : Fits lib packedLength.countedLimits sendFields (value, data) :=
      ⟨trivial, h, fun _ _ => trivial⟩
    exact load_reads (t := sendFields) overflow (fun fields => ApiMessage.send fields.1 fields.2) hfits y
      offset .yes
  | repeat_ repeatCount value data =>
    have hfits : Fits lib packedLength.countedLimits repeatFields (repeatCount, value, data) :=
      ⟨trivial, trivial, h, fun _ _ => trivial⟩
    exact load_reads (t := repeatFields) overflow
      (fun fields => ApiMessage.repeat_ fields.1 fields.2.1 fields.2.2) hfits y offset .yes

theorem loadFactory_code (lib : StdLibrary) (overflow : Overflow) (m : ApiMessage) (is : VectorReader) :
    (loadFactory lib overflow m.code is).isSome = true := by
  cases m <;> simp only [ApiMessage.code, loadFactory, load, Option.isSome_some]

theorem parseLoop_pack (turns : ℕ) (m : ApiMessage) (h : m.data.length < packedLength.limit)
    (y : List UInt8) (offset : ℕ) (result : ReadResult) :
    parseLoop (loadFactory lib overflow) assertions (turns + 1) ⟨m.pack lib ++ y, offset, result⟩ =
      (parseLoop (loadFactory lib overflow) assertions turns ⟨y, offset + (m.pack lib).length, .yes⟩).notify m := by
  have hload := loadFactory_save lib overflow m h y (offset + 1)
  rw [parseLoop, if_neg (by simp [ApiMessage.pack])]
  simp only [ApiMessage.pack, List.cons_append, readMessageId_cons, hload, List.length_cons]
  rw [show offset + 1 + (m.save lib).length = offset + ((m.save lib).length + 1) by omega]

theorem packetBuilder_eq (lib : StdLibrary) (packMessages : List (List ApiMessage)) :
    packetBuilder lib packMessages = packMessages.flatten.flatMap (ApiMessage.pack lib) := by
  induction packMessages with
  | nil => rfl
  | cons messages packMessages ih =>
    rw [List.flatten_cons, List.flatMap_append, ← ih]
    rfl

theorem parseLoop_messages (lib : StdLibrary) (overflow : Overflow) (assertions : Bool)
    {messages : List ApiMessage}
    (h : ∀ m ∈ messages, m.data.length < packedLength.limit) {turns : ℕ}
    (hturns : (messages.flatMap (ApiMessage.pack lib)).length ≤ turns) (offset : ℕ)
    (result : ReadResult) :
    ∃ result', parseLoop (loadFactory lib overflow) assertions turns
        ⟨messages.flatMap (ApiMessage.pack lib), offset, result⟩ =
      ⟨messages, ⟨[], offset + (messages.flatMap (ApiMessage.pack lib)).length, result'⟩, false⟩ := by
  induction messages generalizing turns offset result with
  | nil => exact ⟨result, parseLoop_nil turns offset result⟩
  | cons m messages ih =>
    rw [List.flatMap_cons, List.length_append] at hturns
    have hpos : 0 < (m.pack lib).length := by simp [ApiMessage.pack]
    obtain ⟨turns, rfl⟩ : ∃ n, turns = n + 1 := Nat.exists_eq_add_one.mpr (by omega)
    have hrest : ∀ m' ∈ messages, m'.data.length < packedLength.limit := fun m' hm' =>
      h m' (List.mem_cons_of_mem m hm')
    obtain ⟨result', ih⟩ := ih hrest (show _ ≤ turns by omega) (offset + (m.pack lib).length) .yes
    refine ⟨result', ?_⟩
    rw [List.flatMap_cons, parseLoop_pack turns m (h m List.mem_cons_self), ih, List.length_append,
      Nat.add_assoc]
    rfl

end Loop

/-- What was packed is notified, message by message, and the packet is used up. -/
theorem parse_packetBuilder (lib : StdLibrary) (overflow : Overflow) (assertions : Bool)
    (packMessages : List (List ApiMessage))
    (h : ∀ m ∈ packMessages.flatten, m.data.length < packedLength.limit) :
    ∃ result, parse lib overflow assertions (packetBuilder lib packMessages) =
      ⟨packMessages.flatten, ⟨[], (packetBuilder lib packMessages).length, result⟩, false⟩ := by
  rw [parse, ApiParser.parse, packetBuilder_eq]
  obtain ⟨result, hparse⟩ := parseLoop_messages lib overflow assertions h (Nat.le_refl _) 0 .no
  exact ⟨result, hparse.trans (by rw [Nat.zero_add])⟩

def samplePacket : List (List ApiMessage) :=
  [[.confirm 0x0102#16], [.send 7#16 [1#8, 2#8], .repeat_ 1#16 7#16 []]]

theorem parse_samplePacket :
    (∀ m ∈ samplePacket.flatten, m.data.length < packedLength.limit) ∧
      ∃ result, parse nanosecondLibrary (fun _ _ entries is => (entries, is)) true
        (packetBuilder nanosecondLibrary samplePacket) =
        ⟨samplePacket.flatten, ⟨[], (packetBuilder nanosecondLibrary samplePacket).length, result⟩,
          false⟩ := by
  have h : ∀ m ∈ samplePacket.flatten, m.data.length < packedLength.limit := by decide
  exact ⟨h, parse_packetBuilder nanosecondLibrary _ true samplePacket h⟩

section Cut

/-- The messages whose bytes lie wholly within the first `n` bytes. -/
def wholly (lib : StdLibrary) : List ApiMessage → ℕ → List ApiMessage
  | [], _ => []
  | m :: messages, n =>
    if (m.pack lib).length ≤ n then m :: wholly lib messages (n - (m.pack lib).length) else []

variable {lib : StdLibrary} {overflow : Overflow} {assertions : Bool}

theorem parseLoop_code_ne_nil (turns : ℕ) (m : ApiMessage) (y : List UInt8) (offset : ℕ)
    (result : ReadResult) :
    (parseLoop (loadFactory lib overflow) assertions (turns + 1) ⟨m.code :: y, offset, result⟩).notified ≠ [] := by
  have hsome := loadFactory_code lib overflow m ⟨y, offset + 1, .yes⟩
  obtain ⟨loaded, hloaded⟩ := Option.isSome_iff_exists.mp hsome
  rw [parseLoop, if_neg (by simp)]
  simp only [readMessageId_cons, hloaded, Parsed.notify, ne_eq, reduceCtorEq, not_false_iff]

theorem parseLoop_prefix_iff {messages : List ApiMessage}
    (h : ∀ m ∈ messages, m.data.length < packedLength.limit) {x y : List UInt8}
    (hxy : messages.flatMap (ApiMessage.pack lib) = x ++ y) {turns : ℕ} (hturns : x.length ≤ turns)
    (offset : ℕ) (result : ReadResult) :
    (parseLoop (loadFactory lib overflow) assertions turns ⟨x, offset, result⟩).notified =
        wholly lib messages x.length ↔
      ∃ k, x = (messages.take k).flatMap (ApiMessage.pack lib) := by
  induction messages generalizing x turns offset result with
  | nil =>
    obtain ⟨rfl, -⟩ := List.append_eq_nil_iff.mp hxy.symm
    rw [parseLoop_nil]
    exact ⟨fun _ => ⟨0, rfl⟩, fun _ => rfl⟩
  | cons m messages ih =>
    rw [List.flatMap_cons] at hxy
    obtain ⟨z, hm, hz⟩ | ⟨z, rfl, hz⟩ := append_eq_append_cases hxy
    · -- the cut is in the first message, or before it
      have hlen : x.length < (m.pack lib).length := by
        rw [hm, List.length_append]
        have := List.length_pos_iff.mpr hz
        omega
      rw [wholly, if_neg (by omega)]
      cases x with
      | nil =>
        rw [parseLoop_nil]
        exact ⟨fun _ => ⟨0, rfl⟩, fun _ => rfl⟩
      | cons b x =>
        obtain ⟨turns, rfl⟩ : ∃ n, turns = n + 1 :=
          Nat.exists_eq_add_one.mpr (Nat.zero_lt_of_lt hturns)
        obtain rfl : m.code = b := by
          rw [ApiMessage.pack, List.cons_append, List.cons.injEq] at hm
          exact hm.1
        constructor
        · intro hnil
          exact absurd hnil (parseLoop_code_ne_nil turns m x offset result)
        · rintro ⟨k, hk⟩
          cases k with
          | zero => cases hk
          | succ k =>
            rw [List.take_succ_cons, List.flatMap_cons] at hk
            rw [hk, List.length_append] at hlen
            omega
    · have hpos : 0 < (m.pack lib).length := by simp [ApiMessage.pack]
      rw [List.length_append] at hturns
      obtain ⟨turns, rfl⟩ : ∃ n, turns = n + 1 := Nat.exists_eq_add_one.mpr (by omega)
      have hrest : ∀ m' ∈ messages, m'.data.length < packedLength.limit := fun m' hm' =>
        h m' (List.mem_cons_of_mem m hm')
      have hiff := ih hrest hz (show z.length ≤ turns by omega) (offset + (m.pack lib).length) .yes
      have hboundary : (∃ k, m.pack lib ++ z =
            ((m :: messages).take k).flatMap (ApiMessage.pack lib)) ↔
          ∃ k, z = (messages.take k).flatMap (ApiMessage.pack lib) := by
        constructor
        · rintro ⟨k, hk⟩
          cases k with
          | zero => exact absurd (List.append_eq_nil_iff.mp hk).1 (List.cons_ne_nil _ _)
          | succ k => exact ⟨k, List.append_cancel_left hk⟩
        · rintro ⟨k, rfl⟩
          exact ⟨k + 1, rfl⟩
      rw [parseLoop_pack turns m (h m List.mem_cons_self), wholly,
        if_pos (by rw [List.length_append]; omega), List.length_append, Nat.add_sub_cancel_left,
        hboundary, ← hiff]
      simp [Parsed.notify]

end Cut

/-- Exactly the messages that lie wholly in the prefix are notified if it ends with a message:
otherwise the one that was cut off is notified as well, with what could be read of it. -/
theorem parse_prefix_iff (lib : StdLibrary) (overflow : Overflow) (assertions : Bool)
    (packMessages : List (List ApiMessage))
    (h : ∀ m ∈ packMessages.flatten, m.data.length < packedLength.limit) (x y : List UInt8)
    (hxy : packetBuilder lib packMessages = x ++ y) :
    (parse lib overflow assertions x).notified = wholly lib packMessages.flatten x.length ↔
      ∃ k, x = (packMessages.flatten.take k).flatMap (ApiMessage.pack lib) := by
  rw [packetBuilder_eq] at hxy
  exact parseLoop_prefix_iff h hxy (Nat.le_refl _) 0 .no

theorem parse_prefix_samplePacket :
    (∀ m ∈ samplePacket.flatten, m.data.length < packedLength.limit) ∧
      packetBuilder nanosecondLibrary samplePacket = [5, 2, 1] ++ [7, 7, 0, 2, 1, 2, 8, 1, 0, 7, 0, 0] ∧
      ((parse nanosecondLibrary (fun _ _ entries is => (entries, is)) true [5, 2, 1]).notified =
          wholly nanosecondLibrary samplePacket.flatten 3 ↔
        ∃ k, [5, 2, 1] = (samplePacket.flatten.take k).flatMap (ApiMessage.pack nanosecondLibrary)) := by
  have h : ∀ m ∈ samplePacket.flatten, m.data.length < packedLength.limit := by decide
  have hxy : packetBuilder nanosecondLibrary samplePacket =
      [5, 2, 1] ++ [7, 7, 0, 2, 1, 2, 8, 1, 0, 7, 0, 0] := by decide
  exact ⟨h, hxy, parse_prefix_iff nanosecondLibrary _ true samplePacket h _ _ hxy⟩

/-- Of the confirmation of 0x0102 only the code arrives: a confirmation of 0 is notified. -/
theorem cut_confirm_notified :
    packetBuilder nanosecondLibrary [[.confirm 0x0102#16]] = [5] ++ [2, 1] ∧
      wholly nanosecondLibrary [.confirm 0x0102#16] 1 = [] ∧
      (parse nanosecondLibrary (fun _ _ entries is => (entries, is)) true [5]).notified =
        [.confirm 0#16] := by
  decide

end SafeStreamApi
end AetherClient
