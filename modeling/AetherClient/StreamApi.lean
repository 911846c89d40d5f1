import AetherClient.SafeStreamApi

set_option autoImplicit false

namespace AetherClient
open Ty ApiParser

structure StreamMessage where
  streamId : BitVec 8
  data : List (BitVec 8)
deriving DecidableEq, Repr

namespace StreamMessage

def fields : Ty := .field (.int .one) (.lastField (.vector (.int .one)))

def code : UInt8 := 2

def pack (lib : StdLibrary) (m : StreamMessage) : List UInt8 :=
  code :: encode lib packedLength fields (m.streamId, m.data)

variable (lib : StdLibrary) (overflow : Overflow)

def loadFactory (messageId : UInt8) (is : VectorReader) : Option (StreamMessage × VectorReader) :=
  if messageId = code then load lib overflow fields (fun value => ⟨value.1, value.2⟩) is else none

def parse (assertions : Bool) (data : List UInt8) : Parsed StreamMessage :=
  ApiParser.parse (loadFactory lib overflow) assertions data

theorem parse_pack (assertions : Bool) (m : StreamMessage) (h : m.data.length < packedLength.limit) :
    parse lib overflow assertions (m.pack lib) =
      ⟨[m], ⟨[], (m.pack lib).length, .yes⟩, false⟩ := by
  have hfits : Fits lib packedLength.countedLimits fields (m.streamId, m.data) :=
    ⟨trivial, h, fun _ _ => trivial⟩
  have hload := load_reads (t := fields) overflow (fun value => (⟨value.1, value.2⟩ : StreamMessage))
    hfits [] 1 .yes
  rw [List.append_nil] at hload
  rw [parse, ApiParser.parse, pack, List.length_cons, parseLoop, if_neg (by simp)]
  simp only [readMessageId_cons, Nat.zero_add, loadFactory, if_true, hload, parseLoop_nil,
    Parsed.notify, Nat.add_comm 1]

end StreamMessage
end AetherClient
