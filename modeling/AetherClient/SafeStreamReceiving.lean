import AetherClient.SafeStreamTypes

set_option autoImplicit false

/-!
# The receiving action

A translation of `SafeStreamReceivingAction`. The constants it copies from the
configuration are read from `config`. Every handler returns the new state; the events
an `Update` emits are the fields of `ReceivingOutput`, in the order of emission.
-/
namespace AetherClient

structure ReceivingChunk where
  offset : SafeStreamRingIndex
  data : DataBuffer
deriving DecidableEq, Repr

structure ExpectedChunk where
  offset : SafeStreamRingIndex
  repeatCount : ℕ
deriving DecidableEq, Repr

structure SafeStreamReceiving where
  lastSendConfirmTime : TimePoint := 0
  oldestRepeatTime : TimePoint := 0
  lastConfirmedOffset : SafeStreamRingIndex := .ofVal 0
  receivedDataChunks : List ReceivingChunk := []
  expectedChunks : List ExpectedChunk := []
  repeatQueue : List SafeStreamRingIndex := []
  confirmationQueue : List SafeStreamRingIndex := []
  repeatCountExceeded : Bool := false
deriving DecidableEq, Repr

/-- What one `Update` reports: `receive_event`, `send_data_event`, the action's error
event and the returned time. -/
structure ReceivingOutput where
  received : Option DataBuffer
  response : Option Packet
  failed : Bool
  nextTime : TimePoint
deriving DecidableEq, Repr

namespace SafeStreamReceiving

section Chunks
variable (windowSize : ℕ)

def notBefore (offset : SafeStreamRingIndex) (ch : ReceivingChunk) : Bool :=
  decide (offset.distance ch.offset ≤ windowSize)

/-- The chunk that is inserted in front of `it`. A cut past the end of the data is
undefined behaviour. -/
def trimTo (chunk it : ReceivingChunk) : Option ReceivingChunk :=
  let overlapSize := it.offset.distance (chunk.offset + toUint16 chunk.data.length)
  if 0 < overlapSize ∧ overlapSize ≤ windowSize then
    let size := chunk.offset.distance it.offset
    if size ≤ chunk.data.length then some ⟨chunk.offset, chunk.data.take size⟩ else none
  else some chunk

def addDataChunk (r : SafeStreamReceiving) (chunk : ReceivingChunk) :
    Option SafeStreamReceiving :=
  let skipped := r.receivedDataChunks.takeWhile fun ch => !notBefore windowSize chunk.offset ch
  match r.receivedDataChunks.dropWhile fun ch => !notBefore windowSize chunk.offset ch with
  | [] => some { r with receivedDataChunks := r.receivedDataChunks ++ [chunk] }
  | it :: rest =>
    if chunk.offset = it.offset then some r
    else (trimTo windowSize chunk it).map fun inserted =>
      { r with
        receivedDataChunks := skipped ++ inserted :: it :: rest
        expectedChunks := r.expectedChunks.eraseP fun ex => ex.offset == chunk.offset }

end Chunks

def addToConfirmationQueue (r : SafeStreamReceiving) (offset : SafeStreamRingIndex) :
    SafeStreamReceiving :=
  { r with confirmationQueue := r.confirmationQueue ++ [offset] }

def addToRepeatQueue (r : SafeStreamReceiving) (offset : SafeStreamRingIndex) :
    SafeStreamReceiving :=
  { r with repeatQueue := r.repeatQueue ++ [offset] }

section Handlers
variable (config : SafeStreamConfig)

def receiveSend (r : SafeStreamReceiving) (offset : SafeStreamRingIndex) (data : DataBuffer) :
    Option SafeStreamReceiving :=
  if config.windowSize ≤ r.lastConfirmedOffset.distance offset then some r
  else addDataChunk config.windowSize r ⟨offset, data⟩

/-- A repeat that fails the window test is answered with a confirm of its last byte. -/
def receiveRepeat (r : SafeStreamReceiving) (offset : SafeStreamRingIndex) (_repeat : ℕ)
    (data : DataBuffer) : Option SafeStreamReceiving :=
  if config.windowSize ≤ r.lastConfirmedOffset.distance offset then
    some (r.addToConfirmationQueue (offset + sizeMinusOne data.length))
  else addDataChunk config.windowSize r ⟨offset, data⟩

/-- The loop of `CheckCompletedChains`: the chain that starts at `next`, the chunks
after it and the offset the chain reaches. -/
def splitChain : SafeStreamRingIndex → List ReceivingChunk →
    List ReceivingChunk × List ReceivingChunk × SafeStreamRingIndex
  | next, [] => ([], [], next)
  | next, chunk :: chunks =>
    if next = chunk.offset then
      let tail := splitChain (chunk.offset + toUint16 chunk.data.length) chunks
      (chunk :: tail.1, tail.2)
    else ([], chunk :: chunks, next)

def joinChunks (chunks : List ReceivingChunk) : DataBuffer :=
  (chunks.map fun chunk => chunk.data).flatten

def emitNonEmpty (data : DataBuffer) : Option DataBuffer :=
  if data.isEmpty then none else some data

def checkCompletedChains (r : SafeStreamReceiving) (currentTime : TimePoint) :
    SafeStreamReceiving × Option DataBuffer × TimePoint :=
  if currentTime < r.lastSendConfirmTime + config.sendConfirmTimeout then
    (r, none, r.lastSendConfirmTime + config.sendConfirmTimeout)
  else
    let split := splitChain r.lastConfirmedOffset r.receivedDataChunks
    let received := emitNonEmpty (joinChunks split.1)
    let next := split.2.2
    if next = r.lastConfirmedOffset then
      ({ r with receivedDataChunks := split.2.1 }, received, currentTime)
    else
      ({ r with
          receivedDataChunks := split.2.1
          confirmationQueue := r.confirmationQueue ++ [next - 1]
          lastConfirmedOffset := next
          lastSendConfirmTime := currentTime }, received, currentTime)

def addExpectedChunk (r : SafeStreamReceiving) (offset : SafeStreamRingIndex) :
    SafeStreamReceiving :=
  match r.expectedChunks.findIdx? fun ex => ex.offset == offset with
  | some i =>
    let bump := fun ex : ExpectedChunk => { ex with repeatCount := toUint16 (ex.repeatCount + 1) }
    let counted := { r with expectedChunks := r.expectedChunks.modify i bump }
    if (counted.expectedChunks[i]?.map fun ex => ex.repeatCount).getD 0 > config.maxRepeatCount then
      { counted with repeatCountExceeded := true }
    else counted.addToRepeatQueue offset
  | none =>
    addToRepeatQueue { r with expectedChunks := r.expectedChunks ++ [⟨offset, 0⟩] } offset

def requestMissed : SafeStreamReceiving → SafeStreamRingIndex → List ReceivingChunk →
    SafeStreamReceiving
  | r, _, [] => r
  | r, next, chunk :: chunks =>
    let r := if chunk.offset = next then r else addExpectedChunk config r next
    requestMissed r (chunk.offset + toUint16 chunk.data.length) chunks

def checkMissedOffset (r : SafeStreamReceiving) (currentTime : TimePoint) :
    SafeStreamReceiving × TimePoint :=
  if currentTime < r.oldestRepeatTime + config.sendRepeatTimeout then
    (r, r.oldestRepeatTime + config.sendRepeatTimeout)
  else
    ({ requestMissed config r r.lastConfirmedOffset r.receivedDataChunks with
        oldestRepeatTime := currentTime }, currentTime)

def makeResponse (r : SafeStreamReceiving) : SafeStreamReceiving × Option Packet :=
  if r.confirmationQueue.isEmpty && r.repeatQueue.isEmpty then (r, none)
  else
    ({ r with confirmationQueue := [], repeatQueue := [] },
      some (r.confirmationQueue.map (fun o => .confirm o.value) ++
        r.repeatQueue.map (fun o => .requestRepeat o.value)))

def update (r : SafeStreamReceiving) (currentTime : TimePoint) :
    SafeStreamReceiving × ReceivingOutput :=
  let (r, received, confTime) := checkCompletedChains config r currentTime
  let (r, repTime) := checkMissedOffset config r currentTime
  let newTime := min confTime repTime
  if r.repeatCountExceeded then
    ({ r with repeatCountExceeded := false, repeatQueue := [] },
      ⟨received, none, true, newTime⟩)
  else
    let (r, response) := r.makeResponse
    (r, ⟨received, response, false, newTime⟩)

end Handlers
end SafeStreamReceiving
end AetherClient
