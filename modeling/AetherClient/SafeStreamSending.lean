import AetherClient.SendDataBuffer

set_option autoImplicit false

/-!
# The sending action

A translation of `SendingChunkList` and `SafeStreamSendingAction`. `Register` always
returns a reference to the last chunk, so here it returns the chunks in front of it and
the chunk itself. The code reads the bounds of a chunk that a list operation has just
erased; they are read here with the value they had.
-/
namespace AetherClient

structure SendingChunk where
  beginOffset : SafeStreamRingIndex
  endOffset : SafeStreamRingIndex
  repeatCount : ℕ
  sendTime : TimePoint
deriving DecidableEq, Repr

namespace SendingChunkList

def cutOverlap (range : OffsetRange) (chunk : SendingChunk) : Option SendingChunk :=
  if range.inRange chunk.beginOffset then
    if range.inRange chunk.endOffset then none
    else some { chunk with beginOffset := range.end_ + 1 }
  else if range.inRange chunk.endOffset then some { chunk with endOffset := range.begin - 1 }
  else some chunk

def overlaps (range : OffsetRange) (chunk : SendingChunk) : Bool :=
  range.inRange chunk.beginOffset || range.inRange chunk.endOffset

section Window
variable (windowSize : ℕ)

/-- The repeat count of a merged chunk comes from the last chunk it overlaps. -/
def register (chunks : List SendingChunk) (begin end_ : SafeStreamRingIndex)
    (sendTime : TimePoint) : List SendingChunk × SendingChunk :=
  let range : OffsetRange := ⟨begin, end_, windowSize⟩
  let starts := fun sch : SendingChunk => range.inRange sch.beginOffset
  match chunks.find? starts with
  | none => (chunks, ⟨begin, end_, 0, sendTime⟩)
  | some sch =>
    if begin = sch.beginOffset ∧ end_ = sch.endOffset then
      (chunks.eraseP starts, { sch with sendTime := sendTime })
    else
      let count := chunks.foldl (fun n chunk =>
        if overlaps range chunk then min sch.repeatCount chunk.repeatCount else n) sch.repeatCount
      (chunks.filterMap (cutOverlap range), ⟨begin, end_, count, sendTime⟩)

def removeUpTo (chunks : List SendingChunk) (offset : SafeStreamRingIndex) : List SendingChunk :=
  chunks.filterMap fun sch =>
    let range : OffsetRange := ⟨sch.beginOffset, sch.endOffset, windowSize⟩
    if range.before offset then none
    else if range.inRange offset then
      if offset = sch.endOffset then none else some { sch with beginOffset := offset }
    else some sch

end Window
end SendingChunkList

structure SafeStreamSending where
  maxDataSize : ℕ := 0
  sendDataBuffer : SendDataBuffer := {}
  sendingChunks : List SendingChunk := []
  lastConfirmed : SafeStreamRingIndex := .ofVal 0
  nextToAdd : SafeStreamRingIndex := .ofVal 0
  lastSentOffset : SafeStreamRingIndex := .ofVal 0
deriving DecidableEq, Repr

namespace SafeStreamSending
open SendingChunkList

section Handlers
variable (config : SafeStreamConfig)

def sendData (s : SafeStreamSending) (id : ℕ) (data : DataBuffer) : Option SafeStreamSending :=
  if config.bufferCapacity < s.sendDataBuffer.size + data.length then none
  else
    let sendingData : SendingData := ⟨s.nextToAdd, data⟩
    some { s with
      nextToAdd := (sendingData.getOffsetRange config.windowSize).end_ + 1
      sendDataBuffer := s.sendDataBuffer.addData id sendingData }

def confirmDataChunks (s : SafeStreamSending) (offset : SafeStreamRingIndex) :
    SafeStreamSending :=
  { s with
    sendingChunks := removeUpTo config.windowSize s.sendingChunks offset
    sendDataBuffer := s.sendDataBuffer.confirm config.windowSize offset }

def confirm (s : SafeStreamSending) (offset : SafeStreamRingIndex) : SafeStreamSending :=
  if s.lastConfirmed.distance offset ≤ config.windowSize then
    { s.confirmDataChunks config offset with lastConfirmed := offset + 1 }
  else s

/-- An offset that is too old is logged and then used all the same. -/
def requestRepeatSend (s : SafeStreamSending) (offset : SafeStreamRingIndex) :
    SafeStreamSending :=
  { s with lastSentOffset := offset }

def rejectUpTo (s : SafeStreamSending) (offset : SafeStreamRingIndex) : SafeStreamSending :=
  { s with
    sendingChunks := removeUpTo config.windowSize s.sendingChunks offset
    sendDataBuffer := s.sendDataBuffer.reject config.windowSize offset }

def reportWriteStopped (s : SafeStreamSending) (offset : SafeStreamRingIndex) :
    SafeStreamSending :=
  s.rejectUpTo config offset

def reportWriteError (s : SafeStreamSending) (offset : SafeStreamRingIndex) :
    SafeStreamSending :=
  s.rejectUpTo config offset

def stopSending (s : SafeStreamSending) (offset : SafeStreamRingIndex) : SafeStreamSending :=
  { s with
    sendingChunks := removeUpTo config.windowSize s.sendingChunks offset
    sendDataBuffer := s.sendDataBuffer.stop config.windowSize offset }

def stopWrite (s : SafeStreamSending) (id : ℕ) : SafeStreamSending :=
  match s.sendDataBuffer.find id with
  | none => s
  | some a => if a.canStop then s.stopSending config a.sendingData.offset else s

def setMaxDataSize (s : SafeStreamSending) (maxDataSize : ℕ) : SafeStreamSending :=
  { s with maxDataSize := toUint16 maxDataSize }

def handleTimeouts (s : SafeStreamSending) (currentTime : TimePoint) :
    SafeStreamSending × TimePoint :=
  match s.sendingChunks with
  | [] => (s, currentTime)
  | sch :: _ =>
    if sch.sendTime + config.waitConfirmTimeout < currentTime then
      ({ s with lastSentOffset := sch.beginOffset }, currentTime)
    else (s, sch.sendTime + config.waitConfirmTimeout)

/-- The part of `SendData` after a non-empty slice was taken. -/
def sendChunk (s : SafeStreamSending) (chunk : DataChunk) (currentTime : TimePoint) :
    SafeStreamSending × Option Message :=
  let reg := register config.windowSize s.sendingChunks chunk.offset
    (chunk.offset + sizeMinusOne chunk.data.length) currentTime
  let counted := { reg.2 with repeatCount := toUint16 (reg.2.repeatCount + 1) }
  let sent := { s with
    lastSentOffset := s.lastSentOffset.clockwise (toUint16 chunk.data.length)
    sendingChunks := reg.1 ++ [counted] }
  if reg.2.repeatCount = 0 then (sent, some (.send chunk.offset.value chunk.data))
  else if config.maxRepeatCount < reg.2.repeatCount then
    ({ sent with sendingChunks := reg.1 ++ [reg.2] }.rejectUpTo config reg.2.endOffset, none)
  else (sent, some (.repeat_ reg.2.repeatCount chunk.offset.value chunk.data))

def sendSlice (s : SafeStreamSending) (currentTime : TimePoint) :
    Option (SafeStreamSending × Option Message) :=
  if config.windowSize < s.lastConfirmed.distance (s.lastSentOffset + s.maxDataSize) then
    some (s, none)
  else
    (s.sendDataBuffer.getSlice config.windowSize s.lastSentOffset s.maxDataSize).map fun slice =>
      let sliced := { s with sendDataBuffer := slice.1 }
      if slice.2.data.isEmpty then (sliced, none)
      else sliced.sendChunk config slice.2 currentTime

def update (s : SafeStreamSending) (currentTime : TimePoint) :
    Option (SafeStreamSending × Option Message × TimePoint) :=
  let timed := s.handleTimeouts config currentTime
  if timed.1.maxDataSize ≠ 0 then
    (timed.1.sendSlice config currentTime).map fun res => (res.1, res.2, timed.2)
  else some (timed.1, none, timed.2)

end Handlers
end SafeStreamSending
end AetherClient
