import AetherClient.SafeStreamTypes

set_option autoImplicit false

/-!
# The send buffer

A translation of `SendingDataAction` and `SendDataBuffer`. An action that left the
buffer stays alive until its own `Update` has reported the result, so the buffer keeps
the actions it still slices from (`sendActionViews`) apart from those that only wait to
report (`finished`). The objects' identity is the number of the write they belong to.
-/
namespace AetherClient

structure SendingData where
  offset : SafeStreamRingIndex
  data : DataBuffer
deriving DecidableEq, Repr

def SendingData.getOffsetRange (d : SendingData) (windowSize : ℕ) : OffsetRange :=
  ⟨d.offset, d.offset + sizeMinusOne d.data.length, windowSize⟩

inductive SendingState where
  | waiting
  | sending
  | done
  | stopped
  | failed
deriving DecidableEq, Repr

structure SendingDataAction where
  id : ℕ
  sendingData : SendingData
  state : SendingState := .waiting
  changed : Bool := true
deriving DecidableEq, Repr

namespace SendingDataAction

/-- `StateMachine::Set`: only a new value counts as a change. -/
def set (a : SendingDataAction) (state : SendingState) : SendingDataAction :=
  if a.state = state then a else { a with state := state, changed := true }

def sending (a : SendingDataAction) : SendingDataAction := a.set .sending
def sentConfirmed (a : SendingDataAction) : SendingDataAction := a.set .done
def stopped (a : SendingDataAction) : SendingDataAction := a.set .stopped
def failed (a : SendingDataAction) : SendingDataAction := a.set .failed

def update (a : SendingDataAction) : SendingDataAction × Option SendingState :=
  if a.changed then
    ({ a with changed := false },
      match a.state with
      | .waiting | .sending => none
      | .done => some .done
      | .stopped => some .stopped
      | .failed => some .failed)
  else (a, none)

def canStop (a : SendingDataAction) : Bool := a.state != .sending

end SendingDataAction

structure DataChunk where
  data : DataBuffer
  offset : SafeStreamRingIndex
deriving DecidableEq, Repr

structure SendDataBuffer where
  sendActionViews : List SendingDataAction := []
  finished : List SendingDataAction := []
  bufferSize : ℕ := 0
deriving DecidableEq, Repr

namespace SendDataBuffer

def size (b : SendDataBuffer) : ℕ := b.bufferSize

def addData (b : SendDataBuffer) (id : ℕ) (data : SendingData) : SendDataBuffer :=
  { b with
    sendActionViews := b.sendActionViews ++ [{ id := id, sendingData := data }]
    bufferSize := b.bufferSize + data.data.length }

/-- The loop of `GetSlice` over the views from the first one on that has the offset in
its range. An iterator past the end of a view's data is undefined behaviour. -/
def sliceFrom : List SendingDataAction → SafeStreamRingIndex → ℕ →
    Option (List SendingDataAction × DataBuffer)
  | [], _, _ => some ([], [])
  | a :: rest, currentOffset, remaining =>
    let skip := a.sendingData.offset.distance currentOffset
    if skip ≤ a.sendingData.data.length then
      let dataSize := min (a.sendingData.data.length - skip) remaining
      let piece := (a.sendingData.data.drop skip).take dataSize
      if remaining - dataSize = 0 then some (a.sending :: rest, piece)
      else (sliceFrom rest (currentOffset.clockwise (toUint16 dataSize))
          (remaining - dataSize)).map fun tail => (a.sending :: tail.1, piece ++ tail.2)
    else none

section Window
variable (windowSize : ℕ)

def getSlice (b : SendDataBuffer) (offset : SafeStreamRingIndex) (maxSize : ℕ) :
    Option (SendDataBuffer × DataChunk) :=
  let outside := fun a : SendingDataAction =>
    !(a.sendingData.getOffsetRange windowSize).inRange offset
  (sliceFrom (b.sendActionViews.dropWhile outside) offset maxSize).map fun slice =>
    ({ b with sendActionViews := b.sendActionViews.takeWhile outside ++ slice.1 },
      ⟨slice.2, offset⟩)

/-- `remove_if` with the bookkeeping that `Confirm`, `Reject` and `Stop` share. -/
def removeWhere (b : SendDataBuffer) (p : SendingDataAction → Bool)
    (mark : SendingDataAction → SendingDataAction) : SendDataBuffer :=
  let removed := b.sendActionViews.filter p
  { sendActionViews := b.sendActionViews.filter fun a => !p a
    finished := b.finished ++ removed.map mark
    bufferSize := b.bufferSize - (removed.map fun a => a.sendingData.data.length).sum }

def confirm (b : SendDataBuffer) (offset : SafeStreamRingIndex) : SendDataBuffer :=
  b.removeWhere (fun a => (a.sendingData.getOffsetRange windowSize).before offset)
    SendingDataAction.sentConfirmed

def upTo (offset : SafeStreamRingIndex) (a : SendingDataAction) : Bool :=
  (a.sendingData.getOffsetRange windowSize).before offset ||
    (a.sendingData.getOffsetRange windowSize).inRange offset

def reject (b : SendDataBuffer) (offset : SafeStreamRingIndex) : SendDataBuffer :=
  b.removeWhere (upTo windowSize offset) SendingDataAction.failed

def stop (b : SendDataBuffer) (offset : SafeStreamRingIndex) : SendDataBuffer :=
  b.removeWhere (upTo windowSize offset) SendingDataAction.stopped

end Window

def find (b : SendDataBuffer) (id : ℕ) : Option SendingDataAction :=
  (b.sendActionViews ++ b.finished).find? fun a => a.id == id

/-- The `Update` of the action of write `id`. An action that reports a result is
finished and erased. -/
def updateAction (b : SendDataBuffer) (id : ℕ) : SendDataBuffer × List (ℕ × SendingState) :=
  let acquire := fun a : SendingDataAction => if a.id = id then a.update.1 else a
  let report := fun a : SendingDataAction => if a.id = id then a.update.2 else none
  ({ b with
      sendActionViews := b.sendActionViews.map acquire
      finished := (b.finished.filter fun a => (report a).isNone).map acquire },
    b.finished.filterMap fun a => (report a).map fun state => (a.id, state))

end SendDataBuffer
end AetherClient
