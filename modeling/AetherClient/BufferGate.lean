import Mathlib.Tactic.Common

set_option autoImplicit false

/-!
# The buffer gate

`BufferGate` keeps the writes it cannot pass on in a list. It calls `Write` of the out gate, the
handlers of its update event and the handlers of a buffered write that finishes. What it calls may
write again, change the out gate or finish other writes, so the places at which calls are under way
are kept as a stack, and any event can come at any of them; `ret` is the return of the innermost
call.
-/
namespace AetherClient

structure StreamInfo where
  maxElementSize : ℕ := 0
  isLinked : Bool := false
  isWriteble : Bool := false
  isSoftWritable : Bool := false
  deriving DecidableEq, Repr

structure BufferedWriteAction (Data : Type) where
  id : ℕ
  data : Data
  isSent : Bool := false
  /-- `Send` has subscribed to the write of the out gate, and this write has not finished. -/
  subscribed : Bool := false

inductive BufferGateFrame where
  | callback
  /-- A call in `Write` or in `Stop` of a buffered write, which then use that write. -/
  | pinned (id : ℕ)
  | updated
  | finishing (id : ℕ)
  | removed
  | sending (id : ℕ)
  deriving DecidableEq

def BufferGateFrame.action : BufferGateFrame → Option ℕ
  | .finishing id => some id
  | .sending id => some id
  | _ => none

inductive BufferGateEvent (Data : Type) where
  | write (data : Data)
  | linkOut
  /-- The update event of the out gate, which then has this `stream_info`. -/
  | update (info : StreamInfo)
  | finish (id : ℕ)
  | ret

/-- What `Write` answers; a write is refused with this many in the list. -/
inductive WriteAnswer (Data : Type) where
  | accepted (data : Data)
  | refused (data : Data) (buffered : ℕ)

structure BufferGate (Data : Type) where
  bufferMax : ℕ
  linkedOut : Bool := false
  streamInfo : StreamInfo := { isSoftWritable := true }
  lastOutStreamInfo : StreamInfo := {}
  writeInBuffer : List (BufferedWriteAction Data) := []
  frames : List BufferGateFrame := []
  fresh : ℕ := 0
  answers : List (WriteAnswer Data) := []
  handed : List Data := []

namespace BufferGate
variable {Data : Type}

def modify (w : BufferGate Data) (id : ℕ)
    (f : BufferedWriteAction Data → BufferedWriteAction Data) : BufferGate Data :=
  { w with writeInBuffer := w.writeInBuffer.map fun a => if a.id = id then f a else a }

def setSoftWriteable (w : BufferGate Data) (value : Bool) (frame : BufferGateFrame)
    (rest : BufferGate Data → Option (BufferGate Data)) : Option (BufferGate Data) :=
  if w.streamInfo.isSoftWritable ≠ value then
    some { w with
      streamInfo := { w.streamInfo with isSoftWritable := value }, frames := frame :: w.frames }
  else
    rest w

def send (w : BufferGate Data) (a : BufferedWriteAction Data) : BufferGate Data :=
  { w.modify a.id fun a => { a with isSent := true } with
    handed := w.handed ++ [a.data], frames := .sending a.id :: w.frames }

def drainFrom (w : BufferGate Data) : List (BufferedWriteAction Data) → BufferGate Data
  | [] => w
  | a :: rest =>
    if ¬w.lastOutStreamInfo.isWriteble then w
    else if a.isSent then w.drainFrom rest
    else w.send a

def drainBuffer (w : BufferGate Data) : Option (BufferGate Data) :=
  if w.linkedOut then some (w.drainFrom w.writeInBuffer) else none

def write (w : BufferGate Data) (data : Data) : Option (BufferGate Data) :=
  let addToBuffer := !w.lastOutStreamInfo.isWriteble || !w.lastOutStreamInfo.isLinked
  if addToBuffer || !w.writeInBuffer.isEmpty then
    if ¬w.streamInfo.isSoftWritable then
      some { w with answers := w.answers ++ [.refused data w.writeInBuffer.length] }
    else
      let w' := { w with
        answers := w.answers ++ [.accepted data], fresh := w.fresh + 1
        writeInBuffer := w.writeInBuffer ++ [{ id := w.fresh, data := data }] }
      if w'.writeInBuffer.length = w'.bufferMax then
        w'.setSoftWriteable false (.pinned w.fresh) some
      else some w'
  else if w.linkedOut then
    some { w with
      answers := w.answers ++ [.accepted data], handed := w.handed ++ [data]
      frames := .callback :: w.frames }
  else none

def linkOut (w : BufferGate Data) : BufferGate Data :=
  { w with linkedOut := true, frames := .callback :: w.frames }

def drainLinked (w : BufferGate Data) : Option (BufferGate Data) :=
  if w.streamInfo.isLinked then w.drainBuffer else some w

def updateGate (w : BufferGate Data) (info : StreamInfo) : Option (BufferGate Data) :=
  if w.lastOutStreamInfo ≠ info then
    some { w with
      streamInfo := { w.streamInfo with
        isLinked := info.isLinked, maxElementSize := info.maxElementSize
        isWriteble := info.isWriteble }
      lastOutStreamInfo := info, frames := .updated :: w.frames }
  else
    w.drainLinked

def removeAction (w : BufferGate Data) (id : ℕ) : Option (BufferGate Data) :=
  if w.writeInBuffer.any fun a => a.id = id then
    { w with writeInBuffer := w.writeInBuffer.filter fun a => a.id ≠ id }.setSoftWriteable
      true .removed drainBuffer
  else none

def resume (w : BufferGate Data) : BufferGateFrame → Option (BufferGate Data)
  | .callback => some w
  -- `return *action_it` or `Trigger`
  | .pinned id => if w.writeInBuffer.any fun a => a.id = id then some w else none
  | .updated => w.drainLinked
  | .finishing id => w.removeAction id
  | .removed => w.drainBuffer
  | .sending id =>
    -- the loop holds an iterator to the element, and goes on with the one that follows it now
    match w.writeInBuffer.dropWhile fun a => a.id ≠ id with
    | [] => none
    | _ :: rest => some ((w.modify id fun a => { a with subscribed := true }).drainFrom rest)

/-- An event that cannot come in this state changes nothing. -/
def step (w : BufferGate Data) : BufferGateEvent Data → Option (BufferGate Data)
  | .write data => w.write data
  | .linkOut => some w.linkOut
  | .update info => if w.linkedOut then w.updateGate info else some w
  | .finish id =>
    if w.writeInBuffer.any fun a => a.id = id ∧ a.subscribed then
      some { w.modify id fun a => { a with subscribed := false } with
        frames := .finishing id :: w.frames }
    else some w
  | .ret =>
    match w.frames with
    | [] => some w
    | frame :: frames => { w with frames := frames }.resume frame

def accepted (w : BufferGate Data) : List Data :=
  w.answers.filterMap fun
    | .accepted data => some data
    | .refused _ _ => none

def waiting (w : BufferGate Data) : List Data :=
  (w.writeInBuffer.filter fun a => !a.isSent).map BufferedWriteAction.data

end BufferGate
end AetherClient
