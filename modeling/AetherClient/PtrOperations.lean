import AetherClient.PtrAcyclic
import AetherClient.Runs
import Mathlib.Logic.Function.Basic

set_option autoImplicit false

/-!
# Operations on Ptrs

A `Ptr` contains a `SharedPointer`, and each of them counts. The manager of an object has a
counter of the `Ptr`s that hold the object and one of the `SharedPointer`s that know the manager,
both of 16 bits; the object goes with the first and the manager with the second. Each operation
updates the two in an order of its own, and `Ptr::Reset` leaves the `SharedPointer` in place.

An address names an object and its manager, also after they are gone. A cast may move the pointer
of a `Ptr` away from the start of the object, where the deleter expects it.
-/
namespace AetherClient

def PtrSlot.setAt (p : Address) (target : Option Address) (s : PtrSlot) : PtrSlot :=
  if s.address = p then { s with target := target } else s

def Heap.setTarget (h : Heap) (p : Address) (target : Option Address) : Heap :=
  { h with
    objects := h.objects.map fun o => { o with members := o.members.map (PtrSlot.setAt p target) }
    freePtrs := h.freePtrs.map (PtrSlot.setAt p target) }

/-- What a `Ptr` contains. `released` says that `Reset` was called on it, so that it is to hold
nothing; the code does not know this. -/
structure PtrValue where
  target : Option Address := none
  shift : ℤ := 0
  released : Bool := false
deriving DecidableEq, Repr

def PtrValue.cast (v : PtrValue) (distance : ℤ) : PtrValue := { v with shift := v.shift + distance }

structure PtrState where
  heap : Heap := ⟨[], [], []⟩
  manageCounter : Address → UInt16 := fun _ => 0
  freedManagers : List Address := []
  shift : Address → ℤ := fun _ => 0
  /-- The `Ptr`s that were `Reset` and not assigned to since. Not part of the code's state. -/
  released : List Address := []
  /-- A deleted manager was used, or an object was deleted through a wrong address. -/
  broken : Bool := false

inductive PtrEvent where
  | create (p : Address) (typeIndex : ℕ)
  | construct (p : Address) (typeIndex : ℕ) (o : HeapObject)
  | copy (p : Address) (typeIndex : ℕ) (q : Address)
  /-- `Cast`, where the pointer to the other type is `distance` away. -/
  | cast (p : Address) (typeIndex : ℕ) (distance : ℤ) (q : Address)
  | move (p : Address) (typeIndex : ℕ) (q : Address)
  | moveCast (p : Address) (typeIndex : ℕ) (distance : ℤ) (q : Address)
  | assignNew (p : Address) (o : HeapObject)
  | assign (p q : Address)
  | assignCast (p : Address) (distance : ℤ) (q : Address)
  | assignMove (p q : Address)
  | assignMoveCast (p : Address) (distance : ℤ) (q : Address)
  | reset (p : Address)
  | destroy (p : Address)
deriving DecidableEq, Repr

namespace PtrState

def touch (w : PtrState) (a : Address) : PtrState :=
  { w with broken := w.broken || decide (a ∈ w.freedManagers) }

def incrementManage (w : PtrState) (a : Address) : PtrState :=
  { w.touch a with manageCounter := Function.update w.manageCounter a (w.manageCounter a + 1) }

def decrementManage (w : PtrState) (a : Address) : PtrState :=
  { w.touch a with manageCounter := Function.update w.manageCounter a (w.manageCounter a - 1) }

def incrementRef (w : PtrState) (a : Address) : PtrState :=
  { w.touch a with heap := w.heap.modifyObject a fun o => { o with refCounter := o.refCounter + 1 } }

def decrementRef (w : PtrState) (a : Address) : PtrState :=
  { w.touch a with heap := w.heap.decrement a 1 }

def resetShared (w : PtrState) (a : Address) : PtrState :=
  let w := w.decrementManage a
  if w.manageCounter a = 0 then { w with freedManagers := a :: w.freedManagers } else w

def giveUp (w : PtrState) (ptrTypeIndex : ℕ) (a : Address) : PtrState :=
  { w with heap := w.heap.giveUp ptrTypeIndex a }

def dropMembers (w : PtrState) (a : Address) : PtrState :=
  { w with heap := w.heap.modifyObject a fun o => { o with members := [] } }

def logDeleted (w : PtrState) (a : Address) : PtrState :=
  { w with heap := { w.heap with deleted := w.heap.deleted ++ [a] } }

/-- The deleter takes the pointer of the `Ptr` for the start of the object. -/
def checkShift (w : PtrState) (p : Address) : PtrState :=
  { w with broken := w.broken || decide (w.shift p ≠ 0) }

def destroyMember (reset : PtrState → PtrSlot → PtrState) (w : PtrState) (s : PtrSlot) :
    PtrState :=
  s.target.elim (reset w s) (reset w s).resetShared

/-- `Delete`: the members of the object are destroyed in reverse order of declaration. The walk
does not come to the object any more, since its counter is zero. -/
def deleteObject (reset : PtrState → PtrSlot → PtrState) (w : PtrState) (a : Address) : PtrState :=
  let members := ((w.heap.find a).map HeapObject.members).getD []
  (members.reverse.foldl (destroyMember reset) (w.dropMembers a)).logDeleted a

def reset : ℕ → PtrState → PtrSlot → PtrState
  | 0, w, _ => w
  | fuel + 1, w, s =>
    match s.target with
    | none => w
    | some a =>
      let w := w.touch a
      if w.heap.refCounter a = 0 then w
      else
        let w := w.giveUp s.typeIndex a
        if w.heap.refCounter a = 0 then deleteObject (reset fuel) (w.checkShift s.address) a else w

def slot (w : PtrState) (p : Address) : Option PtrSlot :=
  w.heap.slots.find? fun s => s.address = p

def value (w : PtrState) (s : PtrSlot) : PtrValue :=
  ⟨s.target, w.shift s.address, decide (s.address ∈ w.released)⟩

def put (w : PtrState) (p : Address) (v : PtrValue) : PtrState :=
  { w with
    heap := w.heap.setTarget p v.target
    shift := Function.update w.shift p v.shift
    released := (if v.released then [p] else []) ++ w.released.filter (· ≠ p) }

def addPtr (w : PtrState) (p : Address) (typeIndex : ℕ) : PtrState :=
  { w with heap := { w.heap with
    freePtrs := w.heap.freePtrs ++ [⟨p, typeIndex, none, true⟩] } }

def newPtr (w : PtrState) (p : Address) (typeIndex : ℕ) (v : PtrValue) : PtrState :=
  (w.addPtr p typeIndex).put p v

def removePtr (w : PtrState) (p : Address) : PtrState :=
  { w with heap := { w.heap with freePtrs := w.heap.freePtrs.filter fun s => s.address ≠ p } }

def allocate (w : PtrState) (o : HeapObject) : PtrState :=
  let members := o.members.map PtrSlot.address
  { w with
    heap := { w.heap with objects := w.heap.objects ++
      [{ o with refCounter := 1, members := o.members.map fun s => { s with target := none } }] }
    manageCounter := Function.update w.manageCounter o.address 1
    shift := fun p => if p ∈ members then 0 else w.shift p
    released := w.released.filter (· ∉ members) }

/-- The `SharedPointer` of a `Ptr` is copied, and the `Ptr` around the copy counts. -/
def acquire (w : PtrState) (target : Option Address) : PtrState :=
  let w := target.elim w w.incrementManage
  target.elim w w.incrementRef

/-- `MoveCast` makes a copy and gives up the reference of the original without a look at the
counters. -/
def passOn (w : PtrState) (target : Option Address) : PtrState :=
  let w := w.acquire target
  let w := target.elim w w.decrementRef
  target.elim w w.decrementManage

def release (w : PtrState) (p : Address) : PtrState := { w with released := p :: w.released }

def resetPtr (w : PtrState) (s : PtrSlot) : PtrState :=
  reset w.heap.objects.length (w.release s.address) s

/-- What an assignment does to its target, and the destructor: `Ptr::Reset`, and then
`SharedPointer::Reset`. The pointers in it are overwritten or gone after that. -/
def letGo (w : PtrState) (s : PtrSlot) : PtrState :=
  let w := (w.resetPtr s).put s.address {}
  s.target.elim w w.resetShared

def Fresh (w : PtrState) (ps : List Address) : Prop :=
  ps.Nodup ∧ ∀ p ∈ ps, p ∉ w.heap.slots.map PtrSlot.address

instance (w : PtrState) (ps : List Address) : Decidable (w.Fresh ps) :=
  inferInstanceAs (Decidable (_ ∧ _))

def defined (w : PtrState) : Option PtrState := if w.broken then none else some w

def fromPtr (w : PtrState) (p q : Address) (f : PtrSlot → PtrState) : Option PtrState :=
  match w.slot q with
  | none => some w
  | some s => if w.Fresh [p] then (f s).defined else some w

def onPtrs (w : PtrState) (p q : Address) (f : PtrSlot → PtrSlot → Option PtrState) :
    Option PtrState :=
  match w.slot p, w.slot q with
  | some d, some s => if p = q then some w else f d s
  | _, _ => some w

/-- The rest of an assignment, which needs `p` to be still there. -/
def onPtr (w : PtrState) (p : Address) (f : PtrSlot → PtrState) : Option PtrState :=
  (w.slot p).bind fun s => (f s).defined

/-- Operations on `Ptr`s that do not exist, or at addresses in use, are none. -/
def step (w : PtrState) : PtrEvent → Option PtrState
  | .create p typeIndex => if w.Fresh [p] then some (w.newPtr p typeIndex {}) else some w
  | .construct p typeIndex o =>
    if o.address ∉ w.heap.addresses ∧ w.Fresh (p :: o.members.map PtrSlot.address) then
      some ((w.allocate o).newPtr p typeIndex ⟨some o.address, 0, false⟩)
    else some w
  | .copy p typeIndex q => w.fromPtr p q fun s =>
      (w.acquire s.target).newPtr p typeIndex (w.value s)
  | .cast p typeIndex distance q => w.fromPtr p q fun s =>
      (w.acquire s.target).newPtr p typeIndex ((w.value s).cast distance)
  | .move p typeIndex q => w.fromPtr p q fun s => (w.put q {}).newPtr p typeIndex (w.value s)
  | .moveCast p typeIndex distance q => w.fromPtr p q fun s =>
      ((w.passOn s.target).put q {}).newPtr p typeIndex ((w.value s).cast distance)
  | .assignNew p o =>
    match w.slot p with
    | none => some w
    | some d =>
      if o.address ∉ w.heap.addresses ∧ w.Fresh (o.members.map PtrSlot.address) then
        let w := (w.allocate o).letGo d
        w.onPtr p fun _ => w.put p ⟨some o.address, 0, false⟩
      else some w
  | .assign p q => w.onPtrs p q fun d _ =>
      let w := w.letGo d
      (w.slot q).bind fun s => w.onPtr p fun _ => (w.acquire s.target).put p (w.value s)
  | .assignCast p distance q => w.onPtrs p q fun d s =>
      let v := (w.value s).cast distance
      let w := (w.acquire s.target).letGo d
      w.onPtr p fun _ => w.put p v
  | .assignMove p q => w.onPtrs p q fun d _ =>
      let w := w.letGo d
      (w.slot q).bind fun s => w.onPtr p fun _ => (w.put q {}).put p (w.value s)
  | .assignMoveCast p distance q => w.onPtrs p q fun d s =>
      let v := (w.value s).cast distance
      let w := ((w.passOn s.target).put q {}).letGo d
      w.onPtr p fun _ => w.put p v
  | .reset p =>
    match w.slot p with
    | none => some w
    | some s => (w.resetPtr s).defined
  | .destroy p =>
    match w.heap.freePtrs.find? fun s => s.address = p with
    | none => some w
    | some s => ((w.letGo s).removePtr p).defined

end PtrState
end AetherClient
