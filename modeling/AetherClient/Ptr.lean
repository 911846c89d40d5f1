import Mathlib.Data.List.Basic
import Mathlib.Data.Nat.Notation

set_option autoImplicit false

/-!
# Ptr and its cycle collector

A `Ptr` shares a pointer manager with the other ones to the same object. When a `Ptr` is
destroyed or overwritten its `Reset` gives up the reference; if there are others, it
first walks the objects below, counts the references it meets and deletes the object if
the counts say that nothing else holds it. Deleting an object destroys its members, whose
`Reset` goes on in the same way.

The model keeps one record for an object and its manager. The manager outlives the object,
so the record of a deleted object stays, with counter zero and no members. Members are visited
by the class that the manager was made for, but the object of the dropped `Ptr` by the class
that this `Ptr` is declared for, which may be a base class. All classes of an object have its
address.
-/
namespace AetherClient

abbrev Address := ℕ

/-- A `Ptr`, as a variable or as a member of an object. `reported` says that the `Visit`
method of the object passes this member on. -/
structure PtrSlot where
  address : Address
  typeIndex : ℕ
  target : Option Address
  reported : Bool := true
deriving DecidableEq, Repr

def PtrSlot.clearAt (p : Address) (s : PtrSlot) : PtrSlot :=
  if s.address = p then { s with target := none } else s

/-- A base class: its type index, that of a `Ptr` to it, and how many members it declares. -/
structure BaseClass where
  typeIndex : ℕ
  ptrTypeIndex : ℕ
  memberCount : ℕ
deriving DecidableEq, Repr

/-- An object with its pointer manager; `members` are its `Ptr`s in declaration order, those of
the base classes, of which the farthest comes first, before its own. -/
structure HeapObject where
  address : Address
  typeIndex : ℕ
  refCounter : UInt16
  members : List PtrSlot := []
  hasVisit : Bool := true
  bases : List BaseClass := []
deriving DecidableEq, Repr

structure ObjectPart where
  typeIndex : ℕ
  ptrTypeIndex : Option ℕ
  members : List PtrSlot
deriving DecidableEq, Repr

structure Heap where
  objects : List HeapObject
  freePtrs : List PtrSlot
  deleted : List Address := []
deriving DecidableEq, Repr

/-- The set is ordered by type index plus address: entries with one sum are one entry. -/
structure CycleDetector where
  visitedObjects : List ℕ := []
deriving DecidableEq, Repr

namespace CycleDetector

def entry (typeIndex : ℕ) (ptr : Address) : ℕ := typeIndex + ptr

def add (cd : CycleDetector) (typeIndex : ℕ) (ptr : Address) : CycleDetector :=
  ⟨entry typeIndex ptr :: cd.visitedObjects⟩

def isVisited (cd : CycleDetector) (typeIndex : ℕ) (ptr : Address) : Bool :=
  cd.visitedObjects.contains (entry typeIndex ptr)

end CycleDetector

/-- `children` holds the pointers of the child nodes, which are the keys of the map. -/
structure RefTree where
  pointer : Address
  refCount : ℕ
  reachableRefCount : ℕ := 0
  children : List Address := []
deriving DecidableEq, Repr

namespace RefTree

def countReference (t : RefTree) : RefTree :=
  { t with reachableRefCount := t.reachableRefCount + 1 }

def insertChild (child : Address) (t : RefTree) : RefTree :=
  { t with children := t.children.insert child }

end RefTree

abbrev ObjMap := List RefTree

namespace ObjMap

def tryEmplace (m : ObjMap) (pointer : Address) (refCount : ℕ) : ObjMap :=
  if m.any fun t => t.pointer = pointer then m
  else m ++ [{ pointer := pointer, refCount := refCount }]

def modify (m : ObjMap) (pointer : Address) (f : RefTree → RefTree) : ObjMap :=
  m.map fun t => if t.pointer = pointer then f t else t

def lookup (m : ObjMap) (pointer : Address) : Option RefTree :=
  m.find? fun t => t.pointer = pointer

def childrenOf (m : ObjMap) (pointer : Address) : List Address :=
  ((m.lookup pointer).map RefTree.children).getD []

/-- What the visitor records for a `Ptr` to `pointer` that it meets in the object at
`holder`. -/
def reference (m : ObjMap) (holder pointer : Address) (refCount : ℕ) : ObjMap :=
  ((m.tryEmplace pointer refCount).modify pointer RefTree.countReference).modify holder
    (RefTree.insertChild pointer)

/-- One turn of the loop over the children; the flag is the early return. -/
def scanChild (p : Address) (isReachable : List Address → Address → Bool × List Address)
    (acc : Bool × List Address) (rt : Address) : Bool × List Address :=
  if acc.1 then acc
  else if rt = p then (true, acc.2)
  else if rt ∈ acc.2 then acc
  else isReachable acc.2 rt

def isReachable (m : ObjMap) (p : Address) : ℕ → List Address → Address → Bool × List Address
  | 0, visited, _ => (false, visited)
  | fuel + 1, visited, pointer =>
    (m.childrenOf pointer).foldl (scanChild p (isReachable m p fuel)) (false, pointer :: visited)

end ObjMap

def ObjectPart.visited (part : ObjectPart) : List PtrSlot := part.members.filter PtrSlot.reported

namespace HeapObject

def splitMembers (typeIndex : ℕ) : List BaseClass → List PtrSlot → List ObjectPart
  | [], members => [⟨typeIndex, none, members⟩]
  | b :: rest, members => splitMembers typeIndex rest (members.drop b.memberCount) ++
      [⟨b.typeIndex, some b.ptrTypeIndex, members.take b.memberCount⟩]

def parts (o : HeapObject) : List ObjectPart := splitMembers o.typeIndex o.bases o.members

/-- The class that a `Ptr` of the type is declared for, and its bases. -/
def partsOf (o : HeapObject) (ptrTypeIndex : ℕ) : List ObjectPart :=
  if o.bases.any fun b => b.ptrTypeIndex = ptrTypeIndex then
    o.parts.dropWhile fun part => part.ptrTypeIndex ≠ some ptrTypeIndex
  else o.parts

end HeapObject

structure VisitState where
  cycleDetector : CycleDetector
  objMap : ObjMap
deriving DecidableEq, Repr

namespace Heap

def find (h : Heap) (a : Address) : Option HeapObject :=
  h.objects.find? fun o => o.address = a

def refCounter (h : Heap) (a : Address) : UInt16 :=
  ((h.find a).map HeapObject.refCounter).getD 0

def get (h : Heap) (s : PtrSlot) : Option Address :=
  s.target.filter fun a => h.refCounter a ≠ 0

def modifyObject (h : Heap) (a : Address) (f : HeapObject → HeapObject) : Heap :=
  { h with objects := h.objects.map fun o => if o.address = a then f o else o }

def decrement (h : Heap) (a : Address) (count : UInt16) : Heap :=
  h.modifyObject a fun o => { o with refCounter := o.refCounter - count }

section Visit
variable (h : Heap)

/-- `RefCounterVisitor::operator()` for a `Ptr` member of the object at `holder`, and the
visit of that `Ptr`; `visitObject` is the visit of the object behind it. -/
def visitPtr (visitObject : VisitState → HeapObject → VisitState) (holder : Address)
    (st : VisitState) (s : PtrSlot) : VisitState :=
  match h.get s with
  | none => st
  | some a =>
    let st := { st with objMap := st.objMap.reference holder a (h.refCounter a).toNat }
    if st.cycleDetector.isVisited s.typeIndex s.address then st
    else
      let st := { st with cycleDetector := st.cycleDetector.add s.typeIndex s.address }
      match h.find a with
      | none => st
      | some o => visitObject st o

/-- The visit of the object at `a` as one of its classes by the policy. The `Visit` methods visit
the base class, the head of the rest, before the members of their own. -/
def visitParts (visitPtr : VisitState → PtrSlot → VisitState) (a : Address) :
    List ObjectPart → VisitState → VisitState
  | [], st => st
  | part :: bases, st =>
    if st.cycleDetector.isVisited part.typeIndex a then st
    else part.visited.foldl visitPtr (visitParts visitPtr a bases
      { st with cycleDetector := st.cycleDetector.add part.typeIndex a })

def visitObject : ℕ → VisitState → HeapObject → VisitState
  | 0, st, _ => st
  | fuel + 1, st, o =>
    if !o.hasVisit then st
    else visitParts (visitPtr h (visitObject fuel) o.address) o.address o.parts st

def countReferences (ptrTypeIndex : ℕ) (a : Address) (o : HeapObject) : ObjMap :=
  (visitParts (visitPtr h (visitObject h h.objects.length) a) a (o.partsOf ptrTypeIndex)
    ⟨{}, [{ pointer := a, refCount := o.refCounter.toNat, reachableRefCount := 1 }]⟩).objMap

def safeToDelete (m : ObjMap) (a : Address) : Bool :=
  m.all fun ref =>
    if ref.pointer = a then ref.refCount = ref.reachableRefCount
    else !(decide (ref.refCount > ref.reachableRefCount) &&
      (m.isReachable a m.length [] ref.pointer).1)

def decrementGraph (ptrTypeIndex : ℕ) (a : Address) : Heap :=
  match h.find a with
  | none => h
  | some o =>
    if o.hasVisit && safeToDelete (h.countReferences ptrTypeIndex a o) a then
      h.decrement a (h.refCounter a)
    else h.decrement a 1

/-- `Delete`: the members are destroyed in reverse order of declaration, then the object is
gone. -/
def deleteObject (reset : Heap → PtrSlot → Heap) (a : Address) : Heap :=
  let members := ((h.find a).map HeapObject.members).getD []
  let h := members.reverse.foldl reset h
  let h := h.modifyObject a fun o => { o with members := [] }
  { h with deleted := h.deleted ++ [a] }

def giveUp (ptrTypeIndex : ℕ) (a : Address) : Heap :=
  if h.refCounter a = 1 then h.decrement a 1 else h.decrementGraph ptrTypeIndex a

end Visit

/-- `Ptr::Reset`. It leaves the `Ptr` itself as it is. -/
def reset : ℕ → Heap → PtrSlot → Heap
  | 0, h, _ => h
  | fuel + 1, h, s =>
    match s.target with
    | none => h
    | some a =>
      if h.refCounter a = 0 then h
      else
        let h := h.giveUp s.typeIndex a
        if h.refCounter a = 0 then h.deleteObject (reset fuel) a else h

def clear (h : Heap) (p : Address) : Heap :=
  { h with
    objects := h.objects.map fun o => { o with members := o.members.map (PtrSlot.clearAt p) }
    freePtrs := h.freePtrs.map (PtrSlot.clearAt p) }

/-- The `Ptr` is destroyed, or overwritten: the assignments run `Reset` before anything
else and delete nothing after it. -/
def drop (h : Heap) (p : PtrSlot) : Heap := (reset h.objects.length h p).clear p.address

def deletedBy (h : Heap) (p : PtrSlot) : List Address :=
  (drop { h with deleted := [] } p).deleted

end Heap

def cycleOfTwo : Heap where
  objects := [⟨16, 1, 2, [⟨16, 3, some 32, true⟩], true, []⟩,
    ⟨32, 2, 2, [⟨32, 4, some 16, true⟩], true, []⟩]
  freePtrs := [⟨100, 4, some 16, true⟩, ⟨108, 3, some 32, true⟩]

example : cycleOfTwo.deletedBy ⟨108, 3, some 32, true⟩ = [] := by decide

example : (cycleOfTwo.drop ⟨108, 3, some 32, true⟩).deletedBy ⟨100, 4, some 16, true⟩ =
    [32, 16] := by decide

end AetherClient
