import AetherClient.DomainMembers
import AetherClient.Registry

set_option autoImplicit false

/-!
# Saving and loading objects

A domain writes one record for each class of an object's chain of base classes: `Visit` of a
class reports its members and its base class, which is saved on its own. Object pointers lead on
to other objects. Saving stops at the classes of an object that were visited before, loading at the
objects that the domain has already.
-/
namespace AetherClient.Domain
open FileSystem

/-- What `Visit` of a class reports: some members, the base class if there is one more level, and
other members. -/
structure Level where
  classId : ClassId
  version : Version
  before : List MemberTy
  after : List MemberTy
deriving DecidableEq, Repr

structure Member (A : Type) where
  ty : MemberTy
  value : ty.Value A

def Member.fresh (A : Type) (ty : MemberTy) : Member A := ⟨ty, ty.fresh A⟩

structure LevelContents (A : Type) where
  classId : ClassId
  version : Version
  before : List (Member A)
  after : List (Member A)

section Contents
variable {A : Type}

def LevelContents.level (l : LevelContents A) : Level :=
  ⟨l.classId, l.version, l.before.map Member.ty, l.after.map Member.ty⟩

def LevelContents.members (l : LevelContents A) : List (Member A) := l.before ++ l.after

def freshLevel (A : Type) (l : Level) : LevelContents A :=
  ⟨l.classId, l.version, l.before.map (Member.fresh A), l.after.map (Member.fresh A)⟩

def memberTargets (members : List (Member A)) : List A :=
  members.flatMap fun x => targets x.ty x.value

def writeMembers (lib : StdLibrary) (ident : A → ObjId × ObjFlags) (members : List (Member A)) :
    List UInt8 :=
  members.flatMap fun x => write lib ident x.ty x.value

def LevelContents.record (lib : StdLibrary) (ident : A → ObjId × ObjFlags) (l : LevelContents A) :
    Data :=
  (writeMembers lib ident l.before ++ writeMembers lib ident l.after).map UInt8.toBitVec

end Contents

/-- The factory of a class knows the class with its base classes, as far as `Visit` reports them. -/
abbrev Classes := Registry (List Level)

/-- A class without registered subclasses, with its base classes. -/
structure Declares (registry : Classes) (classId : ClassId) (levels : List Level) : Prop where
  factory : registry.findFactory classId = some levels
  last : registry.isLast classId
  first : levels.head?.map Level.classId = some classId
  nodup : (levels.map Level.classId).Nodup
  bases : ∀ l ∈ levels, registry.isExisting l.classId → l.classId ≠ classId →
    registry.Derives l.classId classId

structure SourceObject (A : Type) where
  id : ObjId
  flags : ObjFlags
  classId : ClassId
  contents : List (LevelContents A)

def SourceObject.members {A : Type} (o : SourceObject A) : List (Member A) :=
  o.contents.flatMap LevelContents.members

structure Graph (lib : StdLibrary) (registry : Classes) where
  size : ℕ
  object : Fin size → SourceObject (Fin size)
  id_valid : ∀ i, (object i).id ≠ 0
  id_injective : ∀ i j, (object i).id = (object j).id → i = j
  declared : ∀ i, Declares registry (object i).classId ((object i).contents.map LevelContents.level)
  proper : ∀ i, ∀ x ∈ (object i).members, ProperMember lib x.ty x.value

namespace Graph
variable {lib : StdLibrary} {registry : Classes} (G : Graph lib registry)

def ident (i : Fin G.size) : ObjId × ObjFlags := ((G.object i).id, (G.object i).flags)

structure SaveState where
  visited : List (ObjId × ClassId) := []
  store : ObjClassData := []

/-- `Save` of a class and then, inside of it, of its base class. What a visit writes does not
depend on the objects that are saved meanwhile. -/
def saveLevels (savePtr : Fin G.size → SaveState → Option SaveState) (id : ObjId) :
    List (LevelContents (Fin G.size)) → SaveState → Option SaveState
  | [], s => some s
  | l :: ls, s =>
    if (id, l.classId) ∈ s.visited then some s
    else do
      let s := { s with visited := (id, l.classId) :: s.visited }
      let s ← (memberTargets l.before).foldlM (fun s i => savePtr i s) s
      let s ← saveLevels savePtr id ls s
      let s ← (memberTargets l.after).foldlM (fun s i => savePtr i s) s
      return { s with store := store id l.classId l.version (l.record lib G.ident) s.store }

/-- `fuel` bounds the depth of objects inside objects. -/
def saveRootImpl : ℕ → Fin G.size → SaveState → Option SaveState
  | 0, _, _ => none
  | fuel + 1, i, s =>
    match registry.findFactory (G.object i).classId with
    | none => some s
    | some _ => G.saveLevels (saveRootImpl fuel) (G.object i).id (G.object i).contents s

def saveRoot (fuel : ℕ) (root : Fin G.size) : Option ObjClassData :=
  (G.saveRootImpl fuel root {}).map SaveState.store

end Graph

/-- An object of the new domain; its address is its place in the list of all of them. -/
structure LoadedObject where
  id : ObjId
  flags : ObjFlags
  classId : ClassId
  contents : List (LevelContents ℕ)

structure LoadState where
  heap : List LoadedObject := []
  visited : List (ObjId × ClassId) := []

def LoadState.find (s : LoadState) (id : ObjId) : Option ℕ := s.heap.findIdx? fun o => o.id = id

section Load
variable (lib : StdLibrary) (overflow : Overflow) (registry : Classes) (saved : ObjClassData)

section Members
variable (loadRootImpl : ObjId → ObjFlags → LoadState → Option (ObjPtr ℕ × LoadState))

def loadMembers : List MemberTy → VectorReader → LoadState →
    Option (List (Member ℕ) × VectorReader × LoadState)
  | [], is, s => some ([], is, s)
  | m :: ms, is, s => do
    let (v, is, s) ← loadMember lib overflow loadRootImpl m is s
    let (vs, is, s) ← loadMembers ms is s
    return (⟨m, v⟩ :: vs, is, s)

def loadLevels (id : ObjId) : List Level → LoadState → Option (List (LevelContents ℕ) × LoadState)
  | [], s => some ([], s)
  | l :: ls, s =>
    if (id, l.classId) ∈ s.visited then some ((l :: ls).map (freshLevel ℕ), s)
    else do
      let s := { s with visited := (id, l.classId) :: s.visited }
      let data := load saved id l.classId l.version []
      let (before, is, s) ← loadMembers lib overflow loadRootImpl l.before ⟨data.map UInt8.ofBitVec, 0, .no⟩ s
      let (base, s) ← loadLevels id ls s
      let (after, _, s) ← loadMembers lib overflow loadRootImpl l.after is s
      return (⟨l.classId, l.version, before, after⟩ :: base, s)

end Members

def loadRootImpl : ℕ → ObjId → ObjFlags → LoadState → Option (ObjPtr ℕ × LoadState)
  | 0, _, _, _ => none
  | fuel + 1, id, flags, s =>
    if id = 0 then some (.empty id flags, s)
    else
      match s.find id with
      | some n => some (.object n, s)
      | none =>
        match registry.getMostRelatedFactory (enumerate saved id) with
        | none => some (.empty id flags, s)
        | some (classId, levels) => do
          let n := s.heap.length
          let o : LoadedObject := ⟨id, flags &&& ~~~kUnloaded, classId, levels.map (freshLevel ℕ)⟩
          let (contents, s) ← loadLevels lib overflow saved (loadRootImpl fuel) id levels
            { s with heap := s.heap ++ [o] }
          -- the members are written in place while the object is already in the domain
          return (.object n, { s with heap := s.heap.set n { o with contents := contents } })

def loadRoot (fuel : ℕ) (id : ObjId) (flags : ObjFlags) : Option (ObjPtr ℕ × LoadState) :=
  loadRootImpl lib overflow registry saved fuel id flags {}

end Load

inductive RelatedMember {A B : Type} (r : ObjPtr A → ObjPtr B → Prop) : Member A → Member B → Prop
  | mk {ty : MemberTy} {v : ty.Value A} {w : ty.Value B} (h : Related r ty v w) :
    RelatedMember r ⟨ty, v⟩ ⟨ty, w⟩

structure RelatedLevel {A B : Type} (r : ObjPtr A → ObjPtr B → Prop) (l : LevelContents A)
    (l' : LevelContents B) : Prop where
  classId : l.classId = l'.classId
  before : List.Forall₂ (RelatedMember r) l.before l'.before
  after : List.Forall₂ (RelatedMember r) l.after l'.after

def LoadState.placed (s : LoadState) (n : ℕ) : Option ObjId := s.heap[n]?.map LoadedObject.id

namespace Graph
variable {lib : StdLibrary} {registry : Classes} (G : Graph lib registry)

/-- A pointer of `i` that is saved without an unloaded flag leads to `j`. -/
def Leads (i j : Fin G.size) : Prop :=
  j ∈ memberTargets (G.object i).members ∧ unloaded (G.object j).flags = false

def Reachable (root i : Fin G.size) : Prop := Relation.ReflTransGen G.Leads root i

/-- The object has the class and the members of the one it was saved from: the same plain values,
unloaded pointers with the same ids and flags, and pointers to the objects with the same ids. -/
structure Copies (s : LoadState) (i : Fin G.size) (o : LoadedObject) : Prop where
  id : o.id = (G.object i).id
  classId : o.classId = (G.object i).classId
  contents : List.Forall₂ (RelatedLevel (Matches G.ident s.placed)) (G.object i).contents o.contents

/-- The loaded objects are the copies of those that can be reached, each of them once. -/
structure Isomorphic (root : Fin G.size) (ptr : ObjPtr ℕ) (s : LoadState) : Prop where
  start : ∃ n, ptr = .object n ∧ s.placed n = some (G.object root).id
  once : (s.heap.map LoadedObject.id).Nodup
  all : ∀ i, G.Reachable root i → ∃ o ∈ s.heap, G.Copies s i o
  only : ∀ o ∈ s.heap, ∃ i, G.Reachable root i ∧ G.Copies s i o

def saveLoad (overflow : Overflow) (fuel : ℕ) (root : Fin G.size) (flags : ObjFlags) :
    Option (ObjPtr ℕ × LoadState) := do
  let saved ← G.saveRoot fuel root
  loadRoot lib overflow registry saved fuel (G.object root).id flags

end Graph

end AetherClient.Domain
