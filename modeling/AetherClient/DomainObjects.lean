import AetherClient.ObjClassData
import AetherClient.Runs
import AetherClient.Tables
import Mathlib.Logic.Function.Basic

set_option autoImplicit false

/-!
# The objects of a domain

A domain has a table of its objects by id and one by address. A new object is entered if its id is
free, and the destructor of an object takes the entry of its id out, whichever object it is of. The
tables do not own the objects: from the moment that the last pointer to an object is gone its entries
give nothing, though the destructor, and what it destroys first, still has to run.

A constructor that creates objects, a load that leads to other objects and a destructor are sequences
of the events here, in the order in which they reach the tables. A new object is put at any address
that no object has whose memory is not free.
-/
namespace AetherClient
open FileSystem Runs StdMap

inductive ObjectPhase where
  | alive
  /-- The last pointer is gone, and the destructor has not come to `~Obj` yet. -/
  | dying
  | destroyed
  deriving DecidableEq, Repr

structure DomainObject where
  id : ObjId
  phase : ObjectPhase
  deriving DecidableEq, Repr

/-- An object is known by its place among all that were allocated. -/
structure DomainObjects where
  objects : List DomainObject := []
  address : ℕ → ℕ := fun _ => 0
  idObjects : Map 32 ℕ := {}
  ptrObjects : AList fun _ : ℕ => ℕ := ∅

inductive DomainEvent where
  | create (id : ObjId) (address : ℕ)
  /-- `LoadRootImpl`; `stored` says whether there is a factory for what is stored under the id. -/
  | load (id : ObjId) (stored : Bool) (address : ℕ)
  | loadCopy (id copyId : ObjId) (stored : Bool) (address : ℕ)
  | release (o : ℕ)
  | remove (o : ℕ)
  deriving DecidableEq, Repr

namespace DomainObjects

def lock (d : DomainObjects) (o : ℕ) : Option ℕ :=
  if d.objects[o]?.map DomainObject.phase = some .alive then some o else none

def find (d : DomainObjects) (id : ObjId) : Option ℕ := (d.idObjects.lookup id).bind d.lock

def findPtr (d : DomainObjects) (address : ℕ) : Option ℕ := (d.ptrObjects.lookup address).bind d.lock

def addObject (d : DomainObjects) (id : ObjId) (o address : ℕ) : DomainObjects :=
  { d with
    idObjects := d.idObjects.emplace id o
    ptrObjects := if (d.ptrObjects.lookup address).isSome then d.ptrObjects
      else d.ptrObjects.insert address o }

/-- The object is still there to give its id. -/
def removeObject (d : DomainObjects) (o : ℕ) (id : ObjId) : DomainObjects :=
  { d with
    idObjects := d.idObjects.erase id, ptrObjects := d.ptrObjects.erase (d.address o) }

def setObject (d : DomainObjects) (o : ℕ) (x : DomainObject) : DomainObjects :=
  { d with objects := d.objects.set o x }

def allocateObject (d : DomainObjects) (address : ℕ) : DomainObjects :=
  { d with
    objects := d.objects ++ [⟨0, .alive⟩]
    address := Function.update d.address d.objects.length address }

def setId (d : DomainObjects) (o : ℕ) (id : ObjId) : DomainObjects := d.setObject o ⟨id, .alive⟩

/-- An object is in the tables before it has its id. -/
def enterNew (d : DomainObjects) (id : ObjId) (address : ℕ) : DomainObjects :=
  ((d.allocateObject address).addObject id d.objects.length address).setId d.objects.length id

def createObj (d : DomainObjects) (id : ObjId) (address : ℕ) : DomainObjects := d.enterNew id address

def constructObj (d : DomainObjects) (id : ObjId) (address : ℕ) : DomainObjects :=
  d.enterNew id address

def loadRootImpl (d : DomainObjects) (id : ObjId) (stored : Bool) (address : ℕ) : DomainObjects :=
  if id = 0 then d
  else if (d.find id).isSome then d
  else if stored then d.constructObj id address
  else d

/-- The copy has the id of the original only while its members are loaded. -/
def loadCopy (d : DomainObjects) (id copyId : ObjId) (stored : Bool) (address : ℕ) : DomainObjects :=
  if id = 0 ∨ copyId = 0 then d
  else if (d.find copyId).isSome then d
  else if stored then
    ((d.constructObj copyId address).setId d.objects.length id).setId d.objects.length copyId
  else d

def occupied (d : DomainObjects) (address : ℕ) : Bool :=
  d.objects.zipIdx.any fun x => x.1.phase ≠ .destroyed ∧ d.address x.2 = address

/-- An event that cannot come in this state changes nothing. -/
def step (d : DomainObjects) : DomainEvent → Option DomainObjects
  | .create id address => some (if d.occupied address then d else d.createObj id address)
  | .load id stored address =>
    some (if d.occupied address then d else d.loadRootImpl id stored address)
  | .loadCopy id copyId stored address =>
    some (if d.occupied address then d else d.loadCopy id copyId stored address)
  | .release o =>
    match d.objects[o]? with
    | some ⟨id, .alive⟩ => some (d.setObject o ⟨id, .dying⟩)
    | _ => some d
  | .remove o =>
    match d.objects[o]? with
    | some ⟨id, .dying⟩ => some ((d.removeObject o id).setObject o ⟨id, .destroyed⟩)
    | _ => some d

def Live (d : DomainObjects) (id : ObjId) (o : ℕ) : Prop := d.objects[o]? = some ⟨id, .alive⟩

instance (d : DomainObjects) (id : ObjId) (o : ℕ) : Decidable (d.Live id o) :=
  inferInstanceAs (Decidable (_ = _))

/-- `Find` gives an object with the id that is alive if there is one, and nothing otherwise. -/
def Consistent (d : DomainObjects) : Prop :=
  ∀ id, ((∃ o, d.Live id o) → ∃ o, d.find id = some o ∧ d.Live id o) ∧
    ((¬∃ o, d.Live id o) → d.find id = none)

/-- The table has no entry for the id that gives nothing. -/
def Free (d : DomainObjects) (id : ObjId) : Prop :=
  (d.idObjects.lookup id).isSome → (d.find id).isSome

/-- What an event must not meet: a new object the entry of one whose destructor runs, an object that
lets go of its entry, or takes it out, another one alive with its id. -/
def Undisturbed (d : DomainObjects) : DomainEvent → Prop
  | .create id address => d.occupied address = false → d.Free id
  | .load id stored address => d.occupied address = false → id ≠ 0 → stored → d.Free id
  | .loadCopy id copyId stored address =>
    d.occupied address = false → id ≠ 0 → copyId ≠ 0 → stored → d.Free copyId
  | .release o => ∀ id, d.Live id o → d.idObjects.lookup id = some o → ∀ o', d.Live id o' → o' = o
  | .remove o => ∀ id, d.objects[o]? = some ⟨id, .dying⟩ → ∀ o', ¬d.Live id o'

variable {d d' : DomainObjects} {id id' : ObjId} {o o' address : ℕ}

theorem lock_eq_some_iff : d.lock o = some o' ↔ o' = o ∧ ∃ id, d.Live id o := by
  have hlive : d.objects[o]?.map DomainObject.phase = some .alive ↔ ∃ id, d.Live id o := by
    rw [Option.map_eq_some_iff]
    constructor
    · rintro ⟨⟨id, phase⟩, hx, rfl⟩
      exact ⟨id, hx⟩
    · rintro ⟨id, h⟩
      exact ⟨_, h, rfl⟩
  rw [lock]
  split
  · next h => simp [hlive.mp h, eq_comm]
  · next h => simp [mt hlive.mpr h]

theorem find_eq_some_iff :
    d.find id = some o ↔ d.idObjects.lookup id = some o ∧ ∃ id', d.Live id' o := by
  rw [find, Option.bind_eq_some_iff]
  constructor
  · rintro ⟨o', hentry, hlock⟩
    obtain ⟨rfl, hlive⟩ := lock_eq_some_iff.mp hlock
    exact ⟨hentry, hlive⟩
  · rintro ⟨hentry, hlive⟩
    exact ⟨o, hentry, lock_eq_some_iff.mpr ⟨rfl, hlive⟩⟩

structure Inv (d : DomainObjects) : Prop where
  entered : ∀ id o, d.idObjects.lookup id = some o → ∃ phase, d.objects[o]? = some ⟨id, phase⟩
  found : ∀ id o, d.Live id o → ∃ o', d.find id = some o'

theorem Inv.consistent (h : d.Inv) : d.Consistent := by
  have hlive : ∀ id o, d.find id = some o → d.Live id o := by
    intro id o hfind
    obtain ⟨hentry, id', hid⟩ := find_eq_some_iff.mp hfind
    obtain ⟨phase, hx⟩ := h.entered id o hentry
    rw [Live, hx] at hid
    cases hid
    exact hx
  intro id
  constructor
  · rintro ⟨o, ho⟩
    obtain ⟨o', hfind⟩ := h.found id o ho
    exact ⟨o', hfind, hlive id o' hfind⟩
  · intro hnone
    rw [Option.eq_none_iff_forall_ne_some]
    intro o hfind
    exact hnone ⟨o, hlive id o hfind⟩

theorem constructObj_objects : (d.constructObj id address).objects = d.objects ++ [⟨id, .alive⟩] := by
  simp [constructObj, enterNew, allocateObject, addObject, setId, setObject]

theorem constructObj_idObjects :
    (d.constructObj id address).idObjects = d.idObjects.emplace id d.objects.length := rfl

theorem live_constructObj :
    (d.constructObj id address).Live id' o ↔ d.Live id' o ∨ o = d.objects.length ∧ id' = id := by
  rw [Live, Live, constructObj_objects]
  by_cases ho : o < d.objects.length
  · rw [List.getElem?_append_left ho]
    simp [Nat.ne_of_lt ho]
  · have hnone : d.objects[o]? = none := List.getElem?_eq_none (Nat.le_of_not_lt ho)
    rw [List.getElem?_append_right (Nat.le_of_not_lt ho), hnone, List.getElem?_singleton]
    split
    · have heq : o = d.objects.length := by omega
      simp [heq, eq_comm]
    · have hne : o ≠ d.objects.length := by omega
      simp [hne]

theorem find_constructObj (h : d.find id' = some o) : (d.constructObj id address).find id' = some o := by
  obtain ⟨hentry, id₁, hlive⟩ := find_eq_some_iff.mp h
  exact find_eq_some_iff.mpr
    ⟨Map.lookup_emplace_of_some hentry, id₁, live_constructObj.mpr (.inl hlive)⟩

theorem Inv.constructObj (h : d.Inv) (hfree : d.Free id) : (d.constructObj id address).Inv := by
  have hold : ∀ id' o, d.idObjects.lookup id' = some o →
      ∃ phase, (d.constructObj id address).objects[o]? = some ⟨id', phase⟩ := by
    intro id' o hentry
    obtain ⟨phase, hx⟩ := h.entered id' o hentry
    refine ⟨phase, ?_⟩
    rw [constructObj_objects, List.getElem?_append_left (List.getElem?_eq_some_iff.mp hx).1, hx]
  have hnew : (d.constructObj id address).Live id d.objects.length := live_constructObj.mpr (.inr ⟨rfl, rfl⟩)
  constructor
  · intro id' o hentry
    rw [constructObj_idObjects] at hentry
    by_cases hid : id' = id
    · subst hid
      cases hlookup : d.idObjects.lookup id' with
      | none =>
        rw [Map.lookup_emplace_of_none hlookup] at hentry
        cases hentry
        exact ⟨.alive, hnew⟩
      | some o₁ =>
        rw [Map.lookup_emplace_of_some hlookup] at hentry
        exact hold id' o (hlookup.trans hentry)
    · rw [Map.lookup_emplace_of_ne hid] at hentry
      exact hold id' o hentry
  · intro id' o hlive
    obtain hlive | ⟨rfl, rfl⟩ := live_constructObj.mp hlive
    · obtain ⟨o', hfind⟩ := h.found id' o hlive
      exact ⟨o', find_constructObj hfind⟩
    · cases hlookup : d.idObjects.lookup id' with
      | none =>
        have hentry := Map.lookup_emplace_of_none (v := d.objects.length) hlookup
        exact ⟨_, find_eq_some_iff.mpr ⟨hentry, id', hnew⟩⟩
      | some o₁ =>
        obtain ⟨o', hfind⟩ := Option.isSome_iff_exists.mp (hfree (by rw [hlookup]; rfl))
        exact ⟨o', find_constructObj hfind⟩

theorem Inv.free_of_consistent (h : d.Inv) (hgood : (d.constructObj id address).Consistent) : d.Free id := by
  intro hsome
  obtain ⟨o, hentry⟩ := Option.isSome_iff_exists.mp hsome
  have hnew : (d.constructObj id address).Live id d.objects.length := live_constructObj.mpr (.inr ⟨rfl, rfl⟩)
  obtain ⟨o', hfind, -⟩ := (hgood id).1 ⟨_, hnew⟩
  obtain ⟨hentry', id', hlive⟩ := find_eq_some_iff.mp hfind
  rw [constructObj_idObjects, Map.lookup_emplace_of_some hentry] at hentry'
  cases hentry'
  obtain ⟨phase, hx⟩ := h.entered id o hentry
  have hlt := (List.getElem?_eq_some_iff.mp hx).1
  have hold := (live_constructObj.mp hlive).resolve_right fun hn => Nat.ne_of_lt hlt hn.1
  exact Option.isSome_iff_exists.mpr ⟨o, find_eq_some_iff.mpr ⟨hentry, id', hold⟩⟩

theorem loadCopy_eq {stored : Bool} : d.loadCopy id id' stored address =
    if id = 0 ∨ id' = 0 then d
    else if (d.find id').isSome then d
    else if stored then d.constructObj id' address
    else d := by
  have hids : ((d.constructObj id' address).setId d.objects.length id).setId d.objects.length id' =
      d.constructObj id' address := by
    simp [constructObj, enterNew, setId, setObject, List.set_set]
  rw [loadCopy, hids]

theorem live_setObject (ho : o < d.objects.length) {phase : ObjectPhase} (hphase : phase ≠ .alive) :
    (d.setObject o ⟨id, phase⟩).Live id' o' ↔ d.Live id' o' ∧ o' ≠ o := by
  rw [Live, Live, setObject]
  by_cases heq : o' = o
  · subst heq
    rw [List.getElem?_set_self ho]
    simp [hphase]
  · rw [List.getElem?_set_ne (Ne.symm heq)]
    simp [heq]

theorem Inv.release (h : d.Inv) (ho : d.Live id o) (hentry : d.idObjects.lookup id = some o →
    ∀ o', d.Live id o' → o' = o) : (d.setObject o ⟨id, .dying⟩).Inv := by
  have hlt := (List.getElem?_eq_some_iff.mp ho).1
  constructor
  · intro id' o' hentered
    obtain ⟨phase, hx⟩ := h.entered id' o' hentered
    by_cases heq : o' = o
    · subst heq
      rw [ho] at hx
      cases hx
      exact ⟨.dying, List.getElem?_set_self hlt⟩
    · exact ⟨phase, by rw [setObject, List.getElem?_set_ne (Ne.symm heq), hx]⟩
  · intro id' o' hlive
    obtain ⟨hlive', hne⟩ := (live_setObject hlt (by decide)).mp hlive
    obtain ⟨o₁, hfind⟩ := h.found id' o' hlive'
    obtain ⟨hentered, id₁, hlive₁⟩ := find_eq_some_iff.mp hfind
    refine ⟨o₁, find_eq_some_iff.mpr ⟨hentered, id₁, (live_setObject hlt (by decide)).mpr ⟨hlive₁, ?_⟩⟩⟩
    rintro rfl
    obtain ⟨phase, hx⟩ := h.entered id' o₁ hentered
    rw [ho] at hx
    cases hx
    exact hne (hentry hentered o' hlive')

theorem release_alone_of_consistent (ho : d.Live id o)
    (hgood : (d.setObject o ⟨id, .dying⟩).Consistent) (hentry : d.idObjects.lookup id = some o)
    (hlive : d.Live id o') : o' = o := by
  have hlt := (List.getElem?_eq_some_iff.mp ho).1
  by_contra hne
  obtain ⟨o₁, hfind, hlive₁⟩ := (hgood id).1 ⟨o', (live_setObject hlt (by decide)).mpr ⟨hlive, hne⟩⟩
  have hentered := (find_eq_some_iff.mp hfind).1
  rw [setObject, hentry] at hentered
  cases hentered
  exact ((live_setObject hlt (by decide)).mp hlive₁).2 rfl

section Remove
variable (ho : d.objects[o]? = some ⟨id, .dying⟩)
include ho

theorem live_removeObject :
    ((d.removeObject o id).setObject o ⟨id, .destroyed⟩).Live id' o' ↔ d.Live id' o' := by
  have hlt : o < (d.removeObject o id).objects.length := (List.getElem?_eq_some_iff.mp ho).1
  rw [live_setObject hlt (by decide)]
  refine ⟨And.left, fun hlive => ⟨hlive, ?_⟩⟩
  rintro rfl
  rw [Live, ho] at hlive
  cases hlive

theorem Inv.remove (h : d.Inv) (hnone : ∀ o', ¬d.Live id o') :
    ((d.removeObject o id).setObject o ⟨id, .destroyed⟩).Inv := by
  constructor
  · intro id' o' hentered
    have hid : id' ≠ id := by
      rintro rfl
      exact absurd (Map.lookup_erase_self.symm.trans hentered) (by simp)
    obtain ⟨phase, hx⟩ := h.entered id' o' ((Map.lookup_erase_of_ne hid).symm.trans hentered)
    have hne : o ≠ o' := by
      rintro rfl
      rw [ho] at hx
      cases hx
      exact hid rfl
    exact ⟨phase, (List.getElem?_set_ne hne).trans hx⟩
  · intro id' o' hlive
    have hlive' := (live_removeObject ho).mp hlive
    have hid : id' ≠ id := by
      rintro rfl
      exact hnone o' hlive'
    obtain ⟨o₁, hfind⟩ := h.found id' o' hlive'
    obtain ⟨hentered, id₁, hlive₁⟩ := find_eq_some_iff.mp hfind
    refine ⟨o₁, find_eq_some_iff.mpr ⟨(Map.lookup_erase_of_ne hid).trans hentered, id₁, ?_⟩⟩
    exact (live_removeObject ho).mpr hlive₁

theorem remove_last_of_consistent
    (hgood : ((d.removeObject o id).setObject o ⟨id, .destroyed⟩).Consistent) : ¬d.Live id o' := by
  intro hlive
  obtain ⟨o₁, hfind, -⟩ := (hgood id).1 ⟨o', (live_removeObject ho).mpr hlive⟩
  have hentered := (find_eq_some_iff.mp hfind).1
  exact absurd (Map.lookup_erase_self.symm.trans hentered) (by simp)

end Remove

theorem exists_step (d : DomainObjects) (e : DomainEvent) : ∃ d', d.step e = some d' := by
  cases e with
  | create | load | loadCopy => exact ⟨_, rfl⟩
  | release o | remove o =>
    rw [step]
    split <;> exact ⟨_, rfl⟩

theorem step_cases {e : DomainEvent} (he : d.step e = some d') :
    d' = d ∨ (∃ id address, d' = d.constructObj id address ∧ d.occupied address = false ∧
      (d.Undisturbed e → d.Free id)) ∨
    (∃ id o, e = .release o ∧ d.Live id o ∧ d' = d.setObject o ⟨id, .dying⟩) ∨
    ∃ id o, e = .remove o ∧ d.objects[o]? = some ⟨id, .dying⟩ ∧
      d' = (d.removeObject o id).setObject o ⟨id, .destroyed⟩ := by
  cases e with
  | create id address =>
    cases he
    split_ifs with hocc
    · exact .inl rfl
    · have hvacant := eq_false_of_ne_true hocc
      exact .inr (.inl ⟨id, address, rfl, hvacant, fun hfree => hfree hvacant⟩)
  | load id stored address =>
    cases he
    rw [loadRootImpl]
    split_ifs with hocc hid hfound hstored
    · exact .inl rfl
    · exact .inl rfl
    · exact .inl rfl
    · have hvacant := eq_false_of_ne_true hocc
      exact .inr (.inl ⟨id, address, rfl, hvacant, fun hfree => hfree hvacant hid hstored⟩)
    · exact .inl rfl
  | loadCopy id copyId stored address =>
    cases he
    rw [loadCopy_eq]
    split_ifs with hocc hid hfound hstored
    · exact .inl rfl
    · exact .inl rfl
    · exact .inl rfl
    · have hvacant := eq_false_of_ne_true hocc
      obtain ⟨hid, hcopy⟩ := not_or.mp hid
      exact .inr (.inl ⟨copyId, address, rfl, hvacant,
        fun hfree => hfree hvacant hid hcopy hstored⟩)
    · exact .inl rfl
  | release o =>
    rw [step] at he
    split at he
    · next id ho =>
      cases he
      exact .inr (.inr (.inl ⟨id, o, rfl, ho, rfl⟩))
    · cases he
      exact .inl rfl
  | remove o =>
    rw [step] at he
    split at he
    · next id ho =>
      cases he
      exact .inr (.inr (.inr ⟨id, o, rfl, ho, rfl⟩))
    · cases he
      exact .inl rfl

theorem Inv.step (h : d.Inv) {e : DomainEvent} (he : d.Undisturbed e) :
    ∃ d', d.step e = some d' ∧ d'.Inv := by
  obtain ⟨d', hstep⟩ := d.exists_step e
  refine ⟨d', hstep, ?_⟩
  obtain rfl | ⟨id, address, rfl, -, hfree⟩ | ⟨id, o, rfl, ho, rfl⟩ | ⟨id, o, rfl, ho, rfl⟩ :=
    step_cases hstep
  · exact h
  · exact h.constructObj (hfree he)
  · exact h.release ho (he id ho)
  · exact h.remove ho (he id ho)

theorem Inv.undisturbed_of_consistent (h : d.Inv) {e : DomainEvent} (he : d.step e = some d')
    (hgood : d'.Consistent) : d.Undisturbed e := by
  cases e with
  | create id address =>
    cases he
    intro hvacant
    rw [if_neg (ne_true_of_eq_false hvacant)] at hgood
    exact h.free_of_consistent hgood
  | load id stored address =>
    cases he
    intro hvacant hid hstored
    rw [if_neg (ne_true_of_eq_false hvacant), loadRootImpl, if_neg hid, if_pos hstored] at hgood
    split at hgood
    · next hfound => exact fun _ => hfound
    · exact h.free_of_consistent hgood
  | loadCopy id copyId stored address =>
    cases he
    intro hvacant hid hcopy hstored
    rw [if_neg (ne_true_of_eq_false hvacant), loadCopy_eq, if_neg (not_or.mpr ⟨hid, hcopy⟩),
      if_pos hstored] at hgood
    split at hgood
    · next hfound => exact fun _ => hfound
    · exact h.free_of_consistent hgood
  | release o =>
    intro id ho hentry o' hlive
    rw [DomainObjects.step, ho] at he
    cases he
    exact release_alone_of_consistent ho hgood hentry hlive
  | remove o =>
    intro id ho o'
    rw [DomainObjects.step, ho] at he
    cases he
    exact remove_last_of_consistent ho hgood

theorem inv_nil : ({} : DomainObjects).Inv := ⟨nofun, fun _ _ h => by cases h⟩

/-- `Find` by id is right after every step of a run exactly if no step is disturbed. -/
theorem consistent_iff (events : List DomainEvent) :
    Along step Undisturbed {} events ↔
      ∀ first, first <+: events → ∃ d, run step {} first = some d ∧ d.Consistent :=
  along_iff (fun _ h => h.consistent) (fun _ _ h he => h.step he)
    (fun _ _ _ h he hgood => h.undisturbed_of_consistent he hgood) inv_nil

/-- Two objects with one id: the first one takes the entry with it. -/
theorem not_consistent_of_shared_id :
    ¬∀ events d, run step {} events = some d → d.Consistent := by
  intro h
  obtain ⟨d, hrun⟩ : ∃ d, run step {} [.create 5 0, .create 5 8, .release 0, .remove 0] = some d :=
    ⟨_, rfl⟩
  have hlive : d.objects[1]? = some ⟨5, .alive⟩ :=
    run_observe (f := fun d => d.objects[1]?) hrun (by rfl)
  have hnone : d.find 5 = none := run_observe (f := fun d => d.find 5) hrun (by rfl)
  obtain ⟨o, hfind, -⟩ := (h _ d hrun 5).1 ⟨1, hlive⟩
  rw [hnone] at hfind
  cases hfind

def Stands (d : DomainObjects) (o : ℕ) : Prop :=
  ∃ id phase, d.objects[o]? = some ⟨id, phase⟩ ∧ phase ≠ .destroyed

theorem occupied_iff : d.occupied address = true ↔ ∃ o, d.Stands o ∧ d.address o = address := by
  rw [occupied, List.any_eq_true]
  constructor
  · rintro ⟨⟨⟨id, phase⟩, o⟩, hx, hp⟩
    obtain ⟨hphase, haddress⟩ := of_decide_eq_true hp
    exact ⟨o, ⟨id, phase, List.mem_zipIdx_iff_getElem?.mp hx, hphase⟩, haddress⟩
  · rintro ⟨o, ⟨id, phase, hx, hphase⟩, haddress⟩
    exact ⟨(⟨id, phase⟩, o), List.mem_zipIdx_iff_getElem?.mpr hx, decide_eq_true ⟨hphase, haddress⟩⟩

/-- Exactly the objects whose memory is not free have an entry of their address. -/
def Pointed (d : DomainObjects) : Prop :=
  ∀ address o, d.ptrObjects.lookup address = some o ↔ d.Stands o ∧ d.address o = address

theorem stands_constructObj :
    (d.constructObj id address).Stands o ↔ d.Stands o ∨ o = d.objects.length := by
  rw [Stands, Stands, constructObj_objects]
  by_cases ho : o < d.objects.length
  · rw [List.getElem?_append_left ho, or_iff_left (Nat.ne_of_lt ho)]
  · have hnone : d.objects[o]? = none := List.getElem?_eq_none (Nat.le_of_not_lt ho)
    rw [List.getElem?_append_right (Nat.le_of_not_lt ho), hnone, List.getElem?_singleton]
    split
    · have heq : o = d.objects.length := by omega
      simp [heq]
    · have hne : o ≠ d.objects.length := by omega
      simp [hne]

theorem Stands.lt (h : d.Stands o) : o < d.objects.length := by
  obtain ⟨id, phase, hx, -⟩ := h
  exact (List.getElem?_eq_some_iff.mp hx).1

theorem Pointed.constructObj (h : d.Pointed) (hvacant : d.occupied address = false) :
    (d.constructObj id address).Pointed := by
  have hnone : d.ptrObjects.lookup address = none := by
    rw [Option.eq_none_iff_forall_ne_some]
    intro o ho
    rw [occupied_iff.mpr ⟨o, (h address o).mp ho⟩] at hvacant
    cases hvacant
  have hptr : (d.constructObj id address).ptrObjects =
      d.ptrObjects.insert address d.objects.length := by
    have hkeep : (d.constructObj id address).ptrObjects =
        if (d.ptrObjects.lookup address).isSome then d.ptrObjects
        else d.ptrObjects.insert address d.objects.length := rfl
    rw [hkeep, hnone]
    rfl
  have haddress : (d.constructObj id address).address =
      Function.update d.address d.objects.length address := rfl
  intro a o
  rw [hptr, haddress, stands_constructObj]
  by_cases ho : o = d.objects.length
  · subst ho
    rw [Function.update_self]
    by_cases ha : a = address
    · subst ha
      simp [AList.lookup_insert]
    · rw [AList.lookup_insert_ne ha, h a]
      constructor
      · exact fun hold => absurd hold.1.lt (Nat.lt_irrefl _)
      · exact fun hnew => absurd hnew.2.symm ha
  · rw [Function.update_of_ne ho, or_iff_left ho]
    by_cases ha : a = address
    · subst ha
      rw [AList.lookup_insert]
      constructor
      · exact fun heq => absurd (Option.some.inj heq).symm ho
      · intro hold
        rw [(h a o).mpr hold] at hnone
        cases hnone
    · rw [AList.lookup_insert_ne ha]
      exact h a o

theorem stands_setObject (ho : o < d.objects.length) {phase : ObjectPhase} :
    (d.setObject o ⟨id, phase⟩).Stands o' ↔
      if o' = o then phase ≠ .destroyed else d.Stands o' := by
  rw [Stands, Stands, setObject]
  split
  · next heq =>
    subst heq
    rw [List.getElem?_set_self ho]
    simp
  · next hne => rw [List.getElem?_set_ne (Ne.symm hne)]

theorem Pointed.release (h : d.Pointed) (ho : d.Live id o) :
    (d.setObject o ⟨id, .dying⟩).Pointed := by
  have hlt := (List.getElem?_eq_some_iff.mp ho).1
  intro a o'
  rw [stands_setObject hlt]
  refine (h a o').trans (and_congr_left fun _ => ?_)
  split
  · next heq =>
    subst heq
    exact ⟨fun _ => nofun, fun _ => ⟨id, .alive, ho, nofun⟩⟩
  · rfl

theorem Pointed.remove (h : d.Pointed) (ho : d.objects[o]? = some ⟨id, .dying⟩) :
    ((d.removeObject o id).setObject o ⟨id, .destroyed⟩).Pointed := by
  have hlt : o < (d.removeObject o id).objects.length := (List.getElem?_eq_some_iff.mp ho).1
  have hself : d.ptrObjects.lookup (d.address o) = some o :=
    (h _ o).mpr ⟨⟨id, .dying, ho, nofun⟩, rfl⟩
  intro a o'
  rw [stands_setObject hlt]
  change (d.ptrObjects.erase (d.address o)).lookup a = some o' ↔
    (if o' = o then _ else d.Stands o') ∧ d.address o' = a
  by_cases ha : a = d.address o
  · subst ha
    rw [AList.lookup_erase]
    refine ⟨nofun, fun ⟨hstands, haddress⟩ => ?_⟩
    split at hstands
    · exact absurd rfl hstands
    · next hne =>
      -- no other object has the address
      have hother := (h _ o').mpr ⟨hstands, haddress⟩
      rw [hself] at hother
      exact absurd (Option.some.inj hother).symm hne
  · rw [AList.lookup_erase_ne ha, h a]
    split
    · next heq =>
      subst heq
      exact ⟨fun hold => absurd hold.2.symm ha, fun hnew => absurd hnew.2.symm ha⟩
    · rfl

theorem Pointed.step (h : d.Pointed) {e : DomainEvent} (he : d.step e = some d') : d'.Pointed := by
  obtain rfl | ⟨id, address, rfl, hvacant, -⟩ | ⟨id, o, rfl, ho, rfl⟩ | ⟨id, o, rfl, ho, rfl⟩ :=
    step_cases he
  · exact h
  · exact h.constructObj hvacant
  · exact h.release ho
  · exact h.remove ho

theorem pointed_nil : ({} : DomainObjects).Pointed :=
  fun _ _ => ⟨nofun, fun ⟨⟨_, _, hx, _⟩, _⟩ => by cases hx⟩

/-- `Find` by address is right whatever the ids are and wherever the objects are put. -/
theorem findPtr_eq_some_iff {events : List DomainEvent} (h : run step {} events = some d) :
    d.findPtr address = some o ↔ d.address o = address ∧ ∃ id, d.Live id o := by
  have hpointed : d.Pointed := run_preserves (fun _ _ _ h _ he => h.step he) pointed_nil
    (Along.of_forall (P := fun _ _ => True) fun _ _ _ => trivial) h
  rw [findPtr, Option.bind_eq_some_iff]
  constructor
  · rintro ⟨o₁, hentry, hlock⟩
    obtain ⟨rfl, hlive⟩ := lock_eq_some_iff.mp hlock
    exact ⟨((hpointed address o).mp hentry).2, hlive⟩
  · rintro ⟨haddress, id, hlive⟩
    have hstands : d.Stands o := ⟨id, .alive, hlive, nofun⟩
    exact ⟨o, (hpointed address o).mpr ⟨hstands, haddress⟩, lock_eq_some_iff.mpr ⟨rfl, id, hlive⟩⟩

/-- The third object is put where the first one was. -/
theorem findPtr_eq_some_iff_reused_address :
    ∃ d, run step {} [.create 1 8, .create 1 16, .release 0, .remove 0, .create 2 8] = some d ∧
      (d.findPtr 8 = some 2 ↔ d.address 2 = 8 ∧ ∃ id, d.Live id 2) :=
  Exists.imp (fun _ hrun => ⟨hrun, findPtr_eq_some_iff hrun⟩) ⟨_, rfl⟩

end DomainObjects
end AetherClient
