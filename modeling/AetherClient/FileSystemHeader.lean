import AetherClient.ObjClassData
import AetherClient.DriverHeader
import AetherClient.Runs
import Mathlib.Data.Finset.Card

set_option autoImplicit false

/-!
# The header file system and the one in memory

The facility in memory keeps the objects in its maps. In a distillation build the header facility
keeps nothing: each call reads the objects from the file, and a call that changes them writes the
file anew. The file keeps what was written to it.
-/
namespace AetherClient.FileSystem
open Runs StdMap

inductive Call where
  | enumerate (objId : ObjId)
  | store (objId : ObjId) (classId : ClassId) (version : Version) (os : Data)
  | load (objId : ObjId) (classId : ClassId) (version : Version) (is : Data)
  | remove (objId : ObjId)
  | removeAll
deriving DecidableEq, Repr

/-- What a call gives back: a set of classes, or the bytes that are in `is` then. -/
inductive Output where
  | classes (ids : Finset ClassId)
  | loaded (is : Data)
  | nothing
deriving DecidableEq

namespace RamFacility

def step (state : ObjClassData) : Call → ObjClassData × Output
  | .enumerate objId => (state, .classes (enumerate state objId).toFinset)
  | .store objId classId version os => (store objId classId version os state, .nothing)
  | .load objId classId version is => (state, .loaded (load state objId classId version is))
  | .remove objId => (remove objId state, .nothing)
  | .removeAll => ([], .nothing)

def next (state : ObjClassData) (call : Call) : Option ObjClassData := some (step state call).1

def answer : ObjClassData → List Call → Call → Output
  | state, [], query => (step state query).2
  | state, call :: calls, query => answer (step state call).1 calls query

end RamFacility

namespace HeaderFacility

abbrev File := Option (List Char)

variable (overflow : Overflow)

def loadObjData (file : File) : Option ObjClassData :=
  (DriverHeader.driverHeaderRead file).map (deserialize overflow)

def saveObjData (state : ObjClassData) : File := some (DriverHeader.driverHeaderWrite (serialize state))

def step (file : File) : Call → Option (File × Output)
  | .enumerate objId => do
    let state ← loadObjData overflow file
    return (file, .classes (enumerate state objId).toFinset)
  | .store objId classId version os => do
    let state ← loadObjData overflow file
    return (saveObjData (store objId classId version os state), .nothing)
  | .load objId classId version is => do
    let state ← loadObjData overflow file
    return (file, .loaded (load state objId classId version is))
  | .remove objId => do
    let state ← loadObjData overflow file
    return (saveObjData (remove objId state), .nothing)
  | .removeAll => some (none, .nothing)

def answer : File → List Call → Call → Option Output
  | file, [], query => (step overflow file query).map Prod.snd
  | file, call :: calls, query => do
    let (file, _) ← step overflow file call
    answer file calls query

end HeaderFacility

section Refinement
variable {overflow : Overflow} {file : HeaderFacility.File} {state : ObjClassData}

def Holds (overflow : Overflow) (file : HeaderFacility.File) (state : ObjClassData) : Prop :=
  HeaderFacility.loadObjData overflow file = some state

theorem holds_none (overflow : Overflow) : Holds overflow none [] := rfl

theorem loadObjData_save (overflow : Overflow) (state : ObjClassData) :
    HeaderFacility.loadObjData overflow (HeaderFacility.saveObjData state) =
      some (deserialize overflow (serialize state)) := by
  rw [HeaderFacility.loadObjData, HeaderFacility.saveObjData, DriverHeader.driverHeaderRead_write]
  rfl

theorem step_of_holds (h : Holds overflow file state) (call : Call) :
    ∃ file' loaded,
      HeaderFacility.step overflow file call = some (file', (RamFacility.step state call).2) ∧
      Holds overflow file' loaded ∧
      (Loadable (RamFacility.step state call).1 → loaded = (RamFacility.step state call).1) := by
  cases call with
  | enumerate objId | load objId classId version is =>
    refine ⟨file, state, ?_, h, fun _ => rfl⟩
    rw [HeaderFacility.step, h]
    rfl
  | store objId classId version os =>
    refine ⟨_, _, ?_, loadObjData_save overflow _, deserialize_serialize⟩
    rw [HeaderFacility.step, h]
    rfl
  | remove objId =>
    refine ⟨_, _, ?_, loadObjData_save overflow _, deserialize_serialize⟩
    rw [HeaderFacility.step, h]
    rfl
  | removeAll => exact ⟨none, [], rfl, holds_none overflow, fun _ => rfl⟩

theorem answer_of_holds (h : Holds overflow file state) (query : Call) :
    HeaderFacility.answer overflow file [] query = some (RamFacility.answer state [] query) := by
  obtain ⟨file', loaded, hstep, -⟩ := step_of_holds h query
  rw [HeaderFacility.answer, hstep]
  rfl

theorem counted_of_holds (h : Holds overflow file state) : ∀ e ∈ state, Counted e.2 := by
  obtain ⟨data, -, rfl⟩ := Option.map_eq_some_iff.mp h
  exact counted_deserialize overflow data

/-- The contents are not longer than a length can say, and there is room for the class: the object
has it already or does not come to have all the `2 ^ 32` classes with it. -/
def Storable (state : ObjClassData) : Call → Prop
  | .store objId classId _ os => os.length < packedLength.limit ∧
      (classId ∈ enumerate state objId ∨ (enumerate state objId).length + 1 < 2 ^ 32)
  | _ => True

instance : (state : ObjClassData) → (call : Call) → Decidable (Storable state call)
  | _, .store _ _ _ _ => inferInstanceAs (Decidable (_ ∧ _))
  | _, .enumerate _ => inferInstanceAs (Decidable True)
  | _, .load _ _ _ _ => inferInstanceAs (Decidable True)
  | _, .remove _ => inferInstanceAs (Decidable True)
  | _, .removeAll => inferInstanceAs (Decidable True)

theorem loadable_step (h : Loadable state) {call : Call} (hcall : Storable state call) :
    Loadable (RamFacility.step state call).1 := by
  cases call with
  | enumerate _ | load _ _ _ _ => exact h
  | store objId classId version os => exact h.store hcall.1 hcall.2
  | remove objId => exact h.remove objId
  | removeAll => exact loadable_nil

section Unstorable
variable {loaded : ObjClassData} {objId : ObjId} {classId : ClassId} {version : Version}

theorem length_load_lt (h : ∀ e ∈ loaded, Counted e.2) :
    (load loaded objId classId version []).length < packedLength.limit := by
  have hnil : ([] : Data).length < packedLength.limit := by decide
  unfold load
  split
  · exact hnil
  · next objClasses hobj =>
    split
    · exact hnil
    · next versions hclass =>
      split
      · exact hnil
      · next data hversion =>
        have hcounted := h _ (mem_of_lookup hobj)
        exact hcounted.data _ (mem_of_lookup hclass) _ (mem_of_lookup hversion)

theorem card_enumerate_lt (h : ∀ e ∈ loaded, Counted e.2) :
    (enumerate loaded objId).toFinset.card < 2 ^ 32 := by
  apply Nat.lt_of_le_of_lt (List.toFinset_card_le _)
  unfold enumerate
  split
  · exact Nat.two_pow_pos 32
  · next objClasses hobj =>
    rw [List.length_map]
    exact (h _ (mem_of_lookup hobj)).classes

variable {os : Data}

theorem load_store (h : Loadable state) (is : Data) :
    load (store objId classId version os state) objId classId version is = os := by
  have hclasses : FitsClasses ((state.lookup objId).getD []) := h.classes objId
  have hversions := getD_lookup fitsVersions_nil hclasses.versions classId
  simp only [load, store, lookup_access strictOrder_keyLess h.ascending]
  simp only [storeClass, lookup_access strictOrder_keyLess hclasses.ascending]
  simp only [storeVersion, lookup_access strictOrder_keyLess hversions.ascending]

theorem card_enumerate_store (h : Loadable state) (hnew : classId ∉ enumerate state objId) :
    (enumerate (store objId classId version os state) objId).toFinset.card =
      (enumerate state objId).length + 1 := by
  have hclasses := h.classes objId
  have hstored : classes (store objId classId version os state) objId =
      storeClass classId version os (classes state objId) := by
    rw [classes, store, lookup_access strictOrder_keyLess h.ascending]
    rfl
  have hasc : Ascending keyLess (storeClass classId version os (classes state objId)) :=
    ascending_access strictOrder_keyLess hclasses.ascending
  rw [enumerate_eq] at hnew
  rw [enumerate_eq, enumerate_eq, hstored, List.toFinset_card_of_nodup (nodup_keys strictOrder_keyLess hasc),
    List.length_map, List.length_map, storeClass, length_access strictOrder_keyLess hclasses.ascending,
    if_neg hnew]

theorem exists_answer_ne (hloaded : ∀ e ∈ loaded, Counted e.2) (h : Loadable state) {call : Call}
    (hcall : ¬Storable state call) :
    ∃ query, RamFacility.answer loaded [] query ≠
      RamFacility.answer (RamFacility.step state call).1 [] query := by
  cases call with
  | enumerate _ | load _ _ _ _ | remove _ | removeAll => exact absurd trivial hcall
  | store objId classId version os =>
    by_cases hos : os.length < packedLength.limit
    · have hfull : ¬(classId ∈ enumerate state objId ∨ (enumerate state objId).length + 1 < 2 ^ 32) :=
        fun hroom => hcall ⟨hos, hroom⟩
      obtain ⟨hnew, hcount⟩ := not_or.mp hfull
      refine ⟨.enumerate objId, fun heq => hcount ?_⟩
      have hids : (enumerate loaded objId).toFinset.card =
          (enumerate (store objId classId version os state) objId).toFinset.card :=
        congrArg Finset.card (Output.classes.inj heq)
      rw [← card_enumerate_store h hnew, ← hids]
      exact card_enumerate_lt hloaded
    · refine ⟨.load objId classId version [], fun heq => hos ?_⟩
      have hdata := Output.loaded.inj heq
      rw [RamFacility.step, load_store h] at hdata
      rw [← hdata]
      exact length_load_lt hloaded

end Unstorable

theorem answers_iff (h : Holds overflow file state) (hloadable : Loadable state) (calls : List Call) :
    (∀ earlier, earlier <+: calls → ∀ query,
      HeaderFacility.answer overflow file earlier query =
        some (RamFacility.answer state earlier query)) ↔
      Along RamFacility.next Storable state calls := by
  induction calls generalizing file state with
  | nil =>
    refine ⟨fun _ => trivial, fun _ earlier hearlier query => ?_⟩
    obtain rfl := List.prefix_nil.mp hearlier
    exact answer_of_holds h query
  | cons call calls ih =>
    obtain ⟨file', loaded, hstep, hholds, hsame⟩ := step_of_holds h call
    have hafter : ∀ earlier query, HeaderFacility.answer overflow file (call :: earlier) query =
        HeaderFacility.answer overflow file' earlier query := by
      intro earlier query
      rw [HeaderFacility.answer, hstep]
      rfl
    constructor
    · intro hagree
      have hstorable : Storable state call := by
        by_contra hnot
        obtain ⟨query, hne⟩ := exists_answer_ne (counted_of_holds hholds) hloadable hnot
        have hquery := hagree [call] (List.cons_prefix_cons.mpr ⟨rfl, List.nil_prefix⟩) query
        rw [hafter, answer_of_holds hholds] at hquery
        exact hne (Option.some.inj hquery)
      have hnext := loadable_step hloadable hstorable
      obtain rfl := hsame hnext
      refine ⟨hstorable, (ih hholds hnext).mp ?_⟩
      intro earlier hearlier query
      rw [← hafter]
      exact hagree (call :: earlier) (List.cons_prefix_cons.mpr ⟨rfl, hearlier⟩) query
    · rintro ⟨hstorable, hrest⟩ earlier hearlier query
      have hnext := loadable_step hloadable hstorable
      obtain rfl := hsame hnext
      cases earlier with
      | nil => exact answer_of_holds h query
      | cons first earlier =>
        obtain ⟨rfl, htail⟩ := List.cons_prefix_cons.mp hearlier
        rw [hafter]
        exact (ih hholds hnext).mpr hrest earlier htail query

end Refinement

/-- From an empty start, both facilities answer every query after each part of a sequence of calls
alike if and only if every store of it has contents of a length that can be written and leaves the
object short of one class at least. -/
theorem header_answers_as_ram_iff (overflow : Overflow) (calls : List Call) :
    (∀ earlier, earlier <+: calls → ∀ query,
      HeaderFacility.answer overflow none earlier query =
        some (RamFacility.answer [] earlier query)) ↔
      Along RamFacility.next Storable [] calls :=
  answers_iff (holds_none overflow) loadable_nil calls

def longContents : Data := List.replicate packedLength.limit 0

/-- Contents of this length are in memory after the store, the header facility does not load
them. -/
theorem long_contents_not_loaded :
    RamFacility.answer [] [.store 1 1 0 longContents] (.load 1 1 0 []) = .loaded longContents ∧
      HeaderFacility.answer usedUp none [.store 1 1 0 longContents] (.load 1 1 0 []) ≠
        some (.loaded longContents) := by
  refine ⟨congrArg Output.loaded (load_store loadable_nil []), ?_⟩
  obtain ⟨file', loaded, hstep, hholds, -⟩ := step_of_holds (holds_none usedUp) (.store 1 1 0 longContents)
  have hanswer : HeaderFacility.answer usedUp none [.store 1 1 0 longContents] (.load 1 1 0 []) =
      some (.loaded (load loaded 1 1 0 [])) := by
    rw [HeaderFacility.answer, hstep]
    exact answer_of_holds hholds _
  rw [hanswer]
  intro heq
  have hdata : load loaded 1 1 0 [] = longContents := Output.loaded.inj (Option.some.inj heq)
  have hlt : (load loaded 1 1 0 []).length < packedLength.limit := length_load_lt (counted_of_holds hholds)
  rw [hdata, longContents, List.length_replicate] at hlt
  exact Nat.lt_irrefl _ hlt

end AetherClient.FileSystem
