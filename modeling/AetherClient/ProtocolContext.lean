import AetherClient.StdMap
import Mathlib.Data.Set.Insert

set_option autoImplicit false

namespace AetherClient

open StdMap (Map)

/-- The messages that a parser loads one after the other: the class, the object that executes the
message, and the messages that are loaded meanwhile. -/
inductive Loads where
  | done
  | load (classId : BitVec 32) (apiClass : ℕ) (nested rest : Loads)
deriving DecidableEq, Repr

abbrev ApiClassMap := Map 32 ℕ

namespace ApiClassMap

def pushApiClass (table : ApiClassMap) (classId : BitVec 32) (apiClass : ℕ) : ApiClassMap :=
  table.insert classId apiClass

def popApiClass (table : ApiClassMap) (classId : BitVec 32) : ApiClassMap := table.erase classId

def current (table : ApiClassMap) : Set (BitVec 32) := {classId | (table.lookup classId).isSome}

theorem current_pushApiClass (table : ApiClassMap) (classId : BitVec 32) (apiClass : ℕ) :
    (table.pushApiClass classId apiClass).current = insert classId table.current := by
  ext c
  by_cases hc : c = classId
  · simp [current, pushApiClass, hc]
  · simp [current, pushApiClass, StdMap.Map.lookup_insert_of_ne hc, hc]

theorem popApiClass_pushApiClass {table : ApiClassMap} {classId : BitVec 32}
    (h : classId ∉ table.current) (apiClass : ℕ) :
    (table.pushApiClass classId apiClass).popApiClass classId = table := by
  apply StdMap.Map.ext_lookup
  intro c
  by_cases hc : c = classId
  · have hnone : table.lookup classId = none := by simpa [current] using h
    rw [hc, popApiClass, StdMap.Map.lookup_erase_self, hnone]
  · rw [popApiClass, StdMap.Map.lookup_erase_of_ne hc, pushApiClass,
      StdMap.Map.lookup_insert_of_ne hc]

end ApiClassMap

namespace Loads
open ApiClassMap

def exec : Loads → ApiClassMap → ApiClassMap
  | done, table => table
  | load classId apiClass nested rest, table =>
    rest.exec ((nested.exec (table.pushApiClass classId apiClass)).popApiClass classId)

/-- Whenever the handler of a message has the control, before and after each of the loads, the
entry of its class is the object that executes it. -/
def FindsItself (classId : BitVec 32) (apiClass : ℕ) : Loads → ApiClassMap → Prop
  | done, table => table.lookup classId = some apiClass
  | load classId' apiClass' nested rest, table =>
    table.lookup classId = some apiClass ∧
      rest.FindsItself classId apiClass
        ((nested.exec (table.pushApiClass classId' apiClass')).popApiClass classId')

def Restored : Loads → ApiClassMap → Prop
  | done, _ => True
  | load classId apiClass nested rest, table =>
    (nested.exec (table.pushApiClass classId apiClass)).popApiClass classId = table ∧
      nested.FindsItself classId apiClass (table.pushApiClass classId apiClass) ∧
      nested.Restored (table.pushApiClass classId apiClass) ∧
      rest.Restored ((nested.exec (table.pushApiClass classId apiClass)).popApiClass classId)

/-- No message is loaded while one of the same class is executed. -/
def NoReentry : Loads → Set (BitVec 32) → Prop
  | done, _ => True
  | load classId _ nested rest, current =>
    classId ∉ current ∧ nested.NoReentry (insert classId current) ∧ rest.NoReentry current

theorem exec_of_noReentry {loads : Loads} {table : ApiClassMap}
    (h : loads.NoReentry table.current) : loads.exec table = table := by
  induction loads generalizing table with
  | done => rfl
  | load classId apiClass nested rest ihn ihr =>
    obtain ⟨hnew, hnested, hrest⟩ := h
    rw [← current_pushApiClass table classId apiClass] at hnested
    rw [exec, ihn hnested, popApiClass_pushApiClass hnew, ihr hrest]

theorem findsItself_of_noReentry {classId : BitVec 32} {apiClass : ℕ} {loads : Loads}
    {table : ApiClassMap} (hentry : table.lookup classId = some apiClass)
    (h : loads.NoReentry table.current) : loads.FindsItself classId apiClass table := by
  induction loads with
  | done => exact hentry
  | load classId' apiClass' nested rest _ ihr =>
    obtain ⟨hnew, hnested, hrest⟩ := h
    rw [← current_pushApiClass table classId' apiClass'] at hnested
    refine ⟨hentry, ?_⟩
    rw [exec_of_noReentry hnested, popApiClass_pushApiClass hnew]
    exact ihr hrest

theorem restored_of_noReentry {loads : Loads} {table : ApiClassMap}
    (h : loads.NoReentry table.current) : loads.Restored table := by
  induction loads generalizing table with
  | done => trivial
  | load classId apiClass nested rest ihn ihr =>
    obtain ⟨hnew, hnested, hrest⟩ := h
    rw [← current_pushApiClass table classId apiClass] at hnested
    have hsame : (nested.exec (table.pushApiClass classId apiClass)).popApiClass classId = table := by
      rw [exec_of_noReentry hnested, popApiClass_pushApiClass hnew]
    refine ⟨hsame, ?_, ihn hnested, ?_⟩
    · exact findsItself_of_noReentry StdMap.Map.lookup_insert_self hnested
    · rw [hsame]
      exact ihr hrest

theorem noReentry_of_restored {loads : Loads} {table : ApiClassMap}
    (h : loads.Restored table) : loads.NoReentry table.current := by
  induction loads generalizing table with
  | done => trivial
  | load classId apiClass nested rest ihn ihr =>
    obtain ⟨hsame, -, hnested, hrest⟩ := h
    rw [hsame] at hrest
    refine ⟨?_, ?_, ihr hrest⟩
    · -- the entry is erased in the end, so it cannot have been there before
      have hnone : table.lookup classId = none := by
        rw [← hsame]
        exact StdMap.Map.lookup_erase_self
      simp [current, hnone]
    · rw [← current_pushApiClass table classId apiClass]
      exact ihn hnested

theorem restored_iff (loads : Loads) (table : ApiClassMap) :
    loads.Restored table ↔ loads.NoReentry table.current :=
  ⟨noReentry_of_restored, restored_of_noReentry⟩

/-- A message of a stream whose data is a message of a stream, as the answers to a registration
are: the inner one takes the entry of the outer one away. -/
theorem not_restored_stream_in_stream :
    ¬ ∀ (loads : Loads) (table : ApiClassMap), loads.Restored table := by
  intro h
  obtain ⟨-, hfinds, -⟩ := h (.load 7 1 (.load 7 2 .done .done) .done) {}
  obtain ⟨-, hafter⟩ := hfinds
  have hgone : (({} : ApiClassMap).insert 7 1 |>.insert 7 2 |>.erase 7).lookup 7 = some 1 := hafter
  rw [StdMap.Map.lookup_erase_self] at hgone
  cases hgone

end Loads

end AetherClient
