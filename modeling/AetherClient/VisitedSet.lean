import AetherClient.OrderedSet
import AetherClient.Ptr
import Mathlib.Data.List.Induction
import Mathlib.Order.Nat

set_option autoImplicit false

namespace AetherClient

structure ObjEntry where
  typeIndex : ℕ
  ptr : Address
deriving DecidableEq, Repr

/-- What `operator<` compares. -/
def ObjEntry.sum (e : ObjEntry) : ℕ := e.typeIndex + e.ptr

namespace VisitedSet

def addAll (entries : List ObjEntry) : List ObjEntry :=
  entries.foldl (fun visited e => OrderedSet.insert ObjEntry.sum e visited) []

def isVisited (visited : List ObjEntry) (e : ObjEntry) : Bool :=
  OrderedSet.contains ObjEntry.sum e visited

theorem addAll_snoc (entries : List ObjEntry) (e : ObjEntry) :
    addAll (entries ++ [e]) = OrderedSet.insert ObjEntry.sum e (addAll entries) :=
  List.foldl_append

theorem addAll_spec (entries : List ObjEntry) : OrderedSet.Sorted ObjEntry.sum (addAll entries) ∧
    ∀ k, k ∈ (addAll entries).map ObjEntry.sum ↔ k ∈ entries.map ObjEntry.sum := by
  induction entries using List.reverseRecOn with
  | nil => exact ⟨List.Pairwise.nil, fun _ => Iff.rfl⟩
  | append_singleton entries e ih =>
    rw [addAll_snoc]
    refine ⟨ih.1.insert, ?_⟩
    intro k
    rw [OrderedSet.key_mem_insert, ih.2 k, List.map_append, List.mem_append, or_comm]
    simp

theorem isVisited_iff (entries : List ObjEntry) (e : ObjEntry) :
    isVisited (addAll entries) e = true ↔ ∃ d ∈ entries, d.sum = e.sum := by
  obtain ⟨hsorted, hkeys⟩ := addAll_spec entries
  rw [isVisited, hsorted.contains_iff, hkeys, List.mem_map]

theorem isVisited_eq_cycleDetector (entries : List ObjEntry) (e : ObjEntry) :
    isVisited (addAll entries) e =
      (entries.foldl (fun cd d => cd.add d.typeIndex d.ptr) ({} : CycleDetector)).isVisited
        e.typeIndex e.ptr := by
  have hsums : (entries.foldl (fun cd d => cd.add d.typeIndex d.ptr)
      ({} : CycleDetector)).visitedObjects = (entries.map ObjEntry.sum).reverse := by
    induction entries using List.reverseRecOn with
    | nil => rfl
    | append_singleton entries d ih =>
      rw [List.foldl_append, List.map_append, List.reverse_append, ← ih]
      rfl
  rw [Bool.eq_iff_iff, isVisited_iff, CycleDetector.isVisited, List.contains_iff_mem, hsums,
    List.mem_reverse, List.mem_map]
  rfl

def Exact (entries : List ObjEntry) (e : ObjEntry) : Prop :=
  isVisited (addAll entries) e = true ↔ e ∈ entries

/-- That is so exactly if an entry that was not added shares its sum with none that was. -/
theorem exact_iff (entries : List ObjEntry) (e : ObjEntry) :
    Exact entries e ↔ (e ∉ entries → ∀ d ∈ entries, d.sum ≠ e.sum) := by
  rw [Exact, isVisited_iff]
  constructor
  · intro h hnot d hd heq
    exact hnot (h.mp ⟨d, hd, heq⟩)
  · intro h
    constructor
    · rintro ⟨d, hd, heq⟩
      by_contra hnot
      exact h hnot d hd heq
    · exact fun he => ⟨e, he, rfl⟩

/-- An object of type 8 is taken for one of type 0 that lies eight bytes further. -/
theorem not_exact_neighbours : ¬∀ entries e, Exact entries e := by
  intro h
  have hvisited : isVisited (addAll [⟨8, 4096⟩]) ⟨0, 4104⟩ = true := by decide
  exact absurd ((h [⟨8, 4096⟩] ⟨0, 4104⟩).mp hvisited) (by decide)

end VisitedSet
end AetherClient
