import AetherClient.ObjClassData
import AetherClient.Tables
import Mathlib.Data.List.Find
import Mathlib.Data.List.Sort
import Mathlib.Logic.Relation

set_option autoImplicit false

namespace AetherClient
open FileSystem

/-- `factories` are in the order in which the unordered map is gone through. A class without an
entry in `base_to_derived_` has no derived classes. -/
structure Registry (Factory : Type) where
  factories : List (ClassId × Factory)
  factories_nodup : (factories.map Prod.fst).Nodup
  derived : ClassId → List ClassId
  generation : ClassId → ℕ
  derived_generation : ∀ base, ∀ c ∈ derived base, generation base < generation c
  depth : ℕ
  generation_le : ∀ c, generation c ≤ depth

namespace Registry
variable {Factory : Type}

def findFactory (r : Registry Factory) (classId : ClassId) : Option Factory :=
  r.factories.lookup classId

def isExisting (r : Registry Factory) (classId : ClassId) : Bool := (r.findFactory classId).isSome

def isLast (r : Registry Factory) (classId : ClassId) : Bool := (r.derived classId).isEmpty

def searchDerived (distance : ClassId → ℤ) (derivedId : ClassId) : List ClassId → ℤ
  | [] => -1
  | c :: cs =>
    if derivedId = c then 1
    else if 0 ≤ distance c then distance c + 1
    else searchDerived distance derivedId cs

/-- The recursion ends because a derived class is of a later generation; `fuel` counts the
generations that are left. -/
def generationDistanceInternal (r : Registry Factory) : ℕ → ClassId → ClassId → ℤ
  | 0, _, _ => -1
  | fuel + 1, baseId, derivedId =>
    searchDerived (fun c => r.generationDistanceInternal fuel c derivedId) derivedId (r.derived baseId)

def generationDistance (r : Registry Factory) (baseId derivedId : ClassId) : ℤ :=
  if ¬r.isExisting baseId ∨ ¬r.isExisting derivedId then -1
  else if baseId = derivedId then 0
  else r.generationDistanceInternal r.depth baseId derivedId

/-- The comparison by which the classes are sorted, from base to derived. -/
def before (r : Registry Factory) (left right : ClassId) : Bool :=
  if 0 < r.generationDistance right left then false
  else if 0 ≤ r.generationDistance left right then true
  -- all classes must be in one inheritance chain, the code asserts that
  else false

def sortClasses (r : Registry Factory) (classes : List ClassId) : List ClassId :=
  classes.insertionSort fun left right => r.before left right = true

def getMostRelatedFactory (r : Registry Factory) (classes : List ClassId) :
    Option (ClassId × Factory) :=
  match (r.sortClasses (classes.filter r.isExisting)).getLast? with
  | none => none
  | some back => r.factories.find? fun f => r.isLast f.1 ∧ 0 ≤ r.generationDistance back f.1

section Distance
variable {r : Registry Factory} {x m : ClassId}

def Derives (r : Registry Factory) : ClassId → ClassId → Prop :=
  Relation.TransGen fun baseId c => c ∈ r.derived baseId

theorem Derives.generation_lt (h : r.Derives x m) : r.generation x < r.generation m := by
  induction h with
  | single h => exact r.derived_generation _ _ h
  | tail _ h ih => exact Nat.lt_trans ih (r.derived_generation _ _ h)

theorem searchDerived_pos {distance : ClassId → ℤ} {cs : List ClassId}
    (h : ∃ c ∈ cs, m = c ∨ 0 ≤ distance c) : 0 < searchDerived distance m cs := by
  induction cs with
  | nil =>
    obtain ⟨c, hc, -⟩ := h
    cases hc
  | cons c cs ih =>
    rw [searchDerived]
    split
    · decide
    · next hne =>
      split
      · omega
      · next hnot =>
        apply ih
        obtain ⟨c', hc', hfound⟩ := h
        obtain rfl | hc' := List.mem_cons.mp hc'
        · exact absurd hfound (not_or.mpr ⟨hne, hnot⟩)
        · exact ⟨c', hc', hfound⟩

theorem generationDistanceInternal_pos {fuel : ℕ} (h : r.Derives x m)
    (hfuel : r.generation m ≤ r.generation x + fuel) :
    0 < r.generationDistanceInternal fuel x m := by
  induction fuel generalizing x with
  | zero =>
    have hlt := h.generation_lt
    omega
  | succ fuel ih =>
    rw [generationDistanceInternal]
    apply searchDerived_pos
    obtain ⟨c, hc, hrest⟩ := Relation.TransGen.head'_iff.mp h
    have hgen := r.derived_generation x c hc
    refine ⟨c, hc, ?_⟩
    obtain rfl | hrest := Relation.reflTransGen_iff_eq_or_transGen.mp hrest
    · exact .inl rfl
    · exact .inr (Int.le_of_lt (ih hrest (by omega)))

theorem generationDistance_pos (h : r.Derives x m) (hx : r.isExisting x) (hm : r.isExisting m) :
    0 < r.generationDistance x m := by
  have hne : x ≠ m := by
    rintro rfl
    exact Nat.lt_irrefl _ h.generation_lt
  have hle := r.generation_le m
  rw [generationDistance, if_neg (by simp [hx, hm]), if_neg hne]
  exact generationDistanceInternal_pos h (by omega)

theorem generationDistance_neg (hlast : r.isLast m) (hne : m ≠ x) : r.generationDistance m x = -1 := by
  have hnil : r.derived m = [] := List.isEmpty_iff.mp hlast
  have hinternal : r.generationDistanceInternal r.depth m x = -1 := by
    cases r.depth with
    | zero => rfl
    | succ depth => rw [generationDistanceInternal, hnil, searchDerived]
  rw [generationDistance, if_neg hne, hinternal, ite_self]

theorem generationDistance_self (h : r.isExisting x) : r.generationDistance x x = 0 := by
  rw [generationDistance, if_neg (by simp [h]), if_pos rfl]

/-- The comparison is not strict. -/
theorem before_self (h : r.isExisting x) : r.before x x = true := by
  rw [before, generationDistance_self h, if_neg (by decide), if_pos (by decide)]

end Distance

section MostRelated
variable {r : Registry Factory} {m : ClassId} {f : Factory}

structure Tops (r : Registry Factory) (m : ClassId) (classes : List ClassId) : Prop where
  last : r.isLast m
  exists_top : r.isExisting m
  bases : ∀ x ∈ classes, r.isExisting x → x ≠ m → r.Derives x m

theorem Tops.before_top {classes : List ClassId} (h : r.Tops m classes) {x : ClassId}
    (hx : x ∈ classes) (hexists : r.isExisting x) (hne : x ≠ m) : r.before x m = true := by
  have hpos := generationDistance_pos (h.bases x hx hexists hne) hexists h.exists_top
  have hneg := generationDistance_neg h.last (Ne.symm hne)
  rw [before, if_neg (by omega), if_pos (by omega)]

theorem Tops.not_top_before {classes : List ClassId} (h : r.Tops m classes) {x : ClassId}
    (hx : x ∈ classes) (hexists : r.isExisting x) (hne : x ≠ m) : r.before m x = false := by
  have hpos := generationDistance_pos (h.bases x hx hexists hne) hexists h.exists_top
  rw [before, if_pos hpos]

section Sorted
variable {α : Type} {le : α → α → Prop} [DecidableRel le] {top : α}

theorem orderedInsert_top {xs : List α} (h : ∀ x ∈ xs, ¬le top x) :
    xs.orderedInsert le top = xs ++ [top] := by
  induction xs with
  | nil => rfl
  | cons x xs ih =>
    rw [List.orderedInsert_cons, if_neg (h x List.mem_cons_self), List.cons_append,
      ih fun y hy => h y (List.mem_cons_of_mem x hy)]

theorem getLast_orderedInsert {a : α} {xs : List α} (ha : le a top) (h : xs.getLast? = some top) :
    (xs.orderedInsert le a).getLast? = some top := by
  induction xs with
  | nil => cases h
  | cons x xs ih =>
    rw [List.orderedInsert_cons]
    split
    · rw [List.getLast?_cons_cons, h]
    · next hnot =>
      cases xs with
      | nil =>
        obtain rfl : x = top := by simpa using h
        exact absurd ha hnot
      | cons y ys =>
        have hrest := ih (by simpa using h)
        rw [List.getLast?_cons, hrest]
        rfl

theorem getLast_insertionSort {xs : List α} (hbefore : ∀ x ∈ xs, x ≠ top → le x top)
    (hnot : ∀ x ∈ xs, x ≠ top → ¬le top x) (hself : le top top) (hmem : top ∈ xs) :
    (xs.insertionSort le).getLast? = some top := by
  induction xs with
  | nil => cases hmem
  | cons x xs ih =>
    rw [List.insertionSort_cons]
    by_cases hx : top ∈ xs
    · have hle : le x top := by
        by_cases htop : x = top
        · exact htop ▸ hself
        · exact hbefore x List.mem_cons_self htop
      exact getLast_orderedInsert hle (ih (fun y hy => hbefore y (List.mem_cons_of_mem x hy))
        (fun y hy => hnot y (List.mem_cons_of_mem x hy)) hx)
    · obtain rfl := (List.mem_cons.mp hmem).resolve_right hx
      have hrest : ∀ y ∈ xs.insertionSort le, ¬le top y := by
        intro y hy
        have hy := (List.mem_insertionSort le).mp hy
        exact hnot y (List.mem_cons_of_mem top hy) (ne_of_mem_of_not_mem hy hx)
      rw [orderedInsert_top hrest, List.getLast?_concat]

end Sorted

/-- The most derived class of an object is found, whatever other classes are registered. -/
theorem getMostRelatedFactory_eq {classes : List ClassId} (h : r.Tops m classes)
    (hmem : m ∈ classes) (hf : r.findFactory m = some f) :
    r.getMostRelatedFactory classes = some (m, f) := by
  have hback : (r.sortClasses (classes.filter r.isExisting)).getLast? = some m := by
    apply getLast_insertionSort
    · intro x hx hne
      obtain ⟨hx, hexists⟩ := List.mem_filter.mp hx
      exact h.before_top hx hexists hne
    · intro x hx hne
      obtain ⟨hx, hexists⟩ := List.mem_filter.mp hx
      simp [h.not_top_before hx hexists hne]
    · exact before_self h.exists_top
    · exact List.mem_filter.mpr ⟨hmem, h.exists_top⟩
  have hfactory : (m, f) ∈ r.factories := StdMap.mem_of_lookup hf
  have hdistance := generationDistance_self h.exists_top
  -- the distance to any other class is negative
  have hiff : ∀ e ∈ r.factories,
      (r.isLast e.1 ∧ 0 ≤ r.generationDistance m e.1) ↔ e.1 = (m, f).1 := by
    intro e _
    constructor
    · rintro ⟨-, hle⟩
      by_contra hne
      rw [generationDistance_neg h.last (Ne.symm hne)] at hle
      exact absurd hle (by decide)
    · intro he
      rw [he, hdistance]
      exact ⟨h.last, Int.le_refl _⟩
  rw [getMostRelatedFactory, hback]
  simp only
  rw [← Tables.find_of_key r.factories_nodup hfactory]
  apply List.find?_congr
  intro e he
  exact decide_eq_decide.mpr (hiff e he)

end MostRelated

end Registry

end AetherClient
