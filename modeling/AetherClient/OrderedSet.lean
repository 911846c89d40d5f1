import Mathlib.Order.Lattice
import Mathlib.Tactic.Common

set_option autoImplicit false

namespace AetherClient.OrderedSet

variable {α κ : Type} [LinearOrder κ] (key : α → κ)

def insert (x : α) : List α → List α
  | [] => [x]
  | y :: ys =>
    if key x < key y then x :: y :: ys
    else if key y < key x then y :: insert x ys
    else y :: ys

def contains (x : α) : List α → Bool
  | [] => false
  | y :: ys =>
    if key x < key y then false
    else if key y < key x then contains x ys
    else true

def Sorted (l : List α) : Prop := l.Pairwise fun x y => key x < key y

variable {key} {x y : α} {l : List α}

theorem key_mem_insert {k : κ} : k ∈ (insert key x l).map key ↔ k = key x ∨ k ∈ l.map key := by
  induction l with
  | nil => simp [insert]
  | cons y ys ih =>
    rw [insert]
    split_ifs with hlt hgt
    · simp
    · simp only [List.map_cons, List.mem_cons, ih]
      tauto
    · have heq : key x = key y := le_antisymm (not_lt.mp hgt) (not_lt.mp hlt)
      simp [heq]

theorem Sorted.insert (h : Sorted key l) : Sorted key (insert key x l) := by
  induction l with
  | nil => exact List.pairwise_singleton _ x
  | cons y ys ih =>
    obtain ⟨hy, hys⟩ := List.pairwise_cons.mp h
    rw [OrderedSet.insert]
    split_ifs with hlt hgt
    · refine List.pairwise_cons.mpr ⟨?_, h⟩
      intro z hz
      obtain rfl | hz := List.mem_cons.mp hz
      · exact hlt
      · exact hlt.trans (hy z hz)
    · refine List.pairwise_cons.mpr ⟨?_, ih hys⟩
      intro z hz
      obtain heq | hz := key_mem_insert.mp (List.mem_map_of_mem hz)
      · rw [heq]
        exact hgt
      · obtain ⟨u, hu, heq⟩ := List.mem_map.mp hz
        rw [← heq]
        exact hy u hu
    · exact h

theorem Sorted.contains_iff (h : Sorted key l) : contains key x l = true ↔ key x ∈ l.map key := by
  induction l with
  | nil => simp [contains]
  | cons y ys ih =>
    obtain ⟨hy, hys⟩ := List.pairwise_cons.mp h
    rw [contains, List.map_cons, List.mem_cons]
    by_cases hlt : key x < key y
    · rw [if_pos hlt]
      refine iff_of_false Bool.false_ne_true ?_
      rintro (heq | hmem)
      · exact hlt.ne heq
      · obtain ⟨u, hu, heq⟩ := List.mem_map.mp hmem
        exact (hlt.trans (hy u hu)).ne heq.symm
    · rw [if_neg hlt]
      by_cases hgt : key y < key x
      · rw [if_pos hgt, ih hys, or_iff_right hgt.ne']
      · rw [if_neg hgt]
        exact iff_of_true rfl (.inl (le_antisymm (not_lt.mp hgt) (not_lt.mp hlt)))

end AetherClient.OrderedSet
