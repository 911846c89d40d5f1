import Mathlib.Data.List.Pairwise
import Mathlib.Tactic.Common

set_option autoImplicit false

namespace AetherClient.Intervals

variable {α : Type}

def Covers (lo hi : α → ℕ) (x : α) (i : ℕ) : Prop := lo x ≤ i ∧ i ≤ hi x

instance (lo hi : α → ℕ) (x : α) (i : ℕ) : Decidable (Covers lo hi x i) :=
  inferInstanceAs (Decidable (_ ∧ _))

def Separate (lo hi : α → ℕ) (xs : List α) : Prop :=
  xs.Pairwise fun x y => hi x < lo y ∨ hi y < lo x

instance (lo hi : α → ℕ) (xs : List α) : Decidable (Separate lo hi xs) :=
  inferInstanceAs (Decidable (List.Pairwise _ _))

section Rules
variable {lo hi : α → ℕ} {xs : List α} {x y : α} {i : ℕ}

theorem Separate.apart (h : Separate lo hi xs) (hx : x ∈ xs) (hy : y ∈ xs) (hne : x ≠ y) :
    hi x < lo y ∨ hi y < lo x := by
  have hsymm : Std.Symm fun x y => hi x < lo y ∨ hi y < lo x := ⟨fun _ _ h => h.symm⟩
  exact List.Pairwise.forall h hx hy hne

theorem Separate.eq_of_covers (h : Separate lo hi xs) (hx : x ∈ xs) (hy : y ∈ xs)
    (hxi : Covers lo hi x i) (hyi : Covers lo hi y i) : x = y := by
  by_contra hne
  obtain ⟨hx1, hx2⟩ := hxi
  obtain ⟨hy1, hy2⟩ := hyi
  rcases h.apart hx hy hne with hlt | hlt
  · omega
  · omega

theorem Separate.filter_covers (h : Separate lo hi xs) (hx : x ∈ xs)
    (hi' : Covers lo hi x i) : xs.filter (fun y => Covers lo hi y i) = [x] := by
  induction xs with
  | nil => cases hx
  | cons y ys ih =>
    obtain ⟨hy, hys⟩ := List.pairwise_cons.1 h
    have hnone : ∀ z, Covers lo hi z i → ∀ u, hi z < lo u ∨ hi u < lo z → ¬ Covers lo hi u i := by
      intro z hz u hu hc
      unfold Covers at hz hc
      omega
    rcases List.mem_cons.1 hx with rfl | hmem
    · rw [List.filter_cons_of_pos (by simpa using hi'), List.filter_eq_nil_iff.2]
      intro u hu
      simpa using hnone x hi' u (hy u hu)
    · have hyi := hnone x hi' y (hy x hmem).symm
      rw [List.filter_cons_of_neg (by simpa using hyi)]
      exact ih hys hmem

theorem Separate.sublist {ys : List α} (h : Separate lo hi xs) (hs : ys.Sublist xs) :
    Separate lo hi ys :=
  List.Pairwise.sublist hs h

theorem Separate.filterMap {f : α → Option α} (h : Separate lo hi xs)
    (hf : ∀ x ∈ xs, ∀ y, f x = some y → lo x ≤ lo y ∧ hi y ≤ hi x) :
    Separate lo hi (xs.filterMap f) := by
  unfold Separate at h ⊢
  rw [List.pairwise_filterMap]
  refine h.imp_of_mem ?_
  intro x y hx hy hxy u hu v hv
  have hxu := hf x hx u hu
  have hyv := hf y hy v hv
  omega

theorem Separate.concat (h : Separate lo hi xs)
    (hx : ∀ y ∈ xs, hi y < lo x ∨ hi x < lo y) : Separate lo hi (xs ++ [x]) := by
  refine List.pairwise_append.2 ⟨h, List.pairwise_singleton _ _, ?_⟩
  intro y hy z hz
  rw [List.mem_singleton.1 hz]
  exact hx y hy

end Rules
end AetherClient.Intervals
