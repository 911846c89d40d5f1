import Mathlib.Data.List.Basic
import Mathlib.Data.List.Infix
import Mathlib.Tactic.Common

set_option autoImplicit false

namespace AetherClient.Pieces

variable {α : Type} {stream more data rest : List α} {offset n : ℕ}

def IsPiece (stream : List α) (offset : ℕ) (data : List α) : Prop := data <+: stream.drop offset

instance [DecidableEq α] (stream : List α) (offset : ℕ) (data : List α) :
    Decidable (IsPiece stream offset data) :=
  inferInstanceAs (Decidable (data <+: stream.drop offset))

theorem IsPiece.length_le (h : IsPiece stream offset data) :
    data.length ≤ stream.length - offset := by
  simpa only [List.length_drop] using List.IsPrefix.length_le h

theorem IsPiece.end_le (h : IsPiece stream offset data) (hd : data ≠ []) :
    offset + data.length ≤ stream.length := by
  have hl := h.length_le
  have hp := List.length_pos_iff.2 hd
  omega

theorem IsPiece.extend (h : IsPiece stream offset data) (hd : data ≠ []) :
    IsPiece (stream ++ more) offset data := by
  have he := h.end_le hd
  unfold IsPiece at h ⊢
  rw [List.drop_append_of_le_length (by omega)]
  exact h.trans (List.prefix_append _ _)

theorem IsPiece.take (h : IsPiece stream offset data) : IsPiece stream offset (data.take n) :=
  (List.take_prefix n data).trans h

theorem IsPiece.drop (h : IsPiece stream offset data) :
    IsPiece stream (offset + n) (data.drop n) := by
  obtain ⟨t, ht⟩ := h
  refine ⟨t.drop (n - data.length), ?_⟩
  rw [← List.drop_drop, ← ht, List.drop_append]

theorem IsPiece.append (h : IsPiece stream offset data)
    (h' : IsPiece stream (offset + data.length) rest) :
    IsPiece stream offset (data ++ rest) := by
  obtain ⟨t, ht⟩ := h
  unfold IsPiece at h'
  rw [← List.drop_drop, ← ht, List.drop_left] at h'
  unfold IsPiece
  rw [← ht]
  exact (List.prefix_append_right_inj data).2 h'

theorem IsPiece.take_append (h : IsPiece stream offset data) (ho : offset ≤ stream.length) :
    stream.take offset ++ data = stream.take (offset + data.length) := by
  obtain ⟨t, ht⟩ := h
  have hs : stream = stream.take offset ++ (data ++ t) := by
    rw [ht, List.take_append_drop]
  have hl : (stream.take offset).length = offset := by
    rw [List.length_take, Nat.min_eq_left ho]
  calc
    stream.take offset ++ data
      = (stream.take offset ++ (data ++ t)).take (offset + data.length) := by
        rw [← List.append_assoc]
        exact (List.take_left' (by simp [hl])).symm
    _ = stream.take (offset + data.length) := by rw [← hs]

theorem isPiece_self (pre : List α) : IsPiece (pre ++ data ++ more) pre.length data := by
  unfold IsPiece
  rw [List.append_assoc, List.drop_left]
  exact List.prefix_append _ _

theorem split_at_first (p : α → Bool) (l : List α) :
    (l.dropWhile (fun x => !p x) = [] ∧ l.takeWhile (fun x => !p x) = l ∧
      ∀ x ∈ l, p x = false) ∨
    ∃ pre x post, l = pre ++ x :: post ∧ l.takeWhile (fun x => !p x) = pre ∧
      l.dropWhile (fun x => !p x) = x :: post ∧ (∀ y ∈ pre, p y = false) ∧ p x = true := by
  induction l with
  | nil =>
    left
    simp
  | cons a l ih =>
    cases ha : p a with
    | true =>
      right
      exact ⟨[], a, l, rfl, by simp [ha], by simp [ha], by simp, ha⟩
    | false =>
      rcases ih with ⟨hd, ht, hall⟩ | ⟨pre, x, post, hl, ht, hd, hpre, hx⟩
      · left
        refine ⟨by simp [ha, hd], by simp [ha, ht], ?_⟩
        simpa [ha] using hall
      · right
        refine ⟨a :: pre, x, post, by simp [hl], by simp [ha, ht], by simp [ha, hd], ?_, hx⟩
        simpa [ha] using hpre

end AetherClient.Pieces
