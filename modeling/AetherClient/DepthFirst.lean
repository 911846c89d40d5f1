import Mathlib.Data.Finset.Card
import Mathlib.Logic.Relation
import Mathlib.Tactic.Common

set_option autoImplicit false

namespace AetherClient.DepthFirst
open Relation

variable {α : Type} [DecidableEq α]

/-- The loop over the successors of a node. `call` is the search from one of them; it has no
result if it does not come to an end. -/
def scan (hit : α → Bool) (call : List α → α → Option (Bool × List α)) :
    List α → List α → Option (Bool × List α)
  | [], visited => some (false, visited)
  | c :: cs, visited =>
    if hit c then some (true, visited)
    else if c ∈ visited then scan hit call cs visited
    else
      match call visited c with
      | none => none
      | some (true, after) => some (true, after)
      | some (false, after) => scan hit call cs after

/-- The search from a node, with calls nested at most `fuel` deep. -/
def search (succ : α → List α) (hit : α → Bool) : ℕ → List α → α → Option (Bool × List α)
  | 0, _, _ => none
  | fuel + 1, visited, n => scan hit (search succ hit fuel) (succ n) (n :: visited)

section Fuel
variable {succ : α → List α} {hit : α → Bool}

theorem scan_mono {call call' : List α → α → Option (Bool × List α)}
    (hcall : ∀ visited n r, call visited n = some r → call' visited n = some r)
    (cs visited : List α) {r : Bool × List α} (h : scan hit call cs visited = some r) :
    scan hit call' cs visited = some r := by
  induction cs generalizing visited with
  | nil => exact h
  | cons c cs ih =>
    rw [scan] at h ⊢
    split_ifs at h ⊢ with hhit hvisited
    · exact h
    · exact ih visited h
    · cases hc : call visited c with
      | none =>
        rw [hc] at h
        cases h
      | some res =>
        obtain ⟨found, after⟩ := res
        rw [hc] at h
        rw [hcall visited c _ hc]
        cases found with
        | true => exact h
        | false => exact ih after h

theorem search_succ (fuel : ℕ) {visited : List α} {n : α} {r : Bool × List α}
    (h : search succ hit fuel visited n = some r) :
    search succ hit (fuel + 1) visited n = some r := by
  induction fuel generalizing visited n r with
  | zero => cases h
  | succ fuel ih => exact scan_mono (fun _ _ _ hr => ih hr) _ _ h

theorem search_mono {fuel fuel' : ℕ} (hle : fuel ≤ fuel') {visited : List α} {n : α}
    {r : Bool × List α} (h : search succ hit fuel visited n = some r) :
    search succ hit fuel' visited n = some r := by
  induction hle with
  | refl => exact h
  | step _ ih => exact search_succ _ ih

end Fuel

section Outcome
variable (succ : α → List α) (hit : α → Bool)

def Edge (a b : α) : Prop := b ∈ succ a

/-- What lies between `before` and `after`: nodes that lead to nodes of `after` only, none of which
is a hit. -/
structure Finished (before after : List α) : Prop where
  subset : before ⊆ after
  closed : ∀ n ∈ after, n ∉ before → ∀ c ∈ succ n, hit c = false ∧ c ∈ after

inductive Outcome (cs before : List α) : Bool × List α → Prop where
  | found {after : List α} {c b : α} : c ∈ cs → ReflTransGen (Edge succ) c b → hit b = true →
    Outcome cs before (true, after)
  | exhausted {after : List α} : Finished succ hit before after →
    (∀ c ∈ cs, hit c = false ∧ c ∈ after) → Outcome cs before (false, after)

variable {succ hit}

omit [DecidableEq α] in
theorem Finished.refl (visited : List α) : Finished succ hit visited visited :=
  ⟨fun _ h => h, fun _ hn hnot => absurd hn hnot⟩

theorem Finished.trans {v₁ v₂ v₃ : List α} (h : Finished succ hit v₁ v₂)
    (h' : Finished succ hit v₂ v₃) : Finished succ hit v₁ v₃ := by
  refine ⟨fun n hn => h'.subset (h.subset hn), ?_⟩
  intro n hn hnot c hc
  by_cases hmid : n ∈ v₂
  · obtain ⟨hmiss, hin⟩ := h.closed n hmid hnot c hc
    exact ⟨hmiss, h'.subset hin⟩
  · exact h'.closed n hn hmid c hc

theorem Finished.of_cons {n : α} {visited after : List α} (h : Finished succ hit (n :: visited) after)
    (hn : ∀ c ∈ succ n, hit c = false ∧ c ∈ after) : Finished succ hit visited after := by
  refine ⟨fun k hk => h.subset (List.mem_cons_of_mem n hk), ?_⟩
  intro k hk hnot
  by_cases he : k = n
  · rw [he]
    exact hn
  · exact h.closed k hk (by simp [he, hnot])

theorem Outcome.cons {c : α} {cs before mid : List α} {r : Bool × List α}
    (h : Outcome succ hit cs mid r) (hfin : Finished succ hit before mid) (hmiss : hit c = false)
    (hc : c ∈ mid) : Outcome succ hit (c :: cs) before r := by
  cases h with
  | found hd hpath hhit => exact .found (List.mem_cons_of_mem c hd) hpath hhit
  | exhausted hrest hcs =>
    refine .exhausted (hfin.trans hrest) ?_
    intro d hd
    rcases List.mem_cons.1 hd with rfl | hd
    · exact ⟨hmiss, hrest.subset hc⟩
    · exact hcs d hd

section Nodes
variable {P : Finset α}

theorem scan_spec {call : List α → α → Option (Bool × List α)} {bound : ℕ}
    (hcall : ∀ visited n, n ∈ P → n ∉ visited → (P \ visited.toFinset).card ≤ bound →
      ∃ r, call visited n = some r ∧ Outcome succ hit (succ n) (n :: visited) r)
    (cs visited : List α) (hcs : ∀ c ∈ cs, c ∈ P) (hb : (P \ visited.toFinset).card ≤ bound) :
    ∃ r, scan hit call cs visited = some r ∧ Outcome succ hit cs visited r := by
  induction cs generalizing visited with
  | nil => exact ⟨_, rfl, .exhausted (.refl visited) fun c hc => absurd hc List.not_mem_nil⟩
  | cons c cs ih =>
    have hrest : ∀ d ∈ cs, d ∈ P := fun d hd => hcs d (List.mem_cons_of_mem c hd)
    rw [scan]
    split_ifs with hhit hvisited
    · exact ⟨_, rfl, .found List.mem_cons_self .refl hhit⟩
    · obtain ⟨r, hr, hout⟩ := ih visited hrest hb
      exact ⟨r, hr, hout.cons (.refl visited) (by simpa using hhit) hvisited⟩
    · obtain ⟨r, hr, hout⟩ := hcall visited c (hcs c List.mem_cons_self) hvisited hb
      rw [hr]
      cases hout with
      | found hd hpath hb => exact ⟨_, rfl, .found List.mem_cons_self (.head hd hpath) hb⟩
      | @exhausted after hfin hchildren =>
        have hsub : P \ after.toFinset ⊆ P \ visited.toFinset := by
          intro n hn
          simp only [Finset.mem_sdiff, List.mem_toFinset] at hn ⊢
          exact ⟨hn.1, fun h => hn.2 (hfin.subset (List.mem_cons_of_mem c h))⟩
        obtain ⟨r', hr', hout'⟩ := ih after hrest ((Finset.card_le_card hsub).trans hb)
        exact ⟨r', hr', hout'.cons (hfin.of_cons hchildren) (by simpa using hhit)
          (hfin.subset List.mem_cons_self)⟩

omit [DecidableEq α] in
theorem Finished.not_hit {after : List α} (h : Finished succ hit [] after) {n b : α} (hn : n ∈ after)
    (hpath : TransGen (Edge succ) n b) : hit b = false ∧ b ∈ after := by
  induction hpath with
  | single he => exact h.closed n hn List.not_mem_nil _ he
  | tail _ he ih => exact h.closed _ ih.2 List.not_mem_nil _ he

theorem card_unvisited_lt {n : α} {visited : List α} (hn : n ∈ P) (hnot : n ∉ visited) :
    (P \ (n :: visited).toFinset).card < (P \ visited.toFinset).card := by
  apply Finset.card_lt_card
  rw [Finset.ssubset_iff_of_subset]
  · exact ⟨n, by simp [hn, hnot], by simp⟩
  · intro k hk
    simp only [List.toFinset_cons, Finset.mem_sdiff, Finset.mem_insert, not_or] at hk ⊢
    exact ⟨hk.1, hk.2.2⟩

theorem search_outcome (hclosed : ∀ n ∈ P, ∀ c ∈ succ n, c ∈ P) (fuel : ℕ) (visited : List α)
    (n : α) (hn : n ∈ P) (hnot : n ∉ visited) (hb : (P \ visited.toFinset).card ≤ fuel) :
    ∃ r, search succ hit fuel visited n = some r ∧ Outcome succ hit (succ n) (n :: visited) r := by
  induction fuel generalizing visited n with
  | zero =>
    have hlt := card_unvisited_lt hn hnot
    omega
  | succ fuel ih =>
    have hlt := card_unvisited_lt hn hnot
    exact scan_spec ih (succ n) (n :: visited) (hclosed n hn) (by omega)

variable (hit) in
/-- Calls nested as deep as there are nodes are enough, and then the search tells whether a way of
at least one edge leads to a hit. -/
theorem search_spec (hclosed : ∀ n ∈ P, ∀ c ∈ succ n, c ∈ P) {n : α} (hn : n ∈ P) :
    ∃ r, (∀ fuel, P.card ≤ fuel → search succ hit fuel [] n = some r) ∧
      (r.1 = true ↔ ∃ b, TransGen (Edge succ) n b ∧ hit b = true) := by
  have hsearch : ∃ r, search succ hit P.card [] n = some r ∧ Outcome succ hit (succ n) [n] r :=
    search_outcome hclosed P.card [] n hn List.not_mem_nil
      (Finset.card_le_card Finset.sdiff_subset)
  obtain ⟨r, hr, hout⟩ := hsearch
  refine ⟨r, fun fuel hfuel => search_mono hfuel hr, ?_⟩
  cases hout with
  | found hc hpath hb => exact ⟨fun _ => ⟨_, .head' hc hpath, hb⟩, fun _ => rfl⟩
  | exhausted hfin hchildren =>
    constructor
    · intro h
      cases h
    · rintro ⟨b, hpath, hb⟩
      have hmiss := (hfin.of_cons hchildren).not_hit (hfin.subset List.mem_cons_self) hpath
      rw [hmiss.1] at hb
      cases hb

end Nodes
end Outcome
end AetherClient.DepthFirst
