import Mathlib.Algebra.BigOperators.Group.Finset.Basic
import Mathlib.Algebra.BigOperators.Group.Finset.Piecewise
import Mathlib.Algebra.Order.BigOperators.Group.Finset
import Mathlib.Data.Fintype.EquivFin
import Mathlib.Data.List.Count
import Mathlib.Logic.Relation
import Mathlib.Tactic.Common

set_option autoImplicit false

/-!
# Counted references

A directed multigraph is given by the list of successors of each node. It is seen from a
finite set `L` of live nodes and a list of references into it from outside. A node may go
if no outside reference leads to it; the question is what the counters of the nodes
tell about that. The rule of trial deletion counts the references that come from a part
below a node and compares. It is sound for every part, and complete for the whole of it.
-/
namespace AetherClient.RefGraph

variable {α : Type}

inductive ReachIn (succ : α → List α) (L : Finset α) (starts : List α) : α → Prop where
  | start {a : α} : a ∈ starts → a ∈ L → ReachIn succ L starts a
  | step {a b : α} : ReachIn succ L starts a → b ∈ succ a → b ∈ L → ReachIn succ L starts b

section Reach
variable {succ : α → List α} {L : Finset α} {starts : List α} {a b : α}

theorem ReachIn.mem (h : ReachIn succ L starts a) : a ∈ L := by
  cases h with
  | start _ ha => exact ha
  | step _ _ ha => exact ha

theorem ReachIn.trans {more : List α} (h : ReachIn succ L starts a)
    (hs : ∀ s ∈ starts, s ∈ L → ReachIn succ L more s) : ReachIn succ L more a := by
  induction h with
  | start hm hL => exact hs _ hm hL
  | step _ he hL ih => exact ih.step he hL

theorem ReachIn.of_closed {P : α → Prop} (h : ReachIn succ L starts a)
    (hs : ∀ s ∈ starts, s ∈ L → P s) (he : ∀ c, P c → ∀ d ∈ succ c, d ∈ L → P d) : P a := by
  induction h with
  | start hm hL => exact hs _ hm hL
  | step _ hb hL ih => exact he _ ih _ hb hL

theorem not_reachIn_nil : ¬ ReachIn succ L [] a := fun h =>
  h.of_closed (P := fun _ => False) (fun _ hs _ => List.not_mem_nil hs) fun _ hf _ _ _ => hf

theorem ReachIn.cons_cases {y : α} (h : ReachIn succ L (y :: starts) a) :
    ReachIn succ L [y] a ∨ ReachIn succ L starts a := by
  induction h with
  | start hm hL =>
    rcases List.mem_cons.1 hm with rfl | hm
    · exact Or.inl (.start (List.mem_singleton_self _) hL)
    · exact Or.inr (.start hm hL)
  | step _ he hL ih => exact ih.imp (fun h => h.step he hL) fun h => h.step he hL

theorem ReachIn.of_singleton {z : α} (h : ReachIn succ L [z] a) :
    a = z ∨ ReachIn succ L (succ z) a := by
  induction h with
  | start hm _ => exact Or.inl (List.mem_singleton.1 hm)
  | step _ he hL ih =>
    right
    rcases ih with rfl | hr
    · exact .start he hL
    · exact hr.step he hL

theorem ReachIn.of_succ {z : α} (hz : z ∈ L) (h : ReachIn succ L (succ z) a) :
    ReachIn succ L [z] a :=
  h.trans fun _ hs hL => (ReachIn.start (List.mem_singleton_self z) hz).step hs hL

theorem ReachIn.exists_start (h : ReachIn succ L starts a) :
    ∃ z ∈ starts, z ∈ L ∧ ReachIn succ L [z] a := by
  induction h with
  | @start c hm hL => exact ⟨c, hm, hL, .start (List.mem_singleton_self c) hL⟩
  | step _ he hL ih =>
    obtain ⟨z, hz, hzL, hr⟩ := ih
    exact ⟨z, hz, hzL, hr.step he hL⟩

theorem ReachIn.restrict {M : Finset α} (h : ReachIn succ L starts a)
    (hM : ∀ c, ReachIn succ L starts c → c ∈ M) : ReachIn succ M starts a := by
  induction h with
  | start hm hL => exact .start hm (hM _ (.start hm hL))
  | step hr he hL ih => exact ih.step he (hM _ (hr.step he hL))

theorem ReachIn.mono {M : Finset α} (h : ReachIn succ L starts a) (hM : L ⊆ M) :
    ReachIn succ M starts a := by
  induction h with
  | start hm hL => exact .start hm (hM hL)
  | step _ he hL ih => exact ih.step he (hM hL)

theorem reachIn_succ_iff (hclosed : ∀ n ∈ L, ∀ c ∈ succ n, c ∈ L) (ha : a ∈ L) :
    ReachIn succ L (succ a) b ↔ Relation.TransGen (fun c d => d ∈ succ c) a b := by
  constructor
  · intro h
    induction h with
    | start hm _ => exact .single hm
    | step _ he _ ih => exact ih.tail he
  · intro h
    induction h with
    | single he => exact .start he (hclosed a ha _ he)
    | tail _ he ih => exact ih.step he (hclosed _ ih.mem _ he)

open Classical in
noncomputable def reachSet (succ : α → List α) (L : Finset α) (starts : List α) : Finset α :=
  L.filter (ReachIn succ L starts)

theorem mem_reachSet : a ∈ reachSet succ L starts ↔ ReachIn succ L starts a := by
  classical
  unfold reachSet
  rw [Finset.mem_filter]
  exact ⟨fun h => h.2, fun h => ⟨h.mem, h⟩⟩

theorem reachSet_subset : reachSet succ L starts ⊆ L := fun _ h => (mem_reachSet.1 h).mem

theorem ReachIn.mono_starts {more : List α} (h : ReachIn succ L starts a)
    (hm : starts ⊆ more) : ReachIn succ L more a :=
  h.trans fun _ hs hL => .start (hm hs) hL

theorem reachIn_reachSet {more : List α} (hm : starts ⊆ more) :
    ReachIn succ (reachSet succ L more) starts a ↔ ReachIn succ L starts a :=
  ⟨fun h => h.mono reachSet_subset,
    fun h => h.restrict fun _ hc => mem_reachSet.2 (hc.mono_starts hm)⟩

noncomputable def sub (succ : α → List α) (L : Finset α) (y : α) : Finset α :=
  reachSet succ L [y]

theorem mem_sub {y : α} : a ∈ sub succ L y ↔ ReachIn succ L [y] a := mem_reachSet

theorem sub_subset {y : α} : sub succ L y ⊆ L := fun _ h => (mem_sub.1 h).mem

theorem self_mem_sub {y : α} (hy : y ∈ L) : y ∈ sub succ L y :=
  mem_sub.2 (.start (List.mem_singleton_self y) hy)

def Rooted (succ : α → List α) (L : Finset α) (ext : List α) : Prop :=
  ∀ a ∈ L, ReachIn succ L ext a

theorem Rooted.of_cons {y : α} {ext : List α} (hroot : Rooted succ L (y :: ext))
    (hy : y ∈ L → ReachIn succ L ext y) : Rooted succ L ext := by
  intro a ha
  refine (hroot a ha).trans fun s hs hL => ?_
  rcases List.mem_cons.1 hs with rfl | hs
  · exact hy hL
  · exact .start hs hL

end Reach

section Counts
variable [DecidableEq α] {succ : α → List α} {L S : Finset α} {ext : List α} {a b y : α}

theorem ReachIn.erase (h : ReachIn succ L (y :: ext) a) :
    a = y ∨ ReachIn succ (L.erase y) (succ y ++ ext) a := by
  induction h with
  | @start c hm hL =>
    by_cases hc : c = y
    · exact Or.inl hc
    · right
      have hext : c ∈ ext := (List.mem_cons.1 hm).resolve_left hc
      exact .start (List.mem_append_right _ hext) (Finset.mem_erase.2 ⟨hc, hL⟩)
  | @step c d _ he hL ih =>
    by_cases hd : d = y
    · exact Or.inl hd
    · right
      have hmem := Finset.mem_erase.2 ⟨hd, hL⟩
      rcases ih with rfl | hr
      · exact .start (List.mem_append_left _ he) hmem
      · exact hr.step he hmem

theorem reachIn_erase (hy : ¬ ReachIn succ L ext y) :
    ReachIn succ (L.erase y) ext a ↔ ReachIn succ L ext a := by
  refine ⟨fun h => h.mono (Finset.erase_subset y L), fun h => h.restrict fun c hc => ?_⟩
  refine Finset.mem_erase.2 ⟨?_, hc.mem⟩
  rintro rfl
  exact hy hc

def inDegree (succ : α → List α) (L : Finset α) (a : α) : ℕ := ∑ o ∈ L, (succ o).count a

theorem inDegree_pos_iff : 0 < inDegree succ L a ↔ ∃ o ∈ L, a ∈ succ o := by
  unfold inDegree
  rw [Finset.sum_pos_iff]
  simp only [List.count_pos_iff]

theorem inDegree_sub_of_no_cycle (hy : y ∈ L) (hno : ¬ ReachIn succ L (succ y) y) :
    inDegree succ (sub succ L y) y = 0 := by
  by_contra hne
  obtain ⟨x, hx, hedge⟩ := inDegree_pos_iff.1 (Nat.pos_of_ne_zero hne)
  rcases (mem_sub.1 hx).of_singleton with rfl | hr
  · exact hno (.start hedge hy)
  · exact hno (hr.step hedge hy)

theorem inDegree_erase (hy : y ∈ L) (a : α) :
    inDegree succ L a = (succ y).count a + inDegree succ (L.erase y) a :=
  (Finset.add_sum_erase L (fun o => (succ o).count a) hy).symm

theorem inDegree_sdiff (hS : S ⊆ L) (a : α) :
    inDegree succ L a = inDegree succ S a + inDegree succ (L \ S) a := by
  unfold inDegree
  rw [add_comm]
  exact (Finset.sum_sdiff hS).symm

theorem ReachIn.counted (h : ReachIn succ L ext a) : 0 < ext.count a + inDegree succ L a := by
  cases h with
  | start hm _ =>
    have := List.count_pos_iff.2 hm
    omega
  | step hr he _ =>
    have := inDegree_pos_iff.2 ⟨_, hr.mem, he⟩
    omega

/-- The rule of trial deletion on the nodes of `S`: all references to `y` but one come from
`S`, and no other node of `S` that is referred to from elsewhere leads back to `y`. -/
structure Collectable (succ : α → List α) (S : Finset α) (ref : α → ℕ) (y : α) : Prop where
  alone : ref y = 1 + inDegree succ S y
  others : ∀ z ∈ S, z ≠ y → inDegree succ S z < ref z → ¬ ReachIn succ S (succ z) y

theorem Rooted.erase {out : List α} (hroot : Rooted succ L (y :: ext)) (hout : succ y ⊆ out) :
    Rooted succ (L.erase y) (out ++ ext) := by
  intro a ha
  obtain ⟨hne, hL⟩ := Finset.mem_erase.1 ha
  refine ((hroot a hL).erase.resolve_left hne).mono_starts fun b hb => ?_
  rcases List.mem_append.1 hb with hb | hb
  · exact List.mem_append_left _ (hout hb)
  · exact List.mem_append_right _ hb

section Collect
variable {ref : α → ℕ}

theorem ref_eq_sdiff (hcnt : ∀ a ∈ L, ref a = (y :: ext).count a + inDegree succ L a)
    (hS : S ⊆ L) (ha : a ∈ L) :
    ref a = (y :: ext).count a + inDegree succ (L \ S) a + inDegree succ S a := by
  rw [hcnt a ha, inDegree_sdiff hS]
  omega

section Seen
variable {seen : α → List α}

theorem inDegree_le (hle : ∀ c ∈ L, ∀ b, (seen c).count b ≤ (succ c).count b) (a : α) :
    inDegree seen L a ≤ inDegree succ L a :=
  Finset.sum_le_sum fun c hc => hle c hc a

theorem mem_of_inDegree_eq (hle : ∀ c ∈ L, ∀ b, (seen c).count b ≤ (succ c).count b)
    (heq : inDegree seen L b = inDegree succ L b) (ha : a ∈ L) (hb : b ∈ succ a) : b ∈ seen a := by
  have hterms := (Finset.sum_eq_sum_iff_of_le fun c hc => hle c hc b).1 heq
  rw [← List.count_pos_iff, hterms a ha]
  exact List.count_pos_iff.2 hb

/-- The rule is sound if some of the edges are not seen: `y` is not reached without the reference
that is given up. -/
theorem Collectable.not_reachIn (hc : Collectable seen L ref y)
    (hle : ∀ c ∈ L, ∀ b, (seen c).count b ≤ (succ c).count b)
    (hcnt : ∀ a ∈ L, ref a = (y :: ext).count a + inDegree succ L a) : ¬ ReachIn succ L ext y := by
  -- a node that leads to `y` over edges that are seen is not reached
  suffices h : ∀ a, ReachIn succ L ext a → ¬(a = y ∨ ReachIn seen L (seen a) y) from
    fun hr => h y hr (Or.inl rfl)
  intro a hr
  -- and then all references to it are seen
  have hall : ∀ b ∈ L, b = y ∨ ReachIn seen L (seen b) y →
      ext.count b = 0 ∧ inDegree seen L b = inDegree succ L b := by
    rintro b hb hy
    have hdeg := inDegree_le hle b
    have href := hcnt b hb
    by_cases hby : b = y
    · subst hby
      have := hc.alone
      rw [List.count_cons_self] at href
      omega
    · have := mt (hc.others b hb hby) (not_not_intro (hy.resolve_left hby))
      rw [List.count_cons_of_ne (Ne.symm hby)] at href
      omega
  induction hr with
  | start hm hL =>
    intro hy
    exact (List.count_pos_iff.2 hm).ne' (hall _ hL hy).1
  | @step c d hr he hL ih =>
    intro hy
    have hseen := mem_of_inDegree_eq hle (hall d hL hy).2 hr.mem he
    refine ih (Or.inr ?_)
    rcases hy with rfl | hy
    · exact .start hseen hL
    · exact hy.trans fun s hs hsL => (ReachIn.start hseen hL).step hs hsL

end Seen

theorem Rooted.reachIn_of_outside (hroot : Rooted succ L (y :: ext)) (ha : a ∈ L)
    (hpos : 0 < ext.count a + inDegree succ (L \ sub succ L y) a) : ReachIn succ L ext a := by
  by_cases hm : a ∈ ext
  · exact .start hm ha
  · have hzero : ext.count a = 0 := List.count_eq_zero.2 hm
    obtain ⟨o, ho, he⟩ := inDegree_pos_iff.1 (show 0 < inDegree succ (L \ sub succ L y) a by omega)
    obtain ⟨hoL, hoS⟩ := Finset.mem_sdiff.1 ho
    rcases (hroot o hoL).cons_cases with hr | hr
    · exact absurd (mem_sub.2 hr) hoS
    · exact hr.step he ha

/-- On the whole part below `y` the rule is also complete, if every live node is reached from
`y` or from outside. -/
theorem Rooted.collectable (hroot : Rooted succ L (y :: ext))
    (hcnt : ∀ a ∈ L, ref a = (y :: ext).count a + inDegree succ L a) (hy : y ∈ L)
    (hr : ¬ ReachIn succ L ext y) : Collectable succ (sub succ L y) ref y := by
  refine ⟨?_, ?_⟩
  · have hself : (y :: ext).count y = ext.count y + 1 := List.count_cons_self
    have hzero : ext.count y + inDegree succ (L \ sub succ L y) y = 0 := by
      by_contra hne
      exact hr (hroot.reachIn_of_outside hy (Nat.pos_of_ne_zero hne))
    have := ref_eq_sdiff hcnt sub_subset hy (S := sub succ L y)
    omega
  · intro z hz he hlt hback
    have hzL := sub_subset hz
    have hrefz := ref_eq_sdiff hcnt sub_subset hzL (S := sub succ L y)
    have hcount : (y :: ext).count z = ext.count z := List.count_cons_of_ne (Ne.symm he)
    have hzr : ReachIn succ L ext z := hroot.reachIn_of_outside hzL (by omega)
    exact hr ((hback.mono sub_subset).trans fun s hs hL => hzr.step hs hL)

theorem collectable_congr {seen : α → List α} (hS : S ⊆ L) (hy : y ∈ S)
    (hclosed : ∀ a ∈ S, ∀ b ∈ succ a, b ∈ L → b ∈ S)
    (hsame : ∀ a ∈ S, ∀ b ∈ L, (seen a).count b = (succ a).count b)
    (hnone : ∀ a ∈ L, a ∉ S → seen a = []) :
    Collectable seen L ref y ↔ Collectable succ S ref y := by
  have hdeg : ∀ b ∈ L, inDegree seen L b = inDegree succ S b := by
    intro b hb
    refine (Finset.sum_subset hS fun o ho hnot => ?_).symm.trans
      (Finset.sum_congr rfl fun a ha => hsame a ha b hb)
    rw [hnone o ho hnot, List.count_nil]
  have hmem : ∀ a ∈ S, ∀ b ∈ L, b ∈ seen a ↔ b ∈ succ a := by
    intro a ha b hb
    rw [← List.count_pos_iff, hsame a ha b hb, List.count_pos_iff]
  have hreach : ∀ z ∈ S, ReachIn seen L (seen z) y ↔ ReachIn succ S (succ z) y := by
    intro z hz
    constructor
    · intro hr
      refine (hr.of_closed (P := fun c => c ∈ S ∧ ReachIn succ S (succ z) c) ?_ ?_).2
      · intro c hc hL
        have hc := (hmem z hz c hL).1 hc
        exact ⟨hclosed z hz c hc hL, .start hc (hclosed z hz c hc hL)⟩
      · rintro c ⟨hcS, hcr⟩ d hd hL
        have hd := (hmem c hcS d hL).1 hd
        exact ⟨hclosed c hcS d hd hL, hcr.step hd (hclosed c hcS d hd hL)⟩
    · intro hr
      refine (hr.of_closed (P := fun c => c ∈ S ∧ ReachIn seen L (seen z) c) ?_ ?_).2
      · exact fun c hc hcS => ⟨hcS, .start ((hmem z hz c (hS hcS)).2 hc) (hS hcS)⟩
      · rintro c ⟨hcS, hcr⟩ d hd hdS
        exact ⟨hdS, hcr.step ((hmem c hcS d (hS hdS)).2 hd) (hS hdS)⟩
  constructor
  · intro hc
    refine ⟨by rw [← hdeg y (hS hy)]; exact hc.alone, fun z hz he hlt hback => ?_⟩
    exact hc.others z (hS hz) he (by rwa [hdeg z (hS hz)]) ((hreach z hz).2 hback)
  · intro hc
    refine ⟨by rw [hdeg y (hS hy)]; exact hc.alone, fun z hz he hlt hback => ?_⟩
    by_cases hzS : z ∈ S
    · exact hc.others z hzS he (by rwa [← hdeg z hz]) ((hreach z hzS).1 hback)
    · rw [hnone z hz hzS] at hback
      exact not_reachIn_nil hback

end Collect

def successors (edges : List (α × α)) (a : α) : List α :=
  (edges.filter fun e => e.1 = a).map Prod.snd

section Successors
variable {edges : List (α × α)}

theorem mem_successors : b ∈ successors edges a ↔ (a, b) ∈ edges := by
  simp only [successors, List.mem_map, List.mem_filter, decide_eq_true_eq]
  constructor
  · rintro ⟨e, ⟨he, rfl⟩, rfl⟩
    exact he
  · exact fun he => ⟨(a, b), ⟨he, rfl⟩, rfl⟩

theorem inDegree_successors (hfrom : ∀ e ∈ edges, e.1 ∈ L) (b : α) :
    inDegree (successors edges) L b = (edges.map Prod.snd).count b := by
  induction edges with
  | nil => simp [inDegree, successors]
  | cons e rest ih =>
    have hcons : ∀ a, (successors (e :: rest) a).count b =
        (if e.1 = a then (if e.2 = b then 1 else 0) else 0) + (successors rest a).count b := by
      intro a
      by_cases ha : e.1 = a <;> by_cases hb : e.2 = b <;> simp [successors, ha, hb, Nat.add_comm]
    have hrest := ih fun d hd => hfrom d (List.mem_cons_of_mem _ hd)
    unfold inDegree at hrest ⊢
    simp only [hcons, Finset.sum_add_distrib, hrest, Finset.sum_ite_eq,
      hfrom e List.mem_cons_self, if_true, List.map_cons, List.count_cons, beq_iff_eq]
    omega

end Successors
end Counts

section Edges
open Relation
variable {r r' : α → α → Prop} {X : α → Prop} {y : α}

theorem transGen_of_edges (h : ∀ a b, r' a b → r a b ∨ X a ∧ b = y) {a b : α}
    (hab : TransGen r' a b) :
    TransGen r a b ∨ ∃ x, X x ∧ ReflTransGen r a x ∧ ReflTransGen r y b := by
  induction hab with
  | single hb =>
    obtain hr | ⟨hx, rfl⟩ := h _ _ hb
    · exact .inl (.single hr)
    · exact .inr ⟨a, hx, .refl, .refl⟩
  | @tail b c _ hbc ih =>
    obtain hr | ⟨hx, rfl⟩ := h _ _ hbc
    · exact ih.imp (fun h => h.tail hr) fun ⟨x, hx, hax, hyb⟩ => ⟨x, hx, hax, hyb.tail hr⟩
    · obtain hab | ⟨x, hx', hax, -⟩ := ih
      · exact .inr ⟨b, hx, hab.to_reflTransGen, .refl⟩
      · exact .inr ⟨x, hx', hax, .refl⟩

theorem acyclic_of_edges (h : ∀ a b, r' a b → r a b ∨ X a ∧ b = y) (hr : ∀ a, ¬TransGen r a a)
    (hback : ∀ x, X x → ¬ReflTransGen r y x) (a : α) : ¬TransGen r' a a := by
  intro ha
  obtain ha | ⟨x, hx, hax, hya⟩ := transGen_of_edges h ha
  · exact hr a ha
  · exact hback x hx (hya.trans hax)

end Edges

section Acyclic
open Relation
variable {succ : α → List α} {L : Finset α} {starts : List α} {a : α}

theorem reachIn_of_acyclic (hacyclic : ∀ a, ¬TransGen (fun a b => b ∈ succ a) a a)
    (hheld : ∀ a ∈ L, a ∈ starts ∨ ∃ x ∈ L, a ∈ succ x) (ha : a ∈ L) :
    ReachIn succ L starts a := by
  let before (x y : {a // a ∈ L}) : Prop := TransGen (fun a b => b ∈ succ a) x.1 y.1
  have : IsTrans _ before := ⟨fun _ _ _ hxy hyz => hxy.trans hyz⟩
  have : Std.Irrefl before := ⟨fun x hx => hacyclic x.1 hx⟩
  have hwf : WellFounded before := Finite.wellFounded_of_trans_of_irrefl _
  suffices h : ∀ x : {a // a ∈ L}, ReachIn succ L starts x.1 from h ⟨a, ha⟩
  intro x
  induction x using hwf.induction with
  | _ y ih =>
    obtain hstart | ⟨x, hx, hedge⟩ := hheld y.1 y.2
    · exact .start hstart y.2
    · exact (ih ⟨x, hx⟩ (.single hedge)).step hedge y.2

end Acyclic
end AetherClient.RefGraph
