import AetherClient.PtrReset
import Mathlib.Algebra.GroupWithZero.Nat

set_option autoImplicit false

namespace AetherClient
open RefGraph

namespace Heap

def slots (h : Heap) : List PtrSlot := h.freePtrs ++ h.objects.flatMap HeapObject.members

def addresses (h : Heap) : Finset Address := (h.objects.map HeapObject.address).toFinset

def succ (h : Heap) (a : Address) : List Address :=
  ((h.find a).map fun o => targets o.members).getD []

def outerSlots (h : Heap) (S : Finset Address) : List PtrSlot :=
  h.freePtrs ++ (h.objects.filter fun o => o.address ∉ S).flatMap HeapObject.members

/-- A heap of visited objects with exact counters: every `Ptr` leads to an object of the
heap, and each object counts the `Ptr`s to it. -/
structure Exact (h : Heap) : Prop extends h.WellFormed where
  slots : (h.slots.map PtrSlot.address).Nodup
  exist : ∀ t ∈ targets h.slots, t ∈ h.addresses
  counter : ∀ a ∈ h.addresses, (h.refCounter a).toNat = (targets h.slots).count a

def Reachable (h : Heap) (a : Address) : Prop :=
  ReachIn h.succ h.addresses (targets h.freePtrs) a

/-- With `p` gone, the object can be reached from a `Ptr` that is not a member of one of the
objects deleted with it. -/
def StillHeld (h : Heap) (p : PtrSlot) (a : Address) : Prop :=
  ReachIn (h.clear p.address).succ h.addresses
    (targets ((h.clear p.address).outerSlots (h.deletedBy p).toFinset)) a

noncomputable def below (h : Heap) (x : Address) : Finset Address := sub h.succ h.addresses x

def Inside (h : Heap) (p : PtrSlot) (x : Address) : Prop :=
  ∃ o ∈ h.objects, o.address ∈ h.below x ∧ p ∈ o.members

/-- The targets of the other `Ptr`s that are not members of objects below `x`. -/
noncomputable def outside (h : Heap) (p : PtrSlot) (x : Address) : List Address :=
  targets ((h.clear p.address).outerSlots (h.below x))

/-- No other object below `x` that is held from outside leads back to `x`. -/
def NoWayBack (h : Heap) (p : PtrSlot) (x : Address) : Prop :=
  ∀ z ∈ h.below x, z ≠ x → z ∈ h.outside p x → ¬ ReachIn h.succ h.addresses (h.succ z) x

/-- Some member of `x` that the class of `p` reports leads back to `x`. -/
def MeetsAgain (h : Heap) (p : PtrSlot) (x : Address) : Prop :=
  ShowsWay h h.succ h.addresses p.typeIndex x

/-- `Reset` of `p` deletes its target `x`. -/
def LetsGo (h : Heap) (p : PtrSlot) (x : Address) : Prop :=
  (h.refCounter x).toNat = 1 ∨
    (h.MeetsAgain p x ∧ (h.Inside p x → (h.outside p x).count x = 1) ∧
      (¬ h.Inside p x → x ∉ h.outside p x) ∧ h.NoWayBack p x)

/-- The class of a member below `x` reports the members of its target that lead back to the target
on a way around `x`. -/
def CyclesShown (h : Heap) (x : Address) : Prop :=
  ∀ a ∈ h.below x, ∀ o, h.find a = some o → ∀ s ∈ o.members,
    ShowsCycles h h.succ ((h.below x).erase x) s

/-- The object below `x` is held from outside, on a way that does not lead over `x`. -/
def Kept (h : Heap) (p : PtrSlot) (x a : Address) : Prop :=
  ReachIn h.succ ((h.below x).erase x) (h.outside p x) a

section Clear
variable {h : Heap} {p : PtrSlot} {q x a b : Address} {slots : List PtrSlot}

theorem targets_append (s t : List PtrSlot) : targets (s ++ t) = targets s ++ targets t :=
  List.filterMap_append

theorem targets_clearAt (slots : List PtrSlot) (q : Address) :
    targets (slots.map (PtrSlot.clearAt q)) = targets (slots.filter fun s => s.address ≠ q) := by
  induction slots with
  | nil => rfl
  | cons s rest ih =>
    unfold targets at ih ⊢
    by_cases hs : s.address = q
    · simp [PtrSlot.clearAt, hs, ih]
    · cases ht : s.target <;> simp [PtrSlot.clearAt, hs, ih, ht]

theorem targets_clearAt_subset : targets (slots.map (PtrSlot.clearAt q)) ⊆ targets slots := by
  rw [targets_clearAt]
  exact (List.filter_sublist.filterMap _).subset

theorem filter_address_eq (hn : (slots.map PtrSlot.address).Nodup) (hp : p ∈ slots) :
    slots.filter (fun s => s.address = p.address) = [p] := by
  induction slots with
  | nil => cases hp
  | cons s rest ih =>
    rw [List.map_cons, List.nodup_cons] at hn
    rcases List.mem_cons.1 hp with rfl | hp
    · have hnone : rest.filter (fun s => s.address = p.address) = [] := by
        rw [List.filter_eq_nil_iff]
        intro t ht
        rw [decide_eq_true_eq]
        intro he
        exact hn.1 (he ▸ List.mem_map_of_mem ht)
      simp [hnone]
    · have hne : s.address ≠ p.address := fun he => hn.1 (he ▸ List.mem_map_of_mem hp)
      simp [hne, ih hn.2 hp]

theorem count_clearAt (hn : (slots.map PtrSlot.address).Nodup) (hp : p ∈ slots)
    (hx : p.target = some x) (a : Address) :
    (targets slots).count a = (targets (slots.map (PtrSlot.clearAt p.address))).count a +
      if a = x then 1 else 0 := by
  have hperm := (List.filter_append_perm (fun s => decide (s.address = p.address)) slots).filterMap
    PtrSlot.target
  rw [filter_address_eq hn hp, List.filterMap_append] at hperm
  have hone : [p].filterMap PtrSlot.target = [x] := by simp [hx]
  rw [targets, ← hperm.count_eq, hone, List.count_append, targets_clearAt, targets]
  have hnot : (fun s : PtrSlot => !decide (s.address = p.address)) =
      fun s => decide (s.address ≠ p.address) := by
    funext s
    simp
  rw [hnot]
  by_cases ha : a = x
  · simp [ha, Nat.add_comm]
  · simp [ha, Ne.symm ha]

theorem map_clearAt_of_forall_ne (hq : ∀ s ∈ slots, s.address ≠ q) :
    slots.map (PtrSlot.clearAt q) = slots := by
  conv_rhs => rw [← List.map_id slots]
  refine List.map_congr_left fun s hs => ?_
  simp [PtrSlot.clearAt, hq s hs]

theorem slots_clear : (h.clear q).slots = h.slots.map (PtrSlot.clearAt q) := by
  simp [Heap.slots, clear, List.flatMap_map, List.map_flatMap]

theorem outerSlots_clear (S : Finset Address) :
    (h.clear q).outerSlots S = (h.outerSlots S).map (PtrSlot.clearAt q) := by
  simp [outerSlots, clear, List.flatMap_map, List.map_flatMap, List.filter_map, Function.comp_def]

theorem find_clear : (h.clear q).find a =
    (h.find a).map fun o => { o with members := o.members.map (PtrSlot.clearAt q) } := by
  unfold find clear
  rw [List.find?_map]
  rfl

theorem succ_clear : (h.clear q).succ a =
    ((h.find a).map fun o => targets (o.members.map (PtrSlot.clearAt q))).getD [] := by
  rw [succ, find_clear, Option.map_map]
  rfl

theorem succ_clear_subset : (h.clear q).succ a ⊆ h.succ a := by
  rw [succ_clear, succ]
  cases h.find a with
  | none => exact List.nil_subset _
  | some o => exact targets_clearAt_subset

theorem exists_member_of_mem_succ (hb : b ∈ h.succ a) :
    ∃ o s, h.find a = some o ∧ s ∈ o.members ∧ s ∈ h.slots ∧ s.target = some b := by
  unfold succ at hb
  cases hf : h.find a with
  | none =>
    rw [hf] at hb
    cases hb
  | some o =>
    rw [hf] at hb
    obtain ⟨s, hs, ht⟩ := List.mem_filterMap.1 hb
    have hmem : s ∈ h.slots :=
      List.mem_append_right _ (List.mem_flatMap.2 ⟨o, (find_mem hf).1, hs⟩)
    exact ⟨o, s, rfl, hs, hmem, ht⟩

theorem succ_cases (hn : (h.slots.map PtrSlot.address).Nodup) (hp : p ∈ h.slots)
    (hx : p.target = some x) (hb : b ∈ h.succ a) :
    b ∈ (h.clear p.address).succ a ∨ b = x := by
  obtain ⟨o, s, hf, hs, hmem, ht⟩ := exists_member_of_mem_succ hb
  by_cases he : s.address = p.address
  · right
    have hsp : s ∈ h.slots.filter fun s => s.address = p.address :=
      List.mem_filter.2 ⟨hmem, by simpa using he⟩
    rw [filter_address_eq hn hp, List.mem_singleton] at hsp
    rw [hsp, hx] at ht
    exact (Option.some.inj ht).symm
  · left
    rw [succ_clear, hf]
    change b ∈ targets (o.members.map (PtrSlot.clearAt p.address))
    rw [targets_clearAt]
    exact List.mem_filterMap.2 ⟨s, List.mem_filter.2 ⟨hs, by simpa using he⟩, ht⟩

theorem addresses_clear : (h.clear q).addresses = h.addresses := by
  simp [addresses, clear, Function.comp_def]

end Clear

section Count
variable {h : Heap} {p : PtrSlot} {x a b : Address} {S : Finset Address}

theorem mem_addresses_iff : a ∈ h.addresses ↔ ∃ o ∈ h.objects, o.address = a := by
  simp [addresses]

theorem WellFormed.find_of_mem_addresses (hw : h.WellFormed) (ha : a ∈ h.addresses) :
    ∃ o, h.find a = some o ∧ targets o.members = h.succ a := by
  obtain ⟨o, ho, rfl⟩ := mem_addresses_iff.1 ha
  have hf := hw.find_of_mem ho
  exact ⟨o, hf, by rw [succ, hf]; rfl⟩

theorem mem_outerSlots {s : PtrSlot} : s ∈ h.outerSlots S ↔
    s ∈ h.freePtrs ∨ ∃ o ∈ h.objects, o.address ∉ S ∧ s ∈ o.members := by
  simp only [outerSlots, List.mem_append, List.mem_flatMap, List.mem_filter, decide_eq_true_eq,
    and_assoc]

theorem outerSlots_sublist : (h.outerSlots S).Sublist h.slots :=
  (List.Sublist.refl _).append (by
    induction h.objects with
    | nil => exact List.Sublist.refl _
    | cons o rest ih =>
      rw [List.filter_cons]
      split_ifs
      · exact (List.Sublist.refl _).append ih
      · exact ih.trans (List.sublist_append_right _ _))

theorem outerSlots_subset {T : Finset Address} (hT : T ⊆ S) : h.outerSlots S ⊆ h.outerSlots T := by
  intro s hs
  rcases mem_outerSlots.1 hs with hs | ⟨o, ho, hnot, hs⟩
  · exact mem_outerSlots.2 (Or.inl hs)
  · exact mem_outerSlots.2 (Or.inr ⟨o, ho, fun hm => hnot (hT hm), hs⟩)

theorem mem_targets_outerSlots (hw : h.WellFormed) : b ∈ targets (h.outerSlots S) ↔
    b ∈ targets h.freePtrs ∨ ∃ a ∈ h.addresses, a ∉ S ∧ b ∈ h.succ a := by
  have hsucc : ∀ o ∈ h.objects, h.succ o.address = targets o.members := by
    intro o ho
    rw [succ, hw.find_of_mem ho]
    rfl
  constructor
  · intro hb
    obtain ⟨s, hs, ht⟩ := List.mem_filterMap.1 hb
    rcases mem_outerSlots.1 hs with hs | ⟨o, ho, hnot, hs⟩
    · exact Or.inl (List.mem_filterMap.2 ⟨s, hs, ht⟩)
    · refine Or.inr ⟨o.address, mem_addresses_iff.2 ⟨o, ho, rfl⟩, hnot, ?_⟩
      rw [hsucc o ho]
      exact List.mem_filterMap.2 ⟨s, hs, ht⟩
  · rintro (hb | ⟨a, ha, hnot, hb⟩)
    · obtain ⟨s, hs, ht⟩ := List.mem_filterMap.1 hb
      exact List.mem_filterMap.2 ⟨s, mem_outerSlots.2 (Or.inl hs), ht⟩
    · obtain ⟨o, ho, rfl⟩ := mem_addresses_iff.1 ha
      rw [hsucc o ho] at hb
      obtain ⟨s, hs, ht⟩ := List.mem_filterMap.1 hb
      exact List.mem_filterMap.2 ⟨s, mem_outerSlots.2 (Or.inr ⟨o, ho, hnot, hs⟩), ht⟩

theorem succ_subset_slots (h : Heap) (a : Address) : h.succ a ⊆ targets h.slots := by
  intro b hb
  obtain ⟨-, s, -, -, hmem, ht⟩ := exists_member_of_mem_succ hb
  exact List.mem_filterMap.2 ⟨s, hmem, ht⟩

theorem count_split (objects : List HeapObject) (S : Finset Address) (a : Address) :
    (targets (objects.flatMap HeapObject.members)).count a =
      (targets ((objects.filter fun o => o.address ∉ S).flatMap HeapObject.members)).count a +
      ((objects.filter fun o => o.address ∈ S).map fun o => (targets o.members).count a).sum := by
  induction objects with
  | nil => rfl
  | cons o rest ih =>
    by_cases ho : o.address ∈ S
    · simp only [List.flatMap_cons, targets_append, List.count_append, ih, List.filter_cons, ho,
        not_true_eq_false, decide_false, Bool.false_eq_true, if_false, decide_true, if_true,
        List.map_cons, List.sum_cons]
      omega
    · simp only [List.flatMap_cons, targets_append, List.count_append, ih, List.filter_cons, ho,
        not_false_eq_true, decide_true, if_true, decide_false, Bool.false_eq_true, if_false]
      omega

theorem WellFormed.count_slots (hw : h.WellFormed) (hS : S ⊆ h.addresses) (a : Address) :
    (targets h.slots).count a = (targets (h.outerSlots S)).count a + inDegree h.succ S a := by
  have hn : ((h.objects.filter fun o => o.address ∈ S).map HeapObject.address).Nodup :=
    hw.addresses.sublist (List.filter_sublist.map _)
  have hset : ((h.objects.filter fun o => o.address ∈ S).map HeapObject.address).toFinset = S := by
    ext b
    simp only [List.mem_toFinset, List.mem_map, List.mem_filter, decide_eq_true_eq]
    constructor
    · rintro ⟨o, ⟨-, hb⟩, rfl⟩
      exact hb
    · intro hb
      obtain ⟨o, ho, rfl⟩ := mem_addresses_iff.1 (hS hb)
      exact ⟨o, ⟨ho, hb⟩, rfl⟩
  have hsum : ((h.objects.filter fun o => o.address ∈ S).map fun o =>
      (targets o.members).count a).sum = inDegree h.succ S a := by
    unfold inDegree
    conv_rhs => rw [← hset]
    rw [List.sum_toFinset _ hn, List.map_map]
    refine congrArg List.sum (List.map_congr_left fun o ho => ?_)
    have hf := hw.find_of_mem (List.mem_filter.1 ho).1
    simp only [Function.comp, succ, hf, Option.map_some, Option.getD_some]
  rw [Heap.slots, outerSlots, targets_append, targets_append, List.count_append, List.count_append,
    count_split h.objects S a, hsum]
  omega

theorem Exact.mem_below (hg : h.Exact) (hp : p ∈ h.slots) (hx : p.target = some x) :
    x ∈ h.addresses ∧ x ∈ h.below x := by
  have hmem := hg.exist x (List.mem_filterMap.2 ⟨p, hp, hx⟩)
  exact ⟨hmem, self_mem_sub hmem⟩

theorem Exact.below_closed (hg : h.Exact) (ha : a ∈ h.below x) (hb : b ∈ h.succ a) :
    b ∈ h.below x :=
  mem_sub.2 ((mem_sub.1 ha).step hb (hg.exist b (succ_subset_slots h a hb)))

theorem Exact.region (hg : h.Exact) (hp : p ∈ h.slots) (hx : p.target = some x) :
    Region h h.succ (h.below x) := by
  refine ⟨fun a ha => hg.find_of_mem_addresses (sub_subset ha), ?_,
    fun a ha b hb _ => hg.below_closed ha hb⟩
  intro a ha hz
  have hcnt := hg.counter a (sub_subset ha)
  rw [hz, UInt16.toNat_zero, eq_comm, List.count_eq_zero] at hcnt
  refine hcnt ?_
  cases mem_sub.1 ha with
  | start hs _ =>
    obtain rfl := List.mem_singleton.1 hs
    exact List.mem_filterMap.2 ⟨p, hp, hx⟩
  | step _ he _ => exact succ_subset_slots h _ he

theorem Exact.slot_eq {s : PtrSlot} (hg : h.Exact) (hp : p ∈ h.slots) (hs : s ∈ h.slots)
    (he : s.address = p.address) : s = p := by
  have hmem : s ∈ h.slots.filter fun s => s.address = p.address :=
    List.mem_filter.2 ⟨hs, by simpa using he⟩
  rw [filter_address_eq hg.slots hp] at hmem
  exact List.mem_singleton.1 hmem

theorem holder_eq {o c : HeapObject} (hn : (h.slots.map PtrSlot.address).Nodup)
    (ho : o ∈ h.objects) (hc : c ∈ h.objects) (hqo : a ∈ o.members.map PtrSlot.address)
    (hqc : a ∈ c.members.map PtrSlot.address) : o = c := by
  by_contra hne
  rw [Heap.slots, List.map_append, List.map_flatMap] at hn
  have hpair := (List.nodup_flatMap.1 (List.nodup_append.1 hn).2.1).2
  have hsymm : Std.Symm (Function.onFun List.Disjoint
      fun o : HeapObject => o.members.map PtrSlot.address) := ⟨fun _ _ hd => hd.symm⟩
  have hdis : List.Disjoint (o.members.map PtrSlot.address) (c.members.map PtrSlot.address) :=
    hpair.forall ho hc hne
  exact hdis hqo hqc

theorem Exact.inside_iff (hg : h.Exact) (hp : p ∈ h.slots) :
    h.Inside p x ↔ ∀ s ∈ h.outerSlots (h.below x), s.address ≠ p.address := by
  constructor
  · rintro ⟨o, ho, hin, hpo⟩ s hs he
    obtain rfl := hg.slot_eq hp (outerSlots_sublist.subset hs) he
    rcases mem_outerSlots.1 hs with hfree | ⟨c, hc, hnot, hpc⟩
    · have hn := hg.slots
      rw [Heap.slots, List.map_append, List.nodup_append] at hn
      exact hn.2.2 _ (List.mem_map_of_mem hfree) _
        (List.mem_map_of_mem (List.mem_flatMap.2 ⟨o, ho, hpo⟩)) rfl
    · obtain rfl := holder_eq hg.slots ho hc (List.mem_map_of_mem hpo) (List.mem_map_of_mem hpc)
      exact hnot hin
  · intro hall
    rcases List.mem_append.1 hp with hfree | hmem
    · exact absurd rfl (hall p (mem_outerSlots.2 (Or.inl hfree)))
    · obtain ⟨o, ho, hpo⟩ := List.mem_flatMap.1 hmem
      refine ⟨o, ho, ?_, hpo⟩
      by_contra hnot
      exact hall p (mem_outerSlots.2 (Or.inr ⟨o, ho, hnot, hpo⟩)) rfl

theorem Exact.count_outside (hg : h.Exact) (hp : p ∈ h.slots) (hx : p.target = some x)
    (a : Address) [Decidable (h.Inside p x)] :
    (targets (h.outerSlots (h.below x))).count a =
      (h.outside p x).count a + if a = x ∧ ¬ h.Inside p x then 1 else 0 := by
  unfold outside
  rw [outerSlots_clear]
  by_cases hin : h.Inside p x
  · rw [map_clearAt_of_forall_ne ((hg.inside_iff hp).1 hin)]
    simp [hin]
  · have hmem : p ∈ h.outerSlots (h.below x) := by
      rw [hg.inside_iff hp] at hin
      push Not at hin
      obtain ⟨s, hs, he⟩ := hin
      exact hg.slot_eq hp (outerSlots_sublist.subset hs) he ▸ hs
    rw [count_clearAt (hg.slots.sublist (outerSlots_sublist.map _)) hmem hx]
    simp [hin]

theorem outside_subset : h.outside p x ⊆ targets h.slots := by
  unfold outside
  rw [outerSlots_clear]
  exact fun b hb => (outerSlots_sublist.filterMap _).subset (targets_clearAt_subset hb)

theorem below_subset : h.below x ⊆ h.addresses := sub_subset

theorem sub_below : sub h.succ (h.below x) x = h.below x := by
  ext a
  rw [mem_sub, below, sub, reachIn_reachSet (List.Subset.refl _), mem_reachSet]

theorem reachIn_below {z : Address} {starts : List Address} (hz : z ∈ h.below x)
    (hs : starts ⊆ h.succ z) :
    ReachIn h.succ (h.below x) starts a ↔ ReachIn h.succ h.addresses starts a := by
  refine ⟨fun hr => hr.mono sub_subset, fun hr => hr.restrict fun c hc => ?_⟩
  exact mem_sub.2 (hc.trans fun s hm hL => (mem_sub.1 hz).step (hs hm) hL)

theorem Exact.meetsAgain_iff (hg : h.Exact) (hp : p ∈ h.slots) (hx : p.target = some x) :
    h.MeetsAgain p x ↔ ShowsWay h h.succ (h.below x) p.typeIndex x := by
  have hxS := (hg.mem_below hp hx).2
  refine exists_congr fun o => and_congr_right fun hf => (reachIn_below hxS fun b hb => ?_).symm
  obtain ⟨s, hs, ht⟩ := List.mem_filterMap.1 hb
  rw [succ, hf]
  exact List.mem_filterMap.2 ⟨s, HeapObject.mem_members_of_shownTo hs, ht⟩

theorem Exact.count_below (hg : h.Exact) (hp : p ∈ h.slots) (hx : p.target = some x)
    (ha : a ∈ h.below x) [Decidable (h.Inside p x)] :
    (h.refCounter a).toNat = (h.outside p x).count a +
      (if a = x ∧ ¬ h.Inside p x then 1 else 0) + inDegree h.succ (h.below x) a := by
  rw [hg.counter a (below_subset ha), hg.count_slots below_subset a]
  exact congrArg (· + _) (hg.count_outside hp hx a)

theorem Exact.letsGo_iff (hg : h.Exact) (hp : p ∈ h.slots) (hx : p.target = some x) :
    h.LetsGo p x ↔ (h.refCounter x).toNat = 1 ∨
      (ShowsWay h h.succ (h.below x) p.typeIndex x ∧
        Collectable h.succ (h.below x) (fun a => (h.refCounter a).toNat) x) := by
  classical
  have hcnt := hg.count_below hp hx (hg.mem_below hp hx).2
  refine or_congr Iff.rfl (and_congr (hg.meetsAgain_iff hp hx) ⟨?_, ?_⟩)
  · rintro ⟨hin, hout, hback⟩
    refine ⟨?_, ?_⟩
    · by_cases hi : h.Inside p x
      · simp only [hi, not_true_eq_false, and_false, if_false, hin hi] at hcnt
        omega
      · simp only [hi, not_false_eq_true, and_self, if_true,
          List.count_eq_zero.2 (hout hi)] at hcnt
        omega
    · intro z hz hne hlt
      rw [reachIn_below hz (List.Subset.refl _)]
      refine hback z hz hne (List.count_pos_iff.1 ?_)
      have hcz := hg.count_below hp hx hz
      simp only [hne, false_and, if_false] at hcz
      omega
  · rintro ⟨halone, hothers⟩
    refine ⟨?_, ?_, ?_⟩
    · intro hi
      simp only [hi, not_true_eq_false, and_false, if_false] at hcnt
      omega
    · intro hi
      simp only [hi, not_false_eq_true, and_self, if_true] at hcnt
      exact List.count_eq_zero.1 (by omega)
    · intro z hz hne hmem
      rw [← reachIn_below hz (List.Subset.refl _)]
      refine hothers z hz hne ?_
      have hcz := hg.count_below hp hx hz
      simp only [hne, false_and, if_false] at hcz
      have := List.count_pos_iff.2 hmem
      omega

end Count

section Deleted
variable {h : Heap} {p : PtrSlot} {x a : Address}

theorem deletedBy_eq (h : Heap) (p : PtrSlot) :
    h.deletedBy p = (Heap.reset h.objects.length { h with deleted := [] } p).deleted := rfl

theorem deletedBy_of_target_none (hp : p.target = none) : h.deletedBy p = [] := by
  rw [deletedBy_eq]
  cases h.objects.length with
  | zero => rfl
  | succ n => simp [Heap.reset, hp]

theorem Exact.unlogged (hg : h.Exact) : ({ h with deleted := [] } : Heap).Exact :=
  ⟨⟨hg.addresses, hg.reported⟩, hg.slots, hg.exist, hg.counter⟩

theorem Exact.scope {o : HeapObject} (hg : h.Exact) (hp : p ∈ h.slots) (hx : p.target = some x)
    (hf : h.find x = some o) :
    Scope (h.decrement x (h.refCounter x)) h.succ ((h.below x).erase x)
      (targets o.members.reverse ++ h.outside p x) := by
  classical
  have hxS := (hg.mem_below hp hx).2
  have hzero := refCounter_decrement_all hf
  have hperm : (targets o.members.reverse).Perm (h.succ x) := by
    rw [succ, hf]
    exact targets_reverse_perm o.members
  have hR := hg.region hp hx
  refine ⟨?_, ?_, ?_, ?_⟩
  · intro a ha
    obtain ⟨hne, hS⟩ := Finset.mem_erase.1 ha
    rw [find_decrement_ne hne]
    exact hR.objects a hS
  · intro a ha
    obtain ⟨hne, hS⟩ := Finset.mem_erase.1 ha
    rw [refCounter_decrement_ne hne]
    exact hR.live a hS
  · intro a ha
    obtain ⟨hne, hS⟩ := Finset.mem_erase.1 ha
    have hcnt := hg.count_below hp hx hS
    simp only [hne, false_and, if_false] at hcnt
    rw [refCounter_decrement_ne hne, hcnt, List.count_append, hperm.count_eq, inDegree_erase hxS]
    omega
  · intro a ha b hb hlive
    have hne : b ≠ x := by
      rintro rfl
      exact hlive hzero
    exact Finset.mem_erase.2 ⟨hne, hg.below_closed (Finset.mem_erase.1 ha).2 hb⟩

theorem rooted_below {o : HeapObject} (hf : h.find x = some o) :
    Rooted h.succ ((h.below x).erase x) (targets o.members.reverse ++ h.outside p x) := by
  have hroot : Rooted h.succ (h.below x) (x :: h.outside p x) := by
    intro a ha
    rw [← sub_below, mem_sub] at ha
    exact ha.mono_starts (List.cons_subset_cons x (List.nil_subset _))
  refine hroot.erase fun b hb => ?_
  rw [succ, hf] at hb
  exact (targets_reverse_perm o.members).mem_iff.2 hb

theorem Exact.reset_eq (hg : h.Exact) (hp : p ∈ h.slots) (hx : p.target = some x) :
    ∃ n, h.objects.length = n + 1 ∧ Heap.reset h.objects.length h p =
      if (h.giveUp p.typeIndex x).refCounter x = 0 then
        (h.giveUp p.typeIndex x).deleteObject (Heap.reset n) x
      else h.giveUp p.typeIndex x := by
  obtain ⟨hxV, hxS⟩ := hg.mem_below hp hx
  obtain ⟨o, ho, -⟩ := mem_addresses_iff.1 hxV
  obtain ⟨n, hn⟩ := Nat.exists_eq_succ_of_ne_zero (List.length_pos_of_mem ho).ne'
  refine ⟨n, hn, ?_⟩
  rw [hn]
  simp [Heap.reset, hx, (hg.region hp hx).live x hxS]

theorem Exact.reset_of_giveUp_one (hg : h.Exact) (hp : p ∈ h.slots) (hx : p.target = some x)
    (hgive : h.giveUp p.typeIndex x = h.decrement x 1) (hone : (h.refCounter x).toNat ≠ 1) :
    (Heap.reset h.objects.length h p).deleted = h.deleted := by
  obtain ⟨o, hf, -⟩ := (hg.region hp hx).objects x (hg.mem_below hp hx).2
  obtain ⟨n, -, hreset⟩ := hg.reset_eq hp hx
  have hlive : (h.decrement x 1).refCounter x ≠ 0 := by
    rw [refCounter_decrement_self hf]
    intro hz
    have he : h.refCounter x = 1 := by grind
    exact hone (by rw [he]; rfl)
  rw [hreset, hgive, if_neg hlive]
  rfl

theorem Exact.reset_of_giveUp_all (hg : h.Exact) (hp : p ∈ h.slots) (hx : p.target = some x)
    (hgive : h.giveUp p.typeIndex x = h.decrement x (h.refCounter x)) :
    ∃ news, (Heap.reset h.objects.length h p).deleted = h.deleted ++ (news ++ [x]) ∧
      (∀ a ∈ news, a ∈ (h.below x).erase x ∧ ¬ h.Kept p x a) ∧
      (h.DistinctEntries (h.below x) → h.CyclesShown x →
        ∀ a ∈ (h.below x).erase x, ¬ h.Kept p x a → a ∈ news) := by
  have hxS := (hg.mem_below hp hx).2
  obtain ⟨o, hf, hsucc⟩ := (hg.region hp hx).objects x hxS
  obtain ⟨n, hn, hreset⟩ := hg.reset_eq hp hx
  have hzero := refCounter_decrement_all hf
  have hcard : ((h.below x).erase x).card ≤ n := by
    have hle : h.addresses.card ≤ h.objects.length := by
      have := List.toFinset_card_le (h.objects.map HeapObject.address)
      simpa [addresses] using this
    have := Finset.card_le_card (below_subset (h := h) (x := x))
    rw [Finset.card_erase_of_mem hxS]
    omega
  have hknown : ∀ t ∈ targets o.members,
      Known (h.decrement x (h.refCounter x)) ((h.below x).erase x) t :=
    fun t ht => known_erase hf fun _ => hg.below_closed hxS (hsucc ▸ ht)
  obtain ⟨h₂, hdel, L₂, news, r, hroot⟩ := deleteObject_spec (reset_spec h.succ n)
    hg.toWellFormed hf hknown (hg.scope hp hx hf) hcard
  refine ⟨news, ?_, fun a ha => ?_, fun hd hshow a ha hk => ?_⟩
  · rw [hreset, hgive, if_pos hzero, hdel]
    change h₂.deleted ++ [x] = _
    rw [r.deleted, List.append_assoc]
    rfl
  · obtain ⟨hS, hnot⟩ := (r.gone a).1 ha
    exact ⟨hS, fun hk => hnot (r.safe a hk)⟩
  · refine (r.gone a).2 ⟨ha, fun hL₂ => hk ?_⟩
    obtain ⟨htr, hshown⟩ := transparent_erase hd hshow hf hxS
    exact (hroot htr hshown (rooted_below hf) a hL₂).mono r.kept

/-- `Reset` of `p` deletes the objects `news`: the target if the test says yes, and with it objects
below that are not held from outside. -/
structure Takes (h : Heap) (p : PtrSlot) (x : Address) (news : List Address) : Prop where
  sound : x ∈ news → (h.refCounter x).toNat = 1 ∨ ∃ seen : Address → List Address,
    Collectable seen (h.below x) (fun a => (h.refCounter a).toNat) x ∧
      ∀ c ∈ h.below x, ∀ b, (seen c).count b ≤ (h.succ c).count b
  test : h.DistinctEntries (h.below x) → (x ∈ news ↔ h.LetsGo p x)
  target : ∀ a ∈ news, x ∈ news
  gone : ∀ a ∈ news, a ∈ h.below x ∧ (a = x ∨ ¬ h.Kept p x a)
  all : h.DistinctEntries (h.below x) → h.CyclesShown x → x ∈ news →
    ∀ a ∈ h.below x, ¬ h.Kept p x a → a ∈ news

theorem Exact.reset_takes (hg : h.Exact) (hp : p ∈ h.slots) (hx : p.target = some x) :
    ∃ news, (Heap.reset h.objects.length h p).deleted = h.deleted ++ news ∧
      h.Takes p x news := by
  have hxS := (hg.mem_below hp hx).2
  obtain ⟨go, hdec⟩ := giveUp_spec hg.toWellFormed (hg.region hp hx) hxS p.typeIndex
  have hexact : h.DistinctEntries (h.below x) → (go ↔ h.LetsGo p x) := by
    intro hd
    rw [hdec.exact hd, hg.letsGo_iff hp hx, sub_below]
  by_cases hgo : go
  · obtain ⟨news, hdel, hgone, hall⟩ := hg.reset_of_giveUp_all hp hx (hdec.yes hgo)
    have hmem : x ∈ news ++ [x] := List.mem_append_right _ (List.mem_singleton_self x)
    refine ⟨news ++ [x], hdel, fun _ => hdec.sound hgo, fun hd => ?_, fun _ _ => hmem, ?_, ?_⟩
    · exact ⟨fun _ => (hexact hd).1 hgo, fun _ => hmem⟩
    · intro a ha
      rcases List.mem_append.1 ha with ha | ha
      · obtain ⟨haS, hk⟩ := hgone a ha
        exact ⟨(Finset.mem_erase.1 haS).2, Or.inr hk⟩
      · obtain rfl := List.mem_singleton.1 ha
        exact ⟨hxS, Or.inl rfl⟩
    · intro hd hshow _ a haS hk
      by_cases he : a = x
      · exact he ▸ hmem
      · exact List.mem_append_left _ (hall hd hshow a (Finset.mem_erase.2 ⟨he, haS⟩) hk)
  · obtain ⟨hgive, hone⟩ := hdec.no hgo
    have hdel := hg.reset_of_giveUp_one hp hx hgive hone
    refine ⟨[], by rw [hdel, List.append_nil], fun hm => absurd hm List.not_mem_nil, fun hd => ?_,
      ?_, ?_, ?_⟩
    · exact ⟨fun hm => absurd hm List.not_mem_nil, fun hc => absurd ((hexact hd).2 hc) hgo⟩
    · exact fun _ ha => absurd ha List.not_mem_nil
    · exact fun _ ha => absurd ha List.not_mem_nil
    · exact fun _ _ hm => absurd hm List.not_mem_nil

theorem Exact.deletedBy_takes (hg : h.Exact) (hp : p ∈ h.slots) (hx : p.target = some x) :
    h.Takes p x (h.deletedBy p) := by
  obtain ⟨news, hdel, ht⟩ := hg.unlogged.reset_takes hp hx
  rw [deletedBy_eq, hdel]
  exact ⟨ht.sound, ht.test, ht.target, ht.gone, ht.all⟩

theorem target_of_mem_deletedBy (ha : a ∈ h.deletedBy p) : ∃ x, p.target = some x := by
  cases hx : p.target with
  | none =>
    rw [deletedBy_of_target_none hx] at ha
    cases ha
  | some x => exact ⟨x, rfl⟩

theorem Exact.mem_deletedBy_iff (hg : h.Exact) (hp : p ∈ h.slots) (hx : p.target = some x)
    (hd : h.DistinctEntries (h.below x)) (hshow : h.CyclesShown x) :
    a ∈ h.deletedBy p ↔ h.LetsGo p x ∧ a ∈ h.below x ∧ (a = x ∨ ¬ h.Kept p x a) := by
  have ht := hg.deletedBy_takes hp hx
  rw [← ht.test hd]
  constructor
  · exact fun ha => ⟨ht.target a ha, ht.gone a ha⟩
  · rintro ⟨hmem, haS, rfl | hk⟩
    · exact hmem
    · exact ht.all hd hshow hmem a haS hk

end Deleted
end Heap
end AetherClient
