import AetherClient.PtrExact
import Mathlib.Data.Set.Card

set_option autoImplicit false

namespace AetherClient
open Relation RefGraph

namespace Heap

def HasMember (h : Heap) (x : Address) (r : PtrSlot) : Prop := ∃ o, h.find x = some o ∧ r ∈ o.members

structure Closed (h : Heap) (P : Address → Prop) : Prop where
  free : ∀ r ∈ h.freePtrs, ∀ b ∈ r.target, P b
  member : ∀ x r, h.HasMember x r → P x → ∀ b ∈ r.target, P b

section Closed
variable {h h' : Heap} {P : Address → Prop} {p q a x : Address} {r : PtrSlot}
  {target : Option Address}

theorem HasMember.mem_slots (hx : h.HasMember x r) : r ∈ h.slots := by
  obtain ⟨o, hf, hr⟩ := hx
  exact List.mem_append_right _ (List.mem_flatMap.mpr ⟨o, (find_mem hf).1, hr⟩)

theorem HasMember.isMember (hx : h.HasMember x r) : h.IsMember r.address x := by
  obtain ⟨o, hf, hr⟩ := hx
  exact ⟨o, hf, List.mem_map_of_mem hr⟩

theorem HasMember.edge (hx : h.HasMember x r) (ha : r.target = some a) : h.Edge x a := by
  obtain ⟨o, hf, hr⟩ := hx
  exact (edge_of_find hf).mpr (List.mem_filterMap.mpr ⟨r, hr, ha⟩)

theorem exists_member_of_edge (he : h.Edge x a) : ∃ r, h.HasMember x r ∧ r.target = some a := by
  cases hf : h.find x with
  | none =>
    rw [Edge, succ, hf] at he
    cases he
  | some o =>
    obtain ⟨r, hr, ha⟩ := List.mem_filterMap.mp ((edge_of_find hf).mp he)
    exact ⟨r, ⟨o, hf, hr⟩, ha⟩

theorem free_or_member (hn : (h.objects.map HeapObject.address).Nodup) (hr : r ∈ h.slots) :
    r ∈ h.freePtrs ∨ ∃ x, h.HasMember x r := by
  obtain hfree | hmember := List.mem_append.mp hr
  · exact .inl hfree
  · obtain ⟨o, ho, hro⟩ := List.mem_flatMap.mp hmember
    exact .inr ⟨o.address, o, find_of_nodup hn ho, hro⟩

theorem isMember_unique {y : Address} (hn : (h.slots.map PtrSlot.address).Nodup)
    (hx : h.IsMember q x) (hy : h.IsMember q y) : x = y := by
  obtain ⟨o, hfx, hqo⟩ := hx
  obtain ⟨c, hfy, hqc⟩ := hy
  obtain ⟨ho, rfl⟩ := find_mem hfx
  obtain ⟨hc, rfl⟩ := find_mem hfy
  rw [holder_eq hn ho hc hqo hqc]

theorem not_isMember_of_free (hn : (h.slots.map PtrSlot.address).Nodup) (hr : r ∈ h.freePtrs) :
    ¬h.IsMember r.address x := by
  rintro ⟨o, hf, hq⟩
  rw [Heap.slots, List.map_append, List.map_flatMap] at hn
  have hdisjoint := (List.nodup_append.mp hn).2.2
  exact hdisjoint r.address (List.mem_map_of_mem hr) r.address
    (List.mem_flatMap.mpr ⟨o, (find_mem hf).1, hq⟩) rfl

theorem Closed.of_reachable (hP : h.Closed P) (ha : h.Reachable a) : P a := by
  apply ReachIn.of_closed ha
  · intro b hb _
    obtain ⟨r, hr, ht⟩ := List.mem_filterMap.mp hb
    exact hP.free r hr b ht
  · intro c hc b hb _
    obtain ⟨r, hr, ht⟩ := exists_member_of_edge hb
    exact hP.member c r hr hc b ht

theorem closed_reachable (hknown : ∀ b ∈ targets h.slots, b ∈ h.addresses) :
    h.Closed h.Reachable where
  free r hr b hb := by
    have hmem : r ∈ h.slots := List.mem_append_left _ hr
    exact .start (List.mem_filterMap.mpr ⟨r, hr, hb⟩)
      (hknown b (List.mem_filterMap.mpr ⟨r, hmem, hb⟩))
  member x r hx hreach b hb :=
    .step hreach (hx.edge hb) (hknown b (List.mem_filterMap.mpr ⟨r, hx.mem_slots, hb⟩))

theorem setAt_of_ne (hne : r.address ≠ p) : PtrSlot.setAt p target r = r := if_neg hne

theorem target_setAt (hp : r.address = p) : (PtrSlot.setAt p target r).target = target := by
  rw [PtrSlot.setAt, if_pos hp]

theorem hasMember_setTarget : (h.setTarget p target).HasMember x r ↔
    ∃ s, h.HasMember x s ∧ PtrSlot.setAt p target s = r := by
  unfold HasMember
  rw [find_setTarget]
  constructor
  · rintro ⟨o, hf, hr⟩
    obtain ⟨c, hc, rfl⟩ := Option.map_eq_some_iff.mp hf
    obtain ⟨s, hs, rfl⟩ := List.mem_map.mp hr
    exact ⟨s, ⟨c, hc, hs⟩, rfl⟩
  · rintro ⟨s, ⟨c, hc, hs⟩, rfl⟩
    exact ⟨_, by rw [hc]; rfl, List.mem_map_of_mem hs⟩

theorem Closed.setTarget (hP : h.Closed P)
    (hfree : (∃ r ∈ h.freePtrs, r.address = p) → ∀ b ∈ target, P b)
    (hmember : ∀ x, h.IsMember p x → P x → ∀ b ∈ target, P b) :
    (h.setTarget p target).Closed P where
  free r hr b hb := by
    obtain ⟨s, hs, rfl⟩ := List.mem_map.mp hr
    by_cases hp : s.address = p
    · rw [target_setAt hp] at hb
      exact hfree ⟨s, hs, hp⟩ b hb
    · rw [setAt_of_ne hp] at hb
      exact hP.free s hs b hb
  member x r hx hPx b hb := by
    obtain ⟨s, hs, rfl⟩ := hasMember_setTarget.mp hx
    by_cases hp : s.address = p
    · rw [target_setAt hp] at hb
      exact hmember x (hp ▸ hs.isMember) hPx b hb
    · rw [setAt_of_ne hp] at hb
      exact hP.member x s hs hPx b hb

theorem Closed.of_setTarget (hP : (h.setTarget p target).Closed P)
    (ht : ∀ s ∈ h.slots, s.address = p → ∀ b ∈ s.target, P b) : h.Closed P where
  free r hr b hb := by
    by_cases hp : r.address = p
    · exact ht r (List.mem_append_left _ hr) hp b hb
    · have hmem := List.mem_map_of_mem (f := PtrSlot.setAt p target) hr
      rw [setAt_of_ne hp] at hmem
      exact hP.free r hmem b hb
  member x r hx hPx b hb := by
    by_cases hp : r.address = p
    · exact ht r hx.mem_slots hp b hb
    · exact hP.member x r (hasMember_setTarget.mpr ⟨r, hx, setAt_of_ne hp⟩) hPx b hb

theorem closed_of_others (hfree : ∀ r ∈ h.freePtrs, r.address ≠ p → ∀ b ∈ r.target, P b)
    (hmember : ∀ x r, h.HasMember x r → r.address ≠ p → P x → ∀ b ∈ r.target, P b) :
    (h.setTarget p none).Closed P where
  free r hr b hb := by
    obtain ⟨s, hs, rfl⟩ := List.mem_map.mp hr
    by_cases hp : s.address = p
    · rw [target_setAt hp] at hb
      cases hb
    · rw [setAt_of_ne hp] at hb
      exact hfree s hs hp b hb
  member x r hx hPx b hb := by
    obtain ⟨s, hs, rfl⟩ := hasMember_setTarget.mp hx
    by_cases hp : s.address = p
    · rw [target_setAt hp] at hb
      cases hb
    · rw [setAt_of_ne hp] at hb
      exact hmember x s hs hp hPx b hb

theorem Closed.congr (hP : h.Closed P) (hfree : h'.freePtrs = h.freePtrs)
    (hmember : ∀ x r, h'.HasMember x r → h.HasMember x r) : h'.Closed P where
  free r hr := hP.free r (hfree ▸ hr)
  member x r hx := hP.member x r (hmember x r hx)

end Closed
end Heap

namespace PtrState
open Heap

/-- Exactly the objects that no `Ptr` outside the objects leads to have been deleted. -/
def Collected (w : PtrState) : Prop :=
  ∀ a ∈ w.heap.addresses, a ∈ w.heap.deleted ↔ ¬w.heap.Reachable a

structure Assigned (w : PtrState) (p : Address) (target : Option Address) : Prop where
  holds : ∃ d, w.slot p = some d ∧ d.target = target
  alive : ∀ t ∈ target, w.heap.refCounter t ≠ 0 ∧ t ∉ w.heap.deleted
  collected : Collected w

/-- The event, an assignment to `p`, has a defined result, and that is as it should be. -/
def Assigns (w : PtrState) (e : PtrEvent) (p : Address) (target : Option Address) : Prop :=
  ∃ w', w.step e = some w' ∧ Assigned w' p target

def remaining (w : PtrState) (p a : Address) : Set PtrSlot :=
  {r | r ∈ w.heap.slots ∧ r.address ≠ p ∧ r.target = some a ∧ w.Survives r.address p}

/-- One more `Ptr` to the object can be counted when `p` has let go. -/
def CanCount (w : PtrState) (p : Address) (target : Option Address) : Prop :=
  ∀ a ∈ target, (w.remaining p a).ncard < 65535

section Live
variable {w : PtrState} {a : Address}

theorem Inv.live_of_target (h : Inv w) (hr : w.released = []) {r : PtrSlot} (hmem : r ∈ w.heap.slots)
    (ha : r.target = some a) : w.heap.refCounter a ≠ 0 := by
  apply h.balanced.live_of_held
  apply mem_held hmem _ ha
  rw [hr]
  exact List.not_mem_nil

theorem Inv.live_of_member (h : Inv w) {x : Address} {r : PtrSlot} (hx : w.heap.HasMember x r) :
    w.heap.refCounter x ≠ 0 := by
  obtain ⟨o, hf, hr⟩ := hx
  intro hdead
  rw [h.balanced.memberless x o hf hdead] at hr
  cases hr

theorem mem_addresses_of_live (hlive : w.heap.refCounter a ≠ 0) : a ∈ w.heap.addresses := by
  obtain ⟨o, hf⟩ := find_of_live hlive
  obtain ⟨ho, rfl⟩ := find_mem hf
  exact List.mem_toFinset.mpr (List.mem_map_of_mem ho)

theorem Inv.reachable_iff (h : Inv w) (hr : w.released = []) :
    w.heap.Reachable a ↔ w.heap.refCounter a ≠ 0 := by
  have hb := h.balanced
  constructor
  · intro hreach
    have hclosed : w.heap.Closed fun b => w.heap.refCounter b ≠ 0 :=
      ⟨fun r hmem b ht => h.live_of_target hr (List.mem_append_left _ hmem) ht,
        fun x r hx _ b ht => h.live_of_target hr hx.mem_slots ht⟩
    exact hclosed.of_reachable hreach
  · intro hlive
    have hheld : ∀ b ∈ w.live, b ∈ targets w.heap.freePtrs ∨ ∃ x ∈ w.live, b ∈ w.heap.succ x := by
      intro b hmem
      have hlive := (Finset.mem_filter.mp hmem).2
      have hcount := hb.counter b hlive
      have hpos : 0 < w.held.count b := by
        rw [List.nil_append] at hcount
        rw [← hcount]
        exact Nat.pos_of_ne_zero fun hz => hlive (UInt16.toNat_inj.mp hz)
      obtain ⟨s, hs, ht⟩ := List.mem_filterMap.mp (List.count_pos_iff.mp hpos)
      obtain hfree | ⟨x, hx⟩ := free_or_member hb.addresses (List.mem_filter.mp hs).1
      · exact .inl (List.mem_filterMap.mpr ⟨s, hfree, ht⟩)
      · have hlive := h.live_of_member hx
        exact .inr ⟨x, Finset.mem_filter.mpr ⟨mem_addresses_of_live hlive, hlive⟩, hx.edge ht⟩
    have hmem : a ∈ w.live := Finset.mem_filter.mpr ⟨mem_addresses_of_live hlive, hlive⟩
    exact (reachIn_of_acyclic hb.acyclic hheld hmem).mono (Finset.filter_subset _ _)

theorem Inv.mem_deleted_iff (h : Inv w) :
    a ∈ w.heap.deleted ↔ a ∈ w.heap.addresses ∧ w.heap.refCounter a = 0 := by
  have hgone := h.balanced.gone a
  rwa [List.append_nil] at hgone

theorem Inv.alive_of_target (h : Inv w) (hr : w.released = []) {r : PtrSlot}
    (hmem : r ∈ w.heap.slots) (ha : r.target = some a) :
    w.heap.refCounter a ≠ 0 ∧ a ∉ w.heap.deleted := by
  have hlive := h.live_of_target hr hmem ha
  exact ⟨hlive, fun hdeleted => hlive (h.mem_deleted_iff.mp hdeleted).2⟩

theorem Inv.collected (h : Inv w) (hr : w.released = []) : Collected w := by
  intro a ha
  rw [h.mem_deleted_iff, h.reachable_iff hr, not_not]
  exact and_iff_right ha

theorem Collected.congr {w' : PtrState} (hw : Collected w)
    (haddresses : ∀ a, a ∈ w'.heap.addresses ↔ a ∈ w.heap.addresses)
    (hdeleted : w'.heap.deleted = w.heap.deleted)
    (hreach : ∀ a, w'.heap.Reachable a ↔ w.heap.Reachable a) : Collected w' := by
  intro a ha
  rw [hdeleted, hreach]
  exact hw a ((haddresses a).mp ha)

end Live

section Vacating
variable {w : PtrState} {p q a x : Address} {d r s : PtrSlot}

structure Leaves (w w' : PtrState) (p : Address) (d : PtrSlot) : Prop where
  vacated : Vacated w w' p d [] []
  released : w'.released = []
  free : w'.heap.freePtrs = w.heap.freePtrs.map (PtrSlot.setAt p none)
  member : ∀ x r, w'.heap.HasMember x r → ∃ s, w.heap.HasMember x s ∧ PtrSlot.setAt p none s = r
  kept : ∀ x s, w.heap.HasMember x s → w'.heap.refCounter x ≠ 0 →
    w'.heap.HasMember x (PtrSlot.setAt p none s)

theorem Shrinks.hasMember {w₁ : PtrState} (h : Shrinks w w₁) (hx : w₁.heap.HasMember x r) :
    w.heap.HasMember x r := by
  obtain ⟨o₁, hf₁, hr⟩ := hx
  obtain ⟨o, hf, hsame | ⟨-, hnil⟩⟩ := h.find x o₁ hf₁
  · exact ⟨o, hf, hsame ▸ hr⟩
  · rw [hnil] at hr
    cases hr

theorem Inv.letGo (h : Inv w) (hr : w.released = []) (hd : w.slot p = some d) :
    Leaves w (w.letGo d) p d := by
  have hdrop : Droppable w d := by
    intro hmem
    rw [hr] at hmem
    cases hmem
  have hgo := h.balanced.resetPtr h.stale hd hdrop
  have hv := h.balanced.letGo h.stale hd hdrop
  have hheap := heap_letGo w d
  rw [(slot_mem hd).2] at hheap
  constructor
  case vacated => exact hv
  case released =>
    rw [List.eq_nil_iff_forall_not_mem]
    intro r hmem
    by_cases hp : r = p
    · rw [released_letGo, (slot_mem hd).2, hp, released_put_self] at hmem
      cases hmem
    · rw [hv.released r hp, hr] at hmem
      cases hmem
  case free =>
    rw [hheap]
    change (w.resetPtr d).heap.freePtrs.map _ = _
    rw [hgo.shrinks.freePtrs]
    rfl
  case member =>
    intro x r hx
    rw [hheap] at hx
    obtain ⟨s, hs, rfl⟩ := hasMember_setTarget.mp hx
    exact ⟨s, hgo.shrinks.hasMember hs, rfl⟩
  case kept =>
    rintro x s ⟨o, hf, hs⟩ hlive
    rw [hheap, refCounter_put] at hlive
    obtain ⟨o₁, hf₁, hsame⟩ := hgo.shrinks.members hf hlive
    rw [hheap]
    exact hasMember_setTarget.mpr ⟨s, ⟨o₁, hf₁, hsame ▸ hs⟩, rfl⟩

variable {w' : PtrState}

theorem Leaves.inv (h : Leaves w w' p d) : Inv w' := ⟨h.vacated.balanced, h.vacated.stale⟩

theorem Leaves.empty (h : Leaves w w' p d) (hr : r ∈ w'.heap.slots) (hp : r.address = p) :
    r.target = none := by
  have hslot := slot_of_mem h.vacated.balanced.slots hr
  rw [hp, h.vacated.slot] at hslot
  rw [← Option.some.inj hslot]

theorem Leaves.known (h : Leaves w w' p d) :
    ∀ b ∈ targets w'.heap.slots, b ∈ w'.heap.addresses :=
  fun b hb => h.vacated.balanced.known b (List.mem_append_right _ hb)

theorem Leaves.of_free (h : Leaves w w' p d) (hr : r ∈ w'.heap.freePtrs) (ha : r.target = some a) :
    r ∈ w.heap.freePtrs ∧ r.address ≠ p := by
  have hne : r.address ≠ p := by
    intro hp
    rw [h.empty (List.mem_append_left _ hr) hp] at ha
    cases ha
  rw [h.free] at hr
  obtain ⟨s, hs, rfl⟩ := List.mem_map.mp hr
  rw [address_setAt] at hne
  rw [setAt_of_ne hne]
  exact ⟨hs, hne⟩

theorem Leaves.of_member (h : Leaves w w' p d) (hx : w'.heap.HasMember x r) (ha : r.target = some a) :
    w.heap.HasMember x r ∧ r.address ≠ p := by
  have hne : r.address ≠ p := by
    intro hp
    rw [h.empty hx.mem_slots hp] at ha
    cases ha
  obtain ⟨s, hs, rfl⟩ := h.member x r hx
  rw [address_setAt] at hne
  rw [setAt_of_ne hne]
  exact ⟨hs, hne⟩

theorem heldWithout_of_free (hr : w.released = []) (hmem : r ∈ w.heap.freePtrs) (hne : r.address ≠ p)
    (ha : r.target = some a) : w.HeldWithout p a := by
  apply HeldWithout.free hmem hne _ ha
  rw [hr]
  exact List.not_mem_nil

theorem heldWithout_of_member (hr : w.released = []) (hx : w.heap.HasMember x r)
    (hheld : w.HeldWithout p x) (hne : r.address ≠ p) (ha : r.target = some a) :
    w.HeldWithout p a := by
  obtain ⟨o, hf, hmem⟩ := hx
  apply HeldWithout.member hheld hf hmem hne _ ha
  rw [hr]
  exact List.not_mem_nil

theorem Leaves.closed_heldWithout (h : Leaves w w' p d) (hr : w.released = []) :
    w'.heap.Closed (w.HeldWithout p) where
  free r hmem b hb := by
    obtain ⟨hmem, hne⟩ := h.of_free hmem hb
    exact heldWithout_of_free hr hmem hne hb
  member x r hx hheld b hb := by
    obtain ⟨hx, hne⟩ := h.of_member hx hb
    exact heldWithout_of_member hr hx hheld hne hb

theorem Leaves.heldWithout (h : Leaves w w' p d) (hr : w.released = [])
    (hx : w'.heap.HasMember x r) : w.HeldWithout p x := by
  have hreach := (h.inv.reachable_iff h.released).mpr (h.inv.live_of_member hx)
  exact (h.closed_heldWithout hr).of_reachable hreach

theorem Leaves.slot_iff (h : Leaves w w' p d) (hw : Inv w) (hr : w.released = []) (hne : q ≠ p) :
    w'.slot q = some s ↔ w.slot q = some s ∧ w.Survives q p := by
  constructor
  swap
  · rintro ⟨hs, hsurvives⟩
    exact h.vacated.survives q s hne hs hsurvives
  intro hs
  obtain ⟨hmem, rfl⟩ := slot_mem hs
  obtain hfree | ⟨x, hx⟩ := free_or_member h.vacated.balanced.addresses hmem
  · rw [h.free] at hfree
    obtain ⟨t, ht, rfl⟩ := List.mem_map.mp hfree
    rw [address_setAt] at hne
    rw [setAt_of_ne hne] at hs ⊢
    refine ⟨slot_of_mem hw.balanced.slots (List.mem_append_left _ ht), ?_⟩
    exact fun x hx => absurd hx (not_isMember_of_free hw.balanced.slots ht)
  · obtain ⟨t, ht, rfl⟩ := h.member x s hx
    rw [address_setAt] at hne
    rw [setAt_of_ne hne] at hx ⊢
    refine ⟨slot_of_mem hw.balanced.slots ht.mem_slots, ?_⟩
    intro y hy
    rw [isMember_unique hw.balanced.slots hy ht.isMember]
    exact h.heldWithout hr hx

theorem Leaves.remaining_eq (h : Leaves w w' p d) (hw : Inv w) (hr : w.released = []) :
    w.remaining p a = {r | r ∈ w'.heap.slots ∧ r.target = some a} := by
  ext r
  constructor
  · rintro ⟨hmem, hne, ht, hsurvives⟩
    have hslot := slot_of_mem hw.balanced.slots hmem
    have hstill := (h.slot_iff hw hr hne).mpr ⟨hslot, hsurvives⟩
    exact ⟨(slot_mem hstill).1, ht⟩
  · rintro ⟨hmem, ht⟩
    have hne : r.address ≠ p := by
      intro hp
      rw [h.empty hmem hp] at ht
      cases ht
    obtain ⟨hslot, hsurvives⟩ :=
      (h.slot_iff hw hr hne).mp (slot_of_mem h.vacated.balanced.slots hmem)
    exact ⟨(slot_mem hslot).1, hne, ht, hsurvives⟩

theorem ncard_targets {slots : List PtrSlot} (hn : (slots.map PtrSlot.address).Nodup) :
    {r | r ∈ slots ∧ r.target = some a}.ncard = (targets slots).count a := by
  have hset : {r | r ∈ slots ∧ r.target = some a} =
      ((slots.filter fun r => r.target = some a).toFinset : Set PtrSlot) := by
    ext r
    simp
  have hnodup : (slots.filter fun r => r.target = some a).Nodup := hn.of_map.filter _
  rw [hset, Set.ncard_coe_finset, List.toFinset_card_of_nodup hnodup, targets,
    List.count_filterMap, List.countP_eq_length_filter]
  congr 1
  apply List.filter_congr
  intro r _
  rw [Bool.eq_iff_iff, decide_eq_true_iff, beq_iff_eq]

theorem Leaves.counter_eq (h : Leaves w w' p d) (hlive : w'.heap.refCounter a ≠ 0) :
    (w'.heap.refCounter a).toNat = (targets w'.heap.slots).count a := by
  have hheld : w'.held = targets w'.heap.slots := by
    simp [held, h.released]
  rw [h.vacated.balanced.counter a hlive, List.nil_append, hheld]

theorem Leaves.canCount_iff (h : Leaves w w' p d) (hw : Inv w) (hr : w.released = [])
    (hs : w'.slot q = some s) : w.CanCount p s.target ↔ w'.Room s.target := by
  have hb := h.vacated.balanced
  apply forall₂_congr
  intro a ha
  have hlive := h.inv.live_of_target h.released (slot_mem hs).1 ha
  rw [h.remaining_eq hw hr, ncard_targets hb.slots, h.counter_eq hlive, hb.manage a,
    List.nil_append, and_self]

end Vacating

section Assign
variable {w w' : PtrState} {p q a x : Address} {d s : PtrSlot}

theorem of_defined (h : w.defined = some w') : w' = w := by
  unfold PtrState.defined at h
  split at h
  · cases h
  · exact (Option.some.inj h).symm

theorem Leaves.onPtr_eq {w₁ w₂ : PtrState} (h : Leaves w w₁ p d) (hw : w₂.broken = false) :
    (w₁.onPtr p fun _ => w₂) = some w₂ := by
  rw [onPtr, h.vacated.slot, Option.bind_some, PtrState.defined, hw]
  rfl

theorem of_onPtr {w₂ : PtrState} (h : (w.onPtr p fun _ => w₂) = some w') : w' = w₂ := by
  obtain ⟨t, -, h⟩ := Option.bind_eq_some_iff.mp h
  exact of_defined h

theorem Leaves.slot_eq {w₁ : PtrState} {r : PtrSlot} (h : Leaves w w₁ p d) (hw : Inv w)
    (hr : w.released = []) (hs : w.slot q = some s) (hne : p ≠ q) (hq : w₁.slot q = some r) :
    r = s := by
  have hbefore := ((h.slot_iff hw hr hne.symm).mp hq).1
  exact Option.some.inj (hbefore.symm.trans hs)

section Steps
variable (h : Leaves w (w.letGo d) p d) (hw : Inv w) (hr : w.released = [])
  (hd : w.slot p = some d) (hs : w.slot q = some s) (hne : p ≠ q)
include h hw hr hd hs hne

theorem Leaves.step_assign (hstep : w.step (.assign p q) = some w') :
    (w.letGo d).slot q = some s ∧
      w' = ((w.letGo d).acquire s.target).put p ((w.letGo d).value s) := by
  rw [PtrState.step, onPtrs_eq hd hs hne] at hstep
  obtain ⟨r, hq, hstep⟩ := Option.bind_eq_some_iff.mp hstep
  obtain rfl := h.slot_eq hw hr hs hne hq
  exact ⟨hq, of_onPtr hstep⟩

theorem Leaves.step_assignMove (hstep : w.step (.assignMove p q) = some w') :
    (w.letGo d).slot q = some s ∧
      w' = ((w.letGo d).put q {}).put p ((w.letGo d).value s) := by
  rw [PtrState.step, onPtrs_eq hd hs hne] at hstep
  obtain ⟨r, hq, hstep⟩ := Option.bind_eq_some_iff.mp hstep
  obtain rfl := h.slot_eq hw hr hs hne hq
  exact ⟨hq, of_onPtr hstep⟩

end Steps

theorem step_self (e : PtrEvent) (he : e = .assign p p ∨ e = .assignMove p p) (hd : w.slot p = some d) :
    w.step e = some w := by
  obtain rfl | rfl := he
  · rw [PtrState.step, onPtrs, hd]
    exact if_pos rfl
  · rw [PtrState.step, onPtrs, hd]
    exact if_pos rfl

theorem Inv.assigns_self (h : Inv w) (hr : w.released = []) (e : PtrEvent)
    (he : e = .assign p p ∨ e = .assignMove p p) (hd : w.slot p = some d) :
    w.Assigns e p d.target :=
  ⟨w, step_self e he hd, ⟨d, hd, rfl⟩, fun _ ht => h.alive_of_target hr (slot_mem hd).1 ht,
    h.collected hr⟩

theorem hasMember_acquire {target : Option Address} {r : PtrSlot} :
    (w.acquire target).heap.HasMember x r ↔ w.heap.HasMember x r := by
  cases target with
  | none => rfl
  | some b =>
    change (w.withCounter b (· + 1)).heap.HasMember x r ↔ _
    unfold HasMember
    rw [find_withCounter]
    constructor
    · rintro ⟨o, hf, hr⟩
      obtain ⟨c, hc, rfl⟩ := Option.map_eq_some_iff.mp hf
      refine ⟨c, hc, ?_⟩
      split at hr <;> exact hr
    · rintro ⟨c, hc, hr⟩
      refine ⟨_, by rw [hc]; rfl, ?_⟩
      beta_reduce
      split <;> exact hr

theorem freePtrs_acquire (target : Option Address) :
    (w.acquire target).heap.freePtrs = w.heap.freePtrs := by
  cases target <;> rfl

theorem deleted_acquire (target : Option Address) :
    (w.acquire target).heap.deleted = w.heap.deleted := by
  cases target <;> rfl

theorem closed_acquire {P : Address → Prop} {target : Option Address} :
    (w.acquire target).heap.Closed P ↔ w.heap.Closed P :=
  ⟨fun h => h.congr (freePtrs_acquire target).symm fun _ _ => hasMember_acquire.mpr,
    fun h => h.congr (freePtrs_acquire target) fun _ _ => hasMember_acquire.mp⟩

theorem mem_addresses_acquire {target : Option Address} :
    a ∈ (w.acquire target).heap.addresses ↔ a ∈ w.heap.addresses := by
  cases target with
  | none => rfl
  | some b => exact mem_addresses_withCounter w b (· + 1)

theorem refCounter_acquire_of_full {o : HeapObject} (hf : w.heap.find a = some o)
    (hfull : (w.heap.refCounter a).toNat = 65535) :
    (w.acquire (some a)).heap.refCounter a = 0 := by
  change (w.withCounter a (· + 1)).heap.refCounter a = 0
  rw [refCounter_withCounter hf]
  have hlast : w.heap.refCounter a = 65535 := UInt16.toNat_inj.mp hfull
  rw [hlast]
  rfl

theorem targets_put_known {v : PtrValue} (hknown : ∀ b ∈ targets w.heap.slots, b ∈ w.heap.addresses)
    (hv : ∀ b ∈ v.target, b ∈ w.heap.addresses) :
    ∀ b ∈ targets (w.put p v).heap.slots, b ∈ (w.put p v).heap.addresses := by
  intro b hb
  rw [mem_addresses_put]
  obtain ⟨r, hr, ht⟩ := List.mem_filterMap.mp hb
  change r ∈ (w.heap.setTarget p v.target).slots at hr
  rw [slots_setTarget] at hr
  obtain ⟨u, hu, rfl⟩ := List.mem_map.mp hr
  by_cases hp : u.address = p
  · rw [target_setAt hp] at ht
    exact hv b ht
  · rw [setAt_of_ne hp] at ht
    exact hknown b (mem_targets hu ht)

theorem Leaves.of_slot {w₁ : PtrState} (h : Leaves w w₁ p d) (hq : w₁.slot q = some s) :
    ∀ t ∈ s.target, w₁.heap.Reachable t ∧ w₁.heap.refCounter t ≠ 0 ∧ t ∉ w₁.heap.deleted := by
  intro t ht
  have halive := h.inv.alive_of_target h.released (slot_mem hq).1 ht
  exact ⟨(h.inv.reachable_iff h.released).mpr halive.1, halive⟩

section Copy
variable {w₁ : PtrState} (h : Leaves w w₁ p d) (hq : w₁.slot q = some s)
include h hq

theorem Leaves.reachable_copy :
    ((w₁.acquire s.target).put p (w₁.value s)).heap.Reachable a ↔ w₁.heap.Reachable a := by
  have htarget := h.of_slot hq
  constructor
  · -- `p` leads to an object that `q` leads to
    intro hreach
    have hclosed : (w₁.acquire s.target).heap.Closed w₁.heap.Reachable :=
      closed_acquire.mpr (closed_reachable h.known)
    have hput := hclosed.setTarget (p := p) (fun _ t ht => (htarget t ht).1)
      fun _ _ _ t ht => (htarget t ht).1
    exact hput.of_reachable hreach
  · -- `p` was empty, so nothing is lost
    intro hreach
    have hknown : ∀ b ∈ targets (w₁.acquire s.target).heap.slots,
        b ∈ (w₁.acquire s.target).heap.addresses := by
      intro b hb
      rw [slots_acquire] at hb
      exact mem_addresses_acquire.mpr (h.known b hb)
    have hclosed := closed_reachable (targets_put_known (p := p) (v := w₁.value s) hknown
      fun t ht => mem_addresses_acquire.mpr (mem_addresses_of_live (htarget t ht).2.1))
    have hbefore : (w₁.acquire s.target).heap.Closed
        ((w₁.acquire s.target).put p (w₁.value s)).heap.Reachable := by
      apply Closed.of_setTarget hclosed
      intro r hr hp b hb
      rw [slots_acquire] at hr
      rw [h.empty hr hp] at hb
      cases hb
    exact (closed_acquire.mp hbefore).of_reachable hreach

theorem Leaves.assigned_copy_iff :
    Assigned ((w₁.acquire s.target).put p (w₁.value s)) p s.target ↔ w₁.Room s.target := by
  have htarget := h.of_slot hq
  constructor
  · intro hassigned t ht
    obtain ⟨-, hlive, -⟩ := htarget t ht
    have hcount := h.counter_eq hlive
    have hless : (w₁.heap.refCounter t).toNat < 65535 := by
      by_contra hfull
      have hbound := (w₁.heap.refCounter t).toNat_lt
      obtain ⟨o, hf⟩ := find_of_live hlive
      apply (hassigned.alive t ht).1
      rw [refCounter_put]
      rw [Option.mem_def.mp ht]
      exact refCounter_acquire_of_full hf (by omega)
    rw [h.vacated.balanced.manage t, List.nil_append, ← hcount]
    exact ⟨hless, hless⟩
  · intro hroom
    constructor
    case holds =>
      have hslot : (w₁.acquire s.target).slot p = some { d with target := none } := by
        rw [PtrState.slot, slots_acquire]
        exact h.vacated.slot
      exact ⟨_, slot_put hslot, rfl⟩
    case alive =>
      intro t ht
      obtain ⟨-, hlive, hdeleted⟩ := htarget t ht
      rw [refCounter_put]
      refine ⟨refCounter_acquire hroom hlive, ?_⟩
      change t ∉ (w₁.acquire s.target).heap.deleted
      rwa [deleted_acquire]
    case collected =>
      apply (h.inv.collected h.released).congr
      · intro a
        rw [mem_addresses_put, mem_addresses_acquire]
      · exact deleted_acquire s.target
      · exact fun a => h.reachable_copy hq

end Copy

section Move
variable {w₁ : PtrState} (h : Leaves w w₁ p d)
include h

theorem Leaves.known_take : ∀ b ∈ targets (w₁.put q {}).heap.slots, b ∈ (w₁.put q {}).heap.addresses :=
  targets_put_known h.known nofun

theorem Leaves.closed_take : (w₁.put q {}).heap.Closed w₁.heap.Reachable :=
  (closed_reachable h.known).setTarget (fun _ => nofun) fun _ _ _ => nofun

theorem Leaves.empty_take (hne : p ≠ q) {r : PtrSlot} (hr : r ∈ (w₁.put q {}).heap.slots)
    (hp : r.address = p) : r.target = none := by
  change r ∈ (w₁.heap.setTarget q none).slots at hr
  rw [slots_setTarget] at hr
  obtain ⟨u, hu, rfl⟩ := List.mem_map.mp hr
  rw [address_setAt] at hp
  have hq : u.address ≠ q := fun hq => hne (hp.symm.trans hq)
  rw [setAt_of_ne hq]
  exact h.empty hu hp

theorem Leaves.reachable_take (hw : Inv w) (hd : w.slot p = some d) {y : Address}
    (hheld : w.HeldWithout q y) (hx : w.heap.IsMember p x) (hreach : w.heap.Reaches y x) :
    (w₁.put q {}).heap.Reachable y := by
  have hclosed := closed_reachable (h.known_take (q := q))
  have hnot : ∀ {r : PtrSlot} {b : Address}, r ∈ w.heap.slots → r.target = some b →
      w.heap.Reaches b x → r.address ≠ p := by
    intro r b hr hb hreach hp
    have hslot := slot_of_mem hw.balanced.slots hr
    rw [hp, hd] at hslot
    obtain rfl := Option.some.inj hslot
    obtain ⟨o, hf, hmem⟩ := hx
    obtain ⟨t, ht, htp⟩ := List.mem_map.mp hmem
    have hsame := member_eq hw.balanced.slots hd hf ht htp
    have hedge : w.heap.Edge x b := HasMember.edge ⟨o, hf, hsame ▸ ht⟩ hb
    exact hw.balanced.acyclic x (TransGen.head' hedge hreach)
  induction hheld with
  | @free r b hr hq _ hb =>
    have hp := hnot (List.mem_append_left _ hr) hb hreach
    apply hclosed.free r _ b hb
    have hmem := List.mem_map_of_mem (f := PtrSlot.setAt p none) hr
    rw [setAt_of_ne hp, ← h.free] at hmem
    have hmem' := List.mem_map_of_mem (f := PtrSlot.setAt q none) hmem
    rwa [setAt_of_ne hq] at hmem'
  | @member z o r b _ hf hr hq _ hb ih =>
    have hz : w.heap.HasMember z r := ⟨o, hf, hr⟩
    have hp := hnot hz.mem_slots hb hreach
    have hbefore := ih (ReflTransGen.head (hz.edge hb) hreach)
    have hlive := (h.inv.reachable_iff h.released).mp (h.closed_take.of_reachable hbefore)
    have hkept := h.kept z r hz hlive
    rw [setAt_of_ne hp] at hkept
    exact hclosed.member z r (hasMember_setTarget.mpr ⟨r, hkept, setAt_of_ne hq⟩) hbefore b hb

theorem Leaves.member_of_isMember (hw : Inv w) (hx : w.heap.IsMember p x) :
    w₁.heap.HasMember x { d with target := none } := by
  obtain ⟨hmem, hp⟩ := slot_mem h.vacated.slot
  obtain hfree | ⟨y, hy⟩ := free_or_member h.vacated.balanced.addresses hmem
  · rw [h.free] at hfree
    obtain ⟨u, hu, hsame⟩ := List.mem_map.mp hfree
    have hup : u.address = p := by rw [← hp, ← hsame, address_setAt]
    exact absurd (hup ▸ hx) (not_isMember_of_free hw.balanced.slots hu)
  · have hmember := h.vacated.member _ _ (hp ▸ hy.isMember)
    rwa [isMember_unique hw.balanced.slots hx hmember]

theorem Leaves.slot_take (hne : p ≠ q) : (w₁.put q {}).slot p = some { d with target := none } :=
  (slot_put_ne hne).trans h.vacated.slot

variable (hw : Inv w) (hd : w.slot p = some d) (hq : w₁.slot q = some s) (hne : p ≠ q)
include hw hd hq hne

theorem Leaves.reachable_move (hsurvives : w.Survives p q) :
    ((w₁.put q {}).put p (w₁.value s)).heap.Reachable a ↔ w₁.heap.Reachable a := by
  have htarget := h.of_slot hq
  constructor
  · intro hreach
    have htake : (w₁.put q {}).heap.Closed w₁.heap.Reachable := h.closed_take
    have hput := htake.setTarget (p := p) (fun _ t ht => (htarget t ht).1)
      fun _ _ _ t ht => (htarget t ht).1
    exact hput.of_reachable hreach
  · intro hreach
    have hknown : ∀ t ∈ s.target, t ∈ (w₁.put q {}).heap.addresses := fun t ht =>
      mem_addresses_put.mpr (mem_addresses_of_live (htarget t ht).2.1)
    have hclosed := closed_reachable (targets_put_known (p := p) (v := w₁.value s) h.known_take hknown)
    have htake := Closed.of_setTarget hclosed fun r hr hp b hb => by
      rw [h.empty_take hne hr hp] at hb
      cases hb
    -- the object has moved to `p`, which can be reached without `q`
    have hmoved : ∀ t ∈ s.target, ((w₁.put q {}).put p (w₁.value s)).heap.Reachable t := by
      intro t ht
      obtain ⟨hmem, hp⟩ := slot_mem (h.slot_take hne)
      have hset := (target_setAt hp).trans ht
      have haddresses : ((w₁.put q {}).heap.objects.map HeapObject.address).Nodup := by
        rw [addresses_put]
        exact h.vacated.balanced.addresses
      obtain hfree | ⟨x, hx⟩ := free_or_member haddresses hmem
      · exact hclosed.free _ (List.mem_map_of_mem hfree) t hset
      · have hxp : w.heap.IsMember p x := h.vacated.member p x (isMember_put (hp ▸ hx.isMember))
        have hbefore := h.reachable_take hw hd (hsurvives x hxp) hxp .refl
        exact hclosed.member x _ (hasMember_setTarget.mpr ⟨_, hx, rfl⟩)
          (htake.of_reachable hbefore) t hset
    have hbefore := Closed.of_setTarget htake fun r hr hrq b hb => by
      have hslot := slot_of_mem h.vacated.balanced.slots hr
      rw [hrq, hq] at hslot
      rw [← Option.some.inj hslot] at hb
      exact hmoved b hb
    exact hbefore.of_reachable hreach

theorem Leaves.assigned_move_iff (hr : w.released = []) :
    Assigned ((w₁.put q {}).put p (w₁.value s)) p s.target ↔ w.Survives p q := by
  constructor
  · intro hassigned x hx
    have hlive := h.inv.live_of_member (h.member_of_isMember hw hx)
    have hmem : x ∈ w₁.heap.addresses := mem_addresses_of_live hlive
    have hreach : ((w₁.put q {}).put p (w₁.value s)).heap.Reachable x := by
      by_contra hnot
      have hdeleted := (hassigned.collected x (mem_addresses_put.mpr
        (mem_addresses_put.mpr hmem))).mpr hnot
      exact hlive (h.inv.mem_deleted_iff.mp hdeleted).2
    -- a way that comes over `p` has been to `x` before
    have htake : (w₁.put q {}).heap.Closed fun y => w.HeldWithout q y ∨ w.HeldWithout q x := by
      apply closed_of_others
      · intro r hmem hrq b hb
        exact .inl (heldWithout_of_free hr (h.of_free hmem hb).1 hrq hb)
      · intro y r hy hrq hheld b hb
        exact hheld.imp_left fun hheld => heldWithout_of_member hr (h.of_member hy hb).1 hheld hrq hb
    have hput : ((w₁.put q {}).put p (w₁.value s)).heap.Closed
        fun y => w.HeldWithout q y ∨ w.HeldWithout q x := by
      apply htake.setTarget
      · rintro ⟨r, hmem, hrp⟩
        obtain ⟨u, hu, rfl⟩ := List.mem_map.mp hmem
        rw [address_setAt] at hrp
        have hmember := (h.member_of_isMember hw hx).isMember
        rw [(slot_mem h.vacated.slot).2, ← hrp] at hmember
        exact absurd hmember (not_isMember_of_free h.vacated.balanced.slots hu)
      · intro y hy hheld b _
        have hyp := h.vacated.member p y (isMember_put hy)
        rw [isMember_unique hw.balanced.slots hyp hx, or_self] at hheld
        exact .inr hheld
    exact (or_self_iff).mp (hput.of_reachable hreach)
  · intro hsurvives
    constructor
    case holds => exact ⟨_, slot_put (h.slot_take hne), rfl⟩
    case alive =>
      intro t ht
      rw [refCounter_put, refCounter_put]
      exact (h.of_slot hq t ht).2
    case collected =>
      apply (h.inv.collected h.released).congr
      · intro a
        rw [mem_addresses_put, mem_addresses_put]
      · rfl
      · exact fun a => h.reachable_move hw hd hq hne hsurvives

end Move

/-- An assignment, by copy or by move, leaves `p` with the object of `q` and nothing behind, exactly
if `q` is still there when `p` has let go and the copy can be counted, or for a move also the
object that `p` is in is held without `q`. -/
theorem assigns_iff (h : Inv w) (hr : w.released = []) (hd : w.slot p = some d)
    (hs : w.slot q = some s) :
    (w.Assigns (.assign p q) p s.target ↔ p = q ∨ w.Survives q p ∧ w.CanCount p s.target) ∧
      (w.Assigns (.assignMove p q) p s.target ↔ p = q ∨ w.Survives q p ∧ w.Survives p q) := by
  by_cases hpq : p = q
  · subst hpq
    obtain rfl := Option.some.inj (hd.symm.trans hs)
    exact ⟨iff_of_true (h.assigns_self hr _ (.inl rfl) hd) (.inl rfl),
      iff_of_true (h.assigns_self hr _ (.inr rfl) hd) (.inl rfl)⟩
  have hgo := h.letGo hr hd
  have hstill := hgo.slot_iff (s := s) h hr (Ne.symm hpq)
  simp only [hpq, false_or]
  refine ⟨⟨?_, ?_⟩, ⟨?_, ?_⟩⟩
  · rintro ⟨w', hstep, hassigned⟩
    obtain ⟨hq, rfl⟩ := hgo.step_assign h hr hd hs hpq hstep
    exact ⟨(hstill.mp hq).2, (hgo.canCount_iff h hr hq).mpr ((hgo.assigned_copy_iff hq).mp hassigned)⟩
  · rintro ⟨hsurvives, hcount⟩
    have hq := hstill.mpr ⟨hs, hsurvives⟩
    have hroom := (hgo.canCount_iff h hr hq).mp hcount
    refine ⟨_, ?_, (hgo.assigned_copy_iff hq).mpr hroom⟩
    rw [PtrState.step, onPtrs_eq hd hs hpq]
    simp only [hq, Option.bind_some]
    apply hgo.onPtr_eq
    exact (hgo.vacated.balanced.acquire (slot_mem hq).1 (hgo.released ▸ List.not_mem_nil) hroom).unbroken
  · rintro ⟨w', hstep, hassigned⟩
    obtain ⟨hq, rfl⟩ := hgo.step_assignMove h hr hd hs hpq hstep
    exact ⟨(hstill.mp hq).2, (hgo.assigned_move_iff h hd hq hpq hr).mp hassigned⟩
  · rintro ⟨hsurvives, hback⟩
    have hq := hstill.mpr ⟨hs, hsurvives⟩
    refine ⟨_, ?_, (hgo.assigned_move_iff h hd hq hpq hr).mpr hback⟩
    rw [PtrState.step, onPtrs_eq hd hs hpq]
    simp only [hq, Option.bind_some]
    apply hgo.onPtr_eq
    exact hgo.vacated.balanced.unbroken

end Assign

section Runs
open Runs
variable {w : PtrState}

theorem inv_of_plain (es : List PtrEvent) (hplain : Along step Plain {} es) :
    ∃ w, run step {} es = some w ∧ Inv w :=
  run_invariant (fun _ _ h hp => h.step hp.noCycle hp.prudent) inv_initial hplain

theorem canCount_of_length (p : Address) (target : Option Address)
    (hfew : w.heap.slots.length < 65535) : w.CanCount p target := by
  intro a _
  have hsub : w.remaining p a ⊆ (w.heap.slots.toFinset : Set PtrSlot) := by
    rintro r ⟨hr, -⟩
    exact List.mem_toFinset.mpr hr
  calc (w.remaining p a).ncard ≤ (w.heap.slots.toFinset : Set PtrSlot).ncard :=
        Set.ncard_le_ncard hsub (Finset.finite_toSet _)
    _ = w.heap.slots.toFinset.card := Set.ncard_coe_finset _
    _ ≤ w.heap.slots.length := List.toFinset_card_le _
    _ < 65535 := hfew

/-- The first `Ptr` to a list goes on to the next element, and a second one still holds the list. -/
theorem assigns_iff_two_holders : ∃ w, run step {} [
    .construct 100 0 ⟨16, 0, 0, [⟨17, 0, none, true⟩], true, []⟩,
    .construct 101 0 ⟨32, 0, 0, [], true, []⟩, .assign 17 101, .destroy 101, .copy 102 0 100] = some w ∧
    w.Assigns (.assign 100 17) 100 (some 32) ∧ w.Assigns (.assignMove 100 17) 100 (some 32) := by
  obtain ⟨w, hrun, hinv⟩ := inv_of_plain [
    .construct 100 0 ⟨16, 0, 0, [⟨17, 0, none, true⟩], true, []⟩,
    .construct 101 0 ⟨32, 0, 0, [], true, []⟩, .assign 17 101, .destroy 101, .copy 102 0 100]
    (by decide +kernel)
  refine ⟨w, hrun, ?_⟩
  have hr := run_observe (f := fun w => w.released) (b := []) hrun (by decide +kernel)
  have hd := run_observe (f := fun w => w.slot 100) (b := some ⟨100, 0, some 16, true⟩) hrun
    (by decide +kernel)
  have hs := run_observe (f := fun w => w.slot 17) (b := some ⟨17, 0, some 32, true⟩) hrun
    (by decide +kernel)
  have hfree := run_observe (f := fun w => w.heap.freePtrs)
    (b := [⟨100, 0, some 16, true⟩, ⟨102, 0, some 16, true⟩]) hrun (by decide +kernel)
  have hfind := run_observe (f := fun w => (w.heap.find 16).map HeapObject.members)
    (b := some [⟨17, 0, some 32, true⟩]) hrun (by decide +kernel)
  have hfew := run_observe (f := fun w => w.heap.slots.length) (b := 3) hrun (by decide +kernel)
  have hheld : w.HeldWithout 100 16 :=
    .free (s := ⟨102, 0, some 16, true⟩) (by rw [hfree]; simp) (by decide) (by rw [hr]; simp) rfl
  have hmember : w.heap.IsMember 17 16 := by
    obtain ⟨o, hf, hmembers⟩ := Option.map_eq_some_iff.mp hfind
    exact ⟨o, hf, by rw [hmembers]; simp⟩
  have hsurvives : w.Survives 17 100 := by
    intro x hx
    rwa [isMember_unique hinv.balanced.slots hx hmember]
  have hback : w.Survives 100 17 := by
    intro x hx
    have hvariable : (⟨100, 0, some 16, true⟩ : PtrSlot) ∈ w.heap.freePtrs := by
      rw [hfree]
      simp
    exact absurd hx (not_isMember_of_free hinv.balanced.slots hvariable)
  obtain ⟨hcopy, hmove⟩ := assigns_iff hinv hr hd hs
  exact ⟨hcopy.mpr (.inr ⟨hsurvives, canCount_of_length _ _ (by omega)⟩),
    hmove.mpr (.inr ⟨hsurvives, hback⟩)⟩

/-- `p = p->next` on a list of two elements reads `next` from the deleted first one. -/
theorem assign_next_reads_deleted : ¬∀ (w : PtrState) (p q : Address) (d s : PtrSlot), Inv w →
    w.released = [] → w.slot p = some d → w.slot q = some s →
    w.Assigns (.assign p q) p s.target ∧ w.Assigns (.assignMove p q) p s.target := by
  intro hall
  obtain ⟨w, hrun, hinv⟩ := inv_of_plain [
    .construct 100 0 ⟨16, 0, 0, [⟨17, 0, none, true⟩], true, []⟩,
    .construct 101 0 ⟨32, 0, 0, [], true, []⟩, .assign 17 101, .destroy 101] (by decide +kernel)
  have hr := run_observe (f := fun w => w.released) (b := []) hrun (by decide +kernel)
  have hd := run_observe (f := fun w => w.slot 100) (b := some ⟨100, 0, some 16, true⟩) hrun
    (by decide +kernel)
  have hs := run_observe (f := fun w => w.slot 17) (b := some ⟨17, 0, some 32, true⟩) hrun
    (by decide +kernel)
  have hstep := run_observe (f := fun w => (w.step (.assign 100 17)).isNone) (b := true) hrun
    (by decide +kernel)
  obtain ⟨⟨w', hsome, -⟩, -⟩ := hall w 100 17 _ _ hinv hr hd hs
  rw [hsome] at hstep
  cases hstep

end Runs
end PtrState
end AetherClient
